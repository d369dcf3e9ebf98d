import Mathlib.Data.List.Duplicate
import TreeLowering.Ir.Verify

/-!
What verification decides, of any module.

A function follows the rules (`Function.WellFormed`) if it is a declaration or its blocks are laid
out as they have to be (`LaidOut`). `Function.Breaks` says for each kind of report when it is true of
a function. What is reported of a function is just what is true of it (`mem_violations_iff`), and
something is true of it unless it follows the rules (`wellFormed_iff_forall_not_breaks`). So
verification accepts the modules whose functions all follow the rules, and reports on the other
functions in their order (`Reports`).

Main statement: `verify_exact`.
-/
namespace TreeLowering.Ir

/-! ## The rules -/

/-- Whether a block makes a stack slot. -/
def Block.HasAlloca (b : Block) : Prop :=
  ∃ line ∈ b.lines, ∃ type count, line.inst = .alloca type count

/-- The names of blocks, in order. -/
def blockNames (blocks : List Block) : List String := blocks.map fun b => b.label.name

/-- The rules for the blocks of a function with a body. -/
structure LaidOut (vars entry : Block) (rest : List Block) : Prop where
  first : vars.label.name = Abi.varsBlock
  second : entry.label.name = Abi.entryBlock
  /-- The branch leads to that very block: another one of its name does not do. -/
  enters : ∃ target, vars.term = some (.br target) ∧ target.id = entry.label.id
  ended : ∀ b ∈ vars :: entry :: rest, b.term ≠ none
  slots : ∀ b ∈ entry :: rest, ¬b.HasAlloca
  distinct : (blockNames (vars :: entry :: rest)).Nodup

/-- A function follows the rules: if it has blocks, it has at least two, laid out by the rules. -/
def Function.WellFormed (f : Function) : Prop :=
  f.blocks ≠ [] → ∃ vars entry rest, f.blocks = vars :: entry :: rest ∧ LaidOut vars entry rest

/-- What each report says of a function. If there is only one block, that is all there is to say. -/
inductive Function.Breaks (f : Function) : Violation → Prop where
  | tooFewBlocks {b : Block} : f.blocks = [b] → Breaks f (.tooFewBlocks 1)
  | firstBlock {vars entry : Block} {rest : List Block} : f.blocks = vars :: entry :: rest →
      vars.label.name ≠ Abi.varsBlock → Breaks f (.firstBlock vars.label.name)
  | secondBlock {vars entry : Block} {rest : List Block} : f.blocks = vars :: entry :: rest →
      entry.label.name ≠ Abi.entryBlock → Breaks f (.secondBlock entry.label.name)
  | noBranchToEntry {vars entry : Block} {rest : List Block} : f.blocks = vars :: entry :: rest →
      (¬∃ target, vars.term = some (.br target) ∧ target.id = entry.label.id) →
      Breaks f .noBranchToEntry
  | duplicateName {vars entry : Block} {rest : List Block} {name : String} :
      f.blocks = vars :: entry :: rest → List.Duplicate name (blockNames f.blocks) →
      Breaks f (.duplicateName name)
  | noTerminator {vars entry : Block} {rest : List Block} {b : Block} :
      f.blocks = vars :: entry :: rest → b ∈ f.blocks → b.term = none →
      Breaks f (.noTerminator b.label.name)
  | strayAlloca {vars entry : Block} {rest : List Block} {b : Block} :
      f.blocks = vars :: entry :: rest → b ∈ entry :: rest → b.label ≠ vars.label → b.HasAlloca →
      Breaks f (.strayAlloca b.label.name)

/-- A report on functions in their order, each entry with the name of its function: nothing on a
    function that follows the rules, and on any other one all that it breaks, which is something. -/
inductive Reports : List Function → List (String × Violation) → Prop where
  | nil : Reports [] []
  | wellFormed {f : Function} {fs : List Function} {found : List (String × Violation)} :
      f.WellFormed → Reports fs found → Reports (f :: fs) found
  | broken {f : Function} {fs : List Function} {vs : List Violation}
      {found : List (String × Violation)} : ¬f.WellFormed → vs ≠ [] → (∀ v, v ∈ vs ↔ f.Breaks v) →
      Reports fs found → Reports (f :: fs) (vs.map (fun v => (messageName f.name, v)) ++ found)

/-! ## What is reported of a function -/

theorem Function.Breaks.blocks_ne_nil {f : Function} {v : Violation} (h : f.Breaks v) :
    f.blocks ≠ [] := by
  cases h <;> simp [*]

theorem branchesTo_iff {term : Option Term} {l : Label} :
    branchesTo term l = true ↔ ∃ target, term = some (.br target) ∧ target.id = l.id := by
  unfold branchesTo
  split <;> simp_all

theorem hasAlloca_iff {b : Block} :
    b.HasAlloca ↔ ∃ line ∈ b.lines, line.inst.isAlloca = true := by
  have inst (i : Inst) : (∃ type count, i = .alloca type count) ↔ i.isAlloca = true := by
    cases i <;> simp [Inst.isAlloca]
  simp only [Block.HasAlloca, inst]

theorem Block.mem_violations_iff {b : Block} {isFirst : Bool} {v : Violation} :
    v ∈ b.violations isFirst ↔ v = .noTerminator b.label.name ∧ b.term = none ∨
      v = .strayAlloca b.label.name ∧ isFirst = false ∧ b.HasAlloca := by
  rw [hasAlloca_iff, Block.violations, List.mem_append]
  refine or_congr ?_ ?_
  · cases b.term <;> simp
  · cases isFirst with
    | true => simp
    | false => simp [eq_comm (a := v), and_comm (b := Violation.strayAlloca _ = v)]

/-- One step of the loop over the names: a name is now reported, or will be. -/
theorem duplicate_step {seen names : List String} {first name : String} :
    first = name ∧ first ∈ seen ∨
        (name ∈ first :: seen ∧ name ∈ names ∨ List.Duplicate name names) ↔
      name ∈ seen ∧ name ∈ first :: names ∨ List.Duplicate name (first :: names) := by
  rw [List.duplicate_cons_iff, List.mem_cons, List.mem_cons]
  constructor
  · rintro (⟨rfl, hs⟩ | ⟨rfl | hs, hn⟩ | hd)
    · exact .inl ⟨hs, .inl rfl⟩
    · exact .inr (.inl ⟨rfl, hn⟩)
    · exact .inl ⟨hs, .inr hn⟩
    · exact .inr (.inr hd)
  · rintro (⟨hs, rfl | hn⟩ | ⟨rfl, hn⟩ | hd)
    · exact .inl ⟨rfl, hs⟩
    · exact .inr (.inl ⟨.inr hs, hn⟩)
    · exact .inr (.inl ⟨.inl rfl, hn⟩)
    · exact .inr (.inr hd)

/-- The loop over the blocks. A name is reported where it was seen before, be it in front of these
    blocks or among them. -/
theorem mem_blockViolations_iff (vars : Label) (seen : List String) (blocks : List Block)
    {v : Violation} : v ∈ blockViolations vars seen blocks ↔
      (∃ b ∈ blocks, v ∈ b.violations (b.label = vars)) ∨
      ∃ name, v = .duplicateName name ∧
        (name ∈ seen ∧ name ∈ blockNames blocks ∨ List.Duplicate name (blockNames blocks)) := by
  induction blocks generalizing seen with
  | nil => simp [blockViolations, blockNames]
  | cons b rest ih =>
    have now : v ∈ (if seen.contains b.label.name then [Violation.duplicateName b.label.name]
        else []) ↔ ∃ name, v = .duplicateName name ∧ b.label.name = name ∧ b.label.name ∈ seen := by
      by_cases h : b.label.name ∈ seen <;> simp [h]
    rw [blockViolations, List.mem_append, List.mem_append, now, ih, List.exists_mem_cons_iff,
      or_comm (b := v ∈ b.violations _), or_or_or_comm]
    refine or_congr_right ?_
    simp only [← exists_or, ← and_or_left, blockNames, List.map_cons, duplicate_step]

theorem Function.mem_violations_iff {f : Function} {v : Violation} :
    v ∈ f.violations ↔ f.Breaks v := by
  rcases hb : f.blocks with _ | ⟨vars, _ | ⟨entry, rest⟩⟩
  · simp only [Function.violations, hb, List.not_mem_nil, false_iff]
    exact fun h => h.blocks_ne_nil hb
  · simp only [Function.violations, hb, List.mem_singleton]
    constructor
    · rintro rfl
      exact .tooFewBlocks hb
    · -- All other reports are on functions of two blocks or more.
      intro h
      cases h with
      | tooFewBlocks => rfl
      | _ hf => simp [hb] at hf
  · have loop := mem_blockViolations_iff vars.label [] (vars :: entry :: rest) (v := v)
    simp only [List.not_mem_nil, false_and, false_or, Block.mem_violations_iff,
      decide_eq_false_iff_not] at loop
    simp only [Function.violations, hb, List.mem_append, List.mem_ite_nil_left, List.mem_singleton,
      branchesTo_iff, loop]
    constructor
    · rintro (((⟨hn, rfl⟩ | ⟨hn, rfl⟩) | ⟨hn, rfl⟩) | ⟨b, hm, ⟨rfl, ht⟩ | ⟨rfl, hl, ha⟩⟩ |
        ⟨name, rfl, hd⟩)
      · exact .firstBlock hb hn
      · exact .secondBlock hb hn
      · exact .noBranchToEntry hb hn
      · exact .noTerminator hb (hb ▸ hm) ht
      · -- The first block itself may hold stack slots.
        have hr : b ∈ entry :: rest := (List.mem_cons.mp hm).resolve_left fun he => hl (he ▸ rfl)
        exact .strayAlloca hb hr hl ha
      · exact .duplicateName hb (hb ▸ hd)
    · intro h
      cases h with
      | tooFewBlocks hf => simp [hb] at hf
      | firstBlock hf hn =>
        cases hb.symm.trans hf
        exact .inl (.inl (.inl ⟨hn, rfl⟩))
      | secondBlock hf hn =>
        cases hb.symm.trans hf
        exact .inl (.inl (.inr ⟨hn, rfl⟩))
      | noBranchToEntry hf hn =>
        cases hb.symm.trans hf
        exact .inl (.inr ⟨hn, rfl⟩)
      | duplicateName hf hd => exact .inr (.inr ⟨_, rfl, hb ▸ hd⟩)
      | noTerminator hf hm ht => exact .inr (.inl ⟨_, hb ▸ hm, .inl ⟨rfl, ht⟩⟩)
      | strayAlloca hf hm hl ha =>
        cases hb.symm.trans hf
        exact .inr (.inl ⟨_, List.mem_cons_of_mem _ hm, .inr ⟨rfl, hl, ha⟩⟩)

/-! ## What follows the rules -/

theorem LaidOut.not_breaks {f : Function} {vars entry : Block} {rest : List Block}
    (h : LaidOut vars entry rest) (hf : f.blocks = vars :: entry :: rest) (v : Violation) :
    ¬f.Breaks v := by
  intro hv
  cases hv with
  | tooFewBlocks hb => simp [hf] at hb
  | firstBlock hb hn =>
    cases hf.symm.trans hb
    exact hn h.first
  | secondBlock hb hn =>
    cases hf.symm.trans hb
    exact hn h.second
  | noBranchToEntry hb hn =>
    cases hf.symm.trans hb
    exact hn h.enters
  | duplicateName hb hd => exact List.nodup_iff_forall_not_duplicate.mp (hf ▸ h.distinct) _ hd
  | noTerminator hb hm ht => exact h.ended _ (hf ▸ hm) ht
  | strayAlloca hb hm hl ha =>
    cases hf.symm.trans hb
    exact h.slots _ hm ha

theorem LaidOut.of_not_breaks {f : Function} {vars entry : Block} {rest : List Block}
    (hf : f.blocks = vars :: entry :: rest) (h : ∀ v, ¬f.Breaks v) : LaidOut vars entry rest := by
  have distinct : (blockNames (vars :: entry :: rest)).Nodup :=
    List.nodup_iff_forall_not_duplicate.mpr fun name hd => h _ (.duplicateName hf (hf ▸ hd))
  constructor
  case first => exact not_not.mp fun hn => h _ (.firstBlock hf hn)
  case second => exact not_not.mp fun hn => h _ (.secondBlock hf hn)
  case enters => exact not_not.mp fun hn => h _ (.noBranchToEntry hf hn)
  case ended => exact fun b hm ht => h _ (.noTerminator hf (hf ▸ hm) ht)
  case slots =>
    intro b hm ha
    refine h _ (.strayAlloca hf hm (fun hl => ?_) ha)
    -- No other block has the name of the first one.
    exact (List.nodup_cons.mp distinct).1 (List.mem_map.mpr ⟨b, hm, by rw [hl]⟩)
  case distinct => exact distinct

theorem Function.wellFormed_iff_forall_not_breaks {f : Function} :
    f.WellFormed ↔ ∀ v, ¬f.Breaks v := by
  constructor
  · intro h v hv
    obtain ⟨vars, entry, rest, hf, hl⟩ := h hv.blocks_ne_nil
    exact hl.not_breaks hf v hv
  · intro h body
    rcases hf : f.blocks with _ | ⟨vars, _ | ⟨entry, rest⟩⟩
    · exact absurd hf body
    · exact absurd (.tooFewBlocks hf) (h _)
    · exact ⟨vars, entry, rest, rfl, .of_not_breaks hf h⟩

theorem Function.violations_eq_nil_iff {f : Function} : f.violations = [] ↔ f.WellFormed := by
  simp only [List.eq_nil_iff_forall_not_mem, Function.mem_violations_iff,
    Function.wellFormed_iff_forall_not_breaks]

instance (f : Function) : Decidable f.WellFormed :=
  decidable_of_iff _ Function.violations_eq_nil_iff

/-! ## Modules -/

/-- The report on functions, from the report on each. -/
theorem reports_flatMap (fs : List Function) :
    Reports fs (fs.flatMap fun f => f.violations.map fun v => (messageName f.name, v)) := by
  induction fs with
  | nil => exact .nil
  | cons f fs ih =>
    rw [List.flatMap_cons]
    by_cases h : f.WellFormed
    · rw [Function.violations_eq_nil_iff.mpr h]
      exact .wellFormed h ih
    · exact .broken h (mt Function.violations_eq_nil_iff.mp h)
        (fun v => Function.mem_violations_iff) ih

theorem Module.violations_eq_nil_iff {m : Module} :
    m.violations = [] ↔ ∀ f ∈ m.funcs, f.WellFormed := by
  simp only [Module.violations, List.flatMap_eq_nil_iff, List.map_eq_nil_iff,
    Function.violations_eq_nil_iff, Array.mem_toList_iff]

theorem Module.verify_eq_ok_iff {m : Module} :
    m.verify = .ok () ↔ ∀ f ∈ m.funcs, f.WellFormed := by
  rw [← Module.violations_eq_nil_iff, Module.verify]
  cases m.violations <;> simp

theorem Module.verify_of_ne_nil {m : Module} (h : m.violations ≠ []) :
    m.verify = .error m.violations := by
  unfold Module.verify
  split
  · contradiction
  · rfl

/-- Every message names the function that it is about. -/
theorem Violation.message_eq (fn : String) (v : Violation) :
    ∃ what, v.message fn = "func " ++ fn ++ what := by
  unfold Violation.message
  cases v <;> simp only [String.append_assoc] <;> exact ⟨_, rfl⟩

/-- The message has a line of its own for each broken rule. -/
theorem verificationMessage_eq {found : List (String × Violation)} (h : found ≠ []) :
    verificationMessage found = String.intercalate "\n  "
      ("IR verification failed:" :: found.map fun r => r.2.message r.1) := by
  rw [String.intercalate_cons_of_ne_nil (by simpa using h)]
  rfl

/-- Verification is exact: it accepts a module if every function follows the rules, and no other
    one. Otherwise it reports, in the order of the functions, on each that does not, and the lines
    of its message name them. -/
theorem verify_exact (m : Module) :
    (m.verify = .ok () ↔ ∀ f ∈ m.funcs, f.WellFormed) ∧
    ((∃ f ∈ m.funcs, ¬f.WellFormed) → ∃ found, m.verify = .error found ∧
      Reports m.funcs.toList found ∧
      verificationMessage found = String.intercalate "\n  "
        ("IR verification failed:" :: found.map fun r => r.2.message r.1) ∧
      ∀ r ∈ found, ∃ what, r.2.message r.1 = "func " ++ r.1 ++ what) := by
  refine ⟨Module.verify_eq_ok_iff, ?_⟩
  rintro ⟨f, hf, hw⟩
  have found : m.violations ≠ [] := fun h => hw (Module.violations_eq_nil_iff.mp h f hf)
  exact ⟨m.violations, Module.verify_of_ne_nil found, reports_flatMap _,
    verificationMessage_eq found, fun r _ => r.2.message_eq r.1⟩

/-- A declaration, a function by the rules, one with a single block, and one that branches to the
    wrong block of the name `entry` and has a slot and no end in the right one. -/
def mixedModule : Module where
  funcs := #[
    { name := "ext", result := .void },
    { name := "fine", result := .void, blocks := [
      { label := ⟨0, "vars"⟩, lines := [⟨0, .alloca (.int 32) none, .pointer (.int 32)⟩],
        term := some (.br ⟨1, "entry"⟩) },
      { label := ⟨1, "entry"⟩, term := some (.ret none) }] },
    { name := "cut", result := .void, blocks := [
      { label := ⟨0, "entry"⟩, term := some (.ret none) }] },
    { name := "loose", result := .void, blocks := [
      { label := ⟨0, "vars"⟩, term := some (.br ⟨2, "entry"⟩) },
      { label := ⟨1, "entry"⟩, lines := [⟨0, .alloca (.int 32) none, .pointer (.int 32)⟩] },
      { label := ⟨2, "entry"⟩, term := some .unreachable }] }]

/-- The two functions that break rules are reported in their order, the last one with all that it
    breaks. -/
theorem verify_exact_mixedModule : (∃ f ∈ mixedModule.funcs, ¬f.WellFormed) ∧
    ∃ found, mixedModule.verify = .error found ∧ Reports mixedModule.funcs.toList found ∧
      found = [("cut", .tooFewBlocks 1), ("loose", .noBranchToEntry),
        ("loose", .noTerminator "entry"), ("loose", .strayAlloca "entry"),
        ("loose", .duplicateName "entry")] ∧
      verificationMessage found = String.intercalate "\n  " [
        "IR verification failed:",
        "func cut: 1 blocks, want at least vars and entry",
        "func loose: vars does not branch to entry",
        "func loose, entry: block has no terminator",
        "func loose, entry: alloca outside vars",
        "func loose: duplicate block name \"entry\""] := by
  have broken : ∃ f ∈ mixedModule.funcs, ¬f.WellFormed := by decide
  have result : mixedModule.verify = .error [("cut", .tooFewBlocks 1), ("loose", .noBranchToEntry),
      ("loose", .noTerminator "entry"), ("loose", .strayAlloca "entry"),
      ("loose", .duplicateName "entry")] := by
    decide +kernel
  obtain ⟨found, hv, reported, -⟩ := (verify_exact mixedModule).2 broken
  obtain rfl := Except.error.inj (hv.symm.trans result)
  exact ⟨broken, _, hv, reported, rfl, by decide +kernel⟩

end TreeLowering.Ir
