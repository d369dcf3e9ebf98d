import TreeLowering.Proofs.Labels

/-!
Dominance: every use of a result comes after its definition, on every path.

`Ir.Walk` is a path of the control-flow graph and `Ir.Dominated` is the property. It is not followed
along paths but certified: `Certified known b` says, block by block, that the uses in a block are
covered by the stack slots, by what is `known` on entry to the block, and by the block itself, and
that what is known on entry to a block is known at the end of every block that leads there. A
certificate is a fact about single blocks and edges, so every change of a body keeps it or extends
it, whatever loops are closed later; `Certified.dominated` carries it along a path.
-/
namespace TreeLowering

namespace Ir

/-- An instruction with the identity `k` stands in the block. -/
def Block.Defines (block : Block) (k : Nat) : Prop := ∃ line ∈ block.lines, line.id = k

/-- A path of the control-flow graph from the first block to `b`; `seen` are the blocks that it
    passes before. -/
inductive Walk (blocks : List Block) : List Block → Block → Prop where
  | start {b : Block} : blocks.head? = some b → Walk blocks [] b
  | step {seen : List Block} {b b' : Block} {t : Term} :
    Walk blocks seen b → b.term = some t → b' ∈ blocks → b'.label ∈ t.successors →
    Walk blocks (b :: seen) b'

/-- If the value is a result of an instruction of `fn`, then one that satisfies `P`. -/
def Value.Sourced (fn : FuncId) (P : Nat → Prop) (v : Value) : Prop :=
  ∀ k t, v = .computed fn k t → P k

/-- Every use of a result of the function is dominated by its definition. -/
structure Dominated (fn : FuncId) (blocks : List Block) : Prop where
  /-- An identity belongs to one instruction. -/
  distinct : (blocks.flatMap fun block => block.lines.map Line.id).Nodup
  /-- A path to an instruction passes what the instruction uses. -/
  lines : ∀ seen b, Walk blocks seen b → ∀ before line after,
    b.lines = before ++ line :: after → line.inst.isPhi = false → ∀ v ∈ line.inst.operands,
      v.Sourced fn fun k => (∃ p ∈ seen, p.Defines k) ∨ ∃ d ∈ before, d.id = k
  /-- A path to the end of an incoming block passes what is joined from there. -/
  joins : ∀ b ∈ blocks, ∀ line ∈ b.lines, ∀ incoming, line.inst = .phi incoming →
    ∀ x ∈ incoming, x.1.Sourced fn fun k =>
      ∀ seen p, Walk blocks seen p → p.label = x.2 → ∃ q ∈ p :: seen, q.Defines k
  /-- A path to the end of a block passes what its terminator uses. -/
  terms : ∀ seen b, Walk blocks seen b → ∀ t, b.term = some t → ∀ v ∈ t.operands,
    v.Sourced fn fun k => ∃ p ∈ b :: seen, p.Defines k

namespace Value.Sourced

variable {fn : FuncId} {P P' : Nat → Prop} {v : Value}

theorem mono (h : v.Sourced fn P) (hp : ∀ k, P k → P' k) : v.Sourced fn P' :=
  fun k t he => hp k (h k t he)

theorem of_constant (h : v.isConstant = true) : v.Sourced fn P := by
  rintro k t rfl
  cases h

theorem computed {k : Nat} (t : Ty) (h : P k) : (Value.computed fn k t).Sourced fn P := by
  intro k' t' he
  cases he
  exact h

end Value.Sourced

/-- Each instruction uses what `A` admits and the results of instructions before it. -/
def Supplied (fn : FuncId) : (Nat → Prop) → List Line → Prop
  | _, [] => True
  | A, line :: rest =>
    (line.inst.isPhi = false → ∀ v ∈ line.inst.operands, v.Sourced fn A) ∧
      Supplied fn (fun k => A k ∨ line.id = k) rest

namespace Supplied

variable {fn : FuncId} {A A' : Nat → Prop} {lines more : List Line}

theorem mono (h : Supplied fn A lines) (hA : ∀ k, A k → A' k) : Supplied fn A' lines := by
  induction lines generalizing A A' with
  | nil => trivial
  | cons line rest ih =>
    exact ⟨fun hp v hv => (h.1 hp v hv).mono hA, ih h.2 fun k => Or.imp_left (hA k)⟩

theorem append (h : Supplied fn A lines)
    (hm : Supplied fn (fun k => A k ∨ ∃ line ∈ lines, line.id = k) more) :
    Supplied fn A (lines ++ more) := by
  induction lines generalizing A with
  | nil => exact hm.mono fun k hk => hk.elim id fun ⟨_, hl, _⟩ => nomatch hl
  | cons line rest ih =>
    refine ⟨h.1, ih h.2 (hm.mono fun k hk => ?_)⟩
    simpa only [List.mem_cons, exists_eq_or_imp, or_assoc] using hk

/-- What an instruction in the middle uses. -/
theorem get {line : Line} {after : List Line} (h : Supplied fn A (lines ++ line :: after))
    (hp : line.inst.isPhi = false) :
    ∀ v ∈ line.inst.operands, v.Sourced fn fun k => A k ∨ ∃ d ∈ lines, d.id = k := by
  induction lines generalizing A with
  | nil => exact fun v hv => (h.1 hp v hv).mono fun _ hk => .inl hk
  | cons first rest ih =>
    intro v hv
    refine (ih h.2 v hv).mono fun k hk => ?_
    simpa only [List.mem_cons, exists_eq_or_imp, or_assoc] using hk

end Supplied

end Ir

/-! ## Numbers -/

/-- The identities of the instructions of a body. -/
def Body.lineIds (b : Body) : List Nat :=
  b.closed.flatMap fun block => block.lines.map Ir.Line.id

/-- Instructions have distinct identities, in the order in which they were made. -/
structure Numbered (b : Body) : Prop where
  nodup : b.lineIds.Nodup
  lt : ∀ k ∈ b.lineIds, k < b.lineCount

namespace Numbered

variable {b b' : Body} {l : Ir.Label}

theorem of_perm (h : Numbered b) (hc : b'.lineCount = b.lineCount)
    (hp : b'.lineIds.Perm b.lineIds) : Numbered b' :=
  ⟨hp.nodup_iff.mpr h.nodup, fun k hk => hc ▸ h.lt k (hp.mem_iff.mp hk)⟩

theorem of_perm_cons (h : Numbered b) (hc : b'.lineCount = b.lineCount + 1)
    (hp : b'.lineIds.Perm (b.lineCount :: b.lineIds)) : Numbered b' := by
  refine ⟨hp.nodup_iff.mpr (List.nodup_cons.mpr ⟨fun hm => ?_, h.nodup⟩), fun k hk => ?_⟩
  · exact Nat.lt_irrefl _ (h.lt _ hm)
  · rw [hc]
    rcases List.mem_cons.mp (hp.mem_iff.mp hk) with rfl | hk
    · exact Nat.lt_succ_self _
    · exact Nat.lt_succ_of_lt (h.lt k hk)

theorem addVarsLine (h : Numbered b) (inst : Ir.Inst) (type : Ir.Ty) :
    Numbered (b.addVarsLine inst type) := by
  refine h.of_perm_cons rfl ?_
  simp only [Body.lineIds, Body.closed, Body.addVarsLine, List.flatMap_cons, List.map_append,
    List.map_cons, List.map_nil, List.append_assoc]
  exact List.perm_middle

theorem finish (h : Numbered b) (t : Ir.Term) : Numbered (b.finish t) := by
  unfold Body.finish
  split
  · refine h.of_perm rfl (.of_eq ?_)
    simp only [Body.lineIds, Body.closed, Body.setTerm, Body.updateBlock, List.flatMap_cons,
      List.flatMap_map]
    congr 2
    funext block
    split <;> rfl
  · exact h

theorem addBlock (h : Numbered b) (name : String) : Numbered (b.addBlock name) := by
  refine h.of_perm rfl (.of_eq ?_)
  simp [Body.lineIds, Body.closed, Body.addBlock]

theorem ids_append {blocks : List Ir.Block} (line : Ir.Line)
    (hn : (blocks.map fun block => block.label.id).Nodup) :
    ((blocks.map fun block => if block.label.id = l.id then
        { block with lines := block.lines ++ [line] } else block).flatMap fun block =>
          block.lines.map Ir.Line.id).Perm (blocks.flatMap fun block =>
            block.lines.map Ir.Line.id) ∨
    ((blocks.map fun block => if block.label.id = l.id then
        { block with lines := block.lines ++ [line] } else block).flatMap fun block =>
          block.lines.map Ir.Line.id).Perm (line.id :: blocks.flatMap fun block =>
            block.lines.map Ir.Line.id) := by
  have appended := Ir.lines_append l line hn
  split at appended
  · simp only [← List.map_flatMap]
    exact .inr (appended.map Ir.Line.id)
  · rw [appended]
    exact .inl .rfl

theorem emit (h : Numbered b) (hl : Labelled b) (inst : Ir.Inst) (type : Ir.Ty) :
    Numbered (b.emit inst type) := by
  unfold Body.emit
  split
  · rename_i l _
    have hn : (b.blocks.map fun block => block.label.id).Nodup := by
      have := hl.nodup
      rwa [Body.labels, List.map_map] at this
    rcases ids_append (l := l) ⟨b.lineCount, inst, type⟩ hn with hp | hp
    · have same : Numbered { b.addLine l inst type with lineCount := b.lineCount } :=
        h.of_perm rfl (hp.append_left _)
      exact ⟨same.nodup, fun k hk => Nat.lt_succ_of_lt (same.lt k hk)⟩
    · exact h.of_perm_cons rfl ((hp.append_left _).trans List.perm_middle)
  · exact h

theorem closeJoin (h : Numbered b) (l : Ir.Label) (reached : Bool) :
    Numbered (b.closeJoin l reached) := by
  have hp : (b.moveToEnd l).blocks.Perm b.blocks := by
    refine List.perm_append_comm.trans ?_
    simpa using List.filter_append_perm
      (fun block : Ir.Block => decide (block.label.id = l.id)) b.blocks
  have moved : Numbered (b.moveToEnd l) := h.of_perm rfl ((hp.flatMap_right _).append_left _)
  cases reached with
  | true => exact ⟨moved.nodup, moved.lt⟩
  | false =>
    -- What was moved to the end is what goes away.
    obtain ⟨rest, hr⟩ : ∃ rest, (b.moveToEnd l).lineIds = (b.dropBlock l).lineIds ++ rest :=
      ⟨_, by
        simp only [Body.lineIds, Body.closed, Body.moveToEnd, Body.dropBlock, List.flatMap_cons,
          List.flatMap_append, List.append_assoc]
        rfl⟩
    exact ⟨(List.nodup_append.mp (hr ▸ moved.nodup)).1,
      fun k hk => moved.lt k (hr ▸ List.mem_append_left _ hk)⟩

end Numbered

/-! ## Certificates -/

/-- Results by the blocks on whose entry they are known. -/
abbrev Known := Nat → Nat → Prop

namespace Body

variable (b : Body)

/-- The result is computed among the stack slots. -/
def Rooted (k : Nat) : Prop := ∃ line ∈ b.vars, line.id = k

/-- The block was made, and is not the one with the stack slots. -/
def Made (l : Ir.Label) : Prop := 0 < l.id ∧ l.id < b.blockCount + 2

/-- The result is known at the end of a block. -/
def AtEnd (known : Known) (block : Ir.Block) (k : Nat) : Prop :=
  b.Rooted k ∨ known block.label.id k ∨ block.Defines k

/-- The result is known at the end of the block with an identity. -/
def Held (known : Known) (id k : Nat) : Prop :=
  ∀ block ∈ b.blocks, block.label.id = id → b.AtEnd known block k

end Body

theorem Body.Made.mono {b b' : Body} {l : Ir.Label} (h : b.Made l)
    (hc : b.blockCount ≤ b'.blockCount) : b'.Made l :=
  ⟨h.1, Nat.lt_of_lt_of_le h.2 (Nat.add_le_add_right hc 2)⟩

/-- The uses in a block are covered, and what is known where it leads is known at its end. -/
structure Covered (known : Known) (b : Body) (block : Ir.Block) : Prop where
  lines : Ir.Supplied b.fn (fun k => b.Rooted k ∨ known block.label.id k) block.lines
  joins : ∀ line ∈ block.lines, ∀ incoming, line.inst = .phi incoming → ∀ x ∈ incoming,
    b.Made x.2 ∧ x.1.Sourced b.fn (b.Held known x.2.id)
  operands : ∀ t, block.term = some t → ∀ v ∈ t.operands, v.Sourced b.fn (b.AtEnd known block)
  successors : ∀ t, block.term = some t → ∀ q ∈ t.successors,
    q.id < b.blockCount + 2 ∧ ∀ k, known q.id k → b.AtEnd known block k

/-- A certificate that uses are dominated: what is known on entry to blocks covers all of them. -/
structure Certified (known : Known) (b : Body) : Prop where
  labelled : Labelled b
  numbered : Numbered b
  setup : ∀ line ∈ b.vars, line.inst.isPhi = false
  slots : Ir.Supplied b.fn (fun _ => False) b.vars
  /-- Nothing is known on entry to the first block, and nothing of blocks that do not exist. -/
  entry : ∀ id k, known id k → 1 < id ∧ id < b.blockCount + 2
  blocks : ∀ block ∈ b.blocks, Covered known b block

/-- The block with the stack slots, as it stands in the finished function. -/
def Body.slotBlock (b : Body) : Ir.Block :=
  { label := varsLabel, lines := b.vars, term := some (.br entryLabel) }

namespace Certified

variable {known : Known} {b : Body}

/-- What is known on entry to a block was passed on every path there. -/
theorem passed (h : Certified known b) {seen : List Ir.Block} {block : Ir.Block}
    (hw : Ir.Walk b.closed seen block) :
    block = b.slotBlock ∨ block ∈ b.blocks ∧
      ∀ k, b.Rooted k ∨ known block.label.id k → ∃ p ∈ seen, p.Defines k := by
  induction hw with
  | start hs =>
    cases hs
    exact .inl rfl
  | @step seen p block t hw ht hm hq ih =>
    rcases List.mem_cons.mp hm with rfl | hm
    · exact .inl rfl
    refine .inr ⟨hm, fun k hk => ?_⟩
    rcases ih with rfl | ⟨hp, ih⟩
    · -- The path comes from the stack slots, and leads to the first block.
      cases ht
      rcases hk with hk | hk
      · exact ⟨b.slotBlock, List.mem_cons_self, hk⟩
      · rw [List.mem_singleton.mp hq] at hk
        exact absurd (h.entry _ _ hk).1 (Nat.lt_irrefl 1)
    · have hend : b.AtEnd known p k := by
        rcases hk with hk | hk
        · exact .inl hk
        · exact ((h.blocks p hp).successors t ht _ hq).2 k hk
      rcases hend with hk | hk | hk
      · obtain ⟨q, hq, hd⟩ := ih k (.inl hk)
        exact ⟨q, List.mem_cons_of_mem _ hq, hd⟩
      · obtain ⟨q, hq, hd⟩ := ih k (.inr hk)
        exact ⟨q, List.mem_cons_of_mem _ hq, hd⟩
      · exact ⟨p, List.mem_cons_self, hk⟩

/-- What is known at the end of a block was passed on every path through it. -/
theorem passed_end {seen : List Ir.Block} {block : Ir.Block} {k : Nat}
    (hp : ∀ k, b.Rooted k ∨ known block.label.id k → ∃ p ∈ seen, p.Defines k)
    (hk : b.AtEnd known block k) : ∃ p ∈ block :: seen, p.Defines k := by
  have before : b.Rooted k ∨ known block.label.id k → ∃ p ∈ block :: seen, p.Defines k := by
    intro hk
    obtain ⟨p, hm, hd⟩ := hp k hk
    exact ⟨p, List.mem_cons_of_mem _ hm, hd⟩
  rcases hk with hk | hk | hk
  · exact before (.inl hk)
  · exact before (.inr hk)
  · exact ⟨block, List.mem_cons_self, hk⟩

/-- In a certified body every use is dominated by its definition. -/
theorem dominated (h : Certified known b) : Ir.Dominated b.fn b.closed where
  distinct := h.numbered.nodup
  lines seen block hw before line after hl hp v hv := by
    rcases h.passed hw with rfl | ⟨hm, passed⟩
    · -- Among the stack slots only what comes before is used.
      have hs : Ir.Supplied b.fn (fun _ => False) (before ++ line :: after) := hl ▸ h.slots
      exact (hs.get hp v hv).mono fun k hk => hk.imp_left False.elim
    · have hs := (h.blocks block hm).lines
      rw [hl] at hs
      exact (hs.get hp v hv).mono fun k hk => hk.imp_left (passed k)
  joins block hm line hl incoming hp x hx k t he seen p hw hx2 := by
    rcases List.mem_cons.mp hm with rfl | hm
    · have := h.setup line hl
      simp [hp, Ir.Inst.isPhi] at this
    · obtain ⟨hmade, hs⟩ := (h.blocks block hm).joins line hl incoming hp x hx
      rcases h.passed hw with rfl | ⟨hm', passed⟩
      · -- Nothing is joined from the stack slots.
        exact absurd hmade.1 (by rw [← hx2]; exact Nat.lt_irrefl 0)
      · exact passed_end passed (hs k t he p hm' (by rw [hx2]))
  terms seen block hw t ht v hv := by
    rcases h.passed hw with rfl | ⟨hm, passed⟩
    · cases ht
      cases hv
    · exact ((h.blocks block hm).operands t ht v hv).mono fun k hk => passed_end passed hk

end Certified

/-! ## Changes of a body -/

/-- An instruction stands where the cursor is. -/
theorem Body.defines_emit {b : Body} {l : Ir.Label} {inst : Ir.Inst} {type : Ir.Ty}
    {block : Ir.Block} (hc : b.cursor = some l) (hm : block ∈ (b.emit inst type).blocks)
    (hid : block.label.id = l.id) : block.Defines b.lineCount := by
  rw [Body.emit, hc] at hm
  obtain ⟨old, -, rfl⟩ := List.mem_map.mp hm
  by_cases hl : old.label.id = l.id
  · rw [if_pos hl]
    exact ⟨⟨b.lineCount, inst, type⟩, by simp, rfl⟩
  · rw [if_neg hl] at hid
    exact absurd hid hl

/-- The second of two certificates knows more, but nothing new of the first blocks. -/
structure Known.Extends (n : Nat) (known known' : Known) : Prop where
  old : ∀ id k, known id k → known' id k
  new : ∀ id k, id < n → known' id k → known id k

theorem Known.Extends.refl (n : Nat) (known : Known) : Known.Extends n known known :=
  ⟨fun _ _ h => h, fun _ _ _ h => h⟩

theorem Known.Extends.trans {n n' : Nat} {known known₁ known₂ : Known}
    (h₁ : Known.Extends n known known₁) (h₂ : Known.Extends n' known₁ known₂) (hn : n ≤ n') :
    Known.Extends n known known₂ where
  old id k h := h₂.old id k (h₁.old id k h)
  new id k hid h := h₁.new id k hid (h₂.new id k (Nat.lt_of_lt_of_le hid hn) h)

/-- The second body has everything that the first one has, and blocks are added at the end of the
    numbers or were there before. -/
structure Body.Fuller (b b' : Body) : Prop where
  fn : b'.fn = b.fn
  blockCount : b.blockCount ≤ b'.blockCount
  rooted : ∀ k, b.Rooted k → b'.Rooted k
  blocks : ∀ block' ∈ b'.blocks, b.blockCount + 2 ≤ block'.label.id ∨
    ∃ block ∈ b.blocks, block.label = block'.label ∧ ∀ k, block.Defines k → block'.Defines k

/-- Ending a conditional makes no blocks. -/
theorem Body.mem_of_mem_closeJoin {b : Body} {l : Ir.Label} {reached : Bool} {block : Ir.Block}
    (h : block ∈ (b.closeJoin l reached).blocks) : block ∈ b.blocks := by
  cases reached with
  | true =>
    rcases List.mem_append.mp h with h | h
    · exact (List.mem_filter.mp h).1
    · exact (List.mem_filter.mp h).1
  | false => exact (List.mem_filter.mp h).1

namespace Body.Fuller

variable {b b' : Body} {known known' : Known}

/-- Blocks that are the old ones, or stand behind them. -/
theorem of_blocks (hf : b'.fn = b.fn) (hc : b.blockCount ≤ b'.blockCount) (hv : b'.vars = b.vars)
    (hb : ∀ block ∈ b'.blocks, block ∈ b.blocks ∨ b.blockCount + 2 ≤ block.label.id) :
    Fuller b b' := by
  refine ⟨hf, hc, fun k hk => by rwa [Rooted, hv], fun block hm => ?_⟩
  rcases hb block hm with hm | hid
  · exact .inr ⟨block, hm, rfl, fun _ hd => hd⟩
  · exact .inl hid

theorem refl (b : Body) : Fuller b b :=
  of_blocks rfl (Nat.le_refl _) rfl fun _ h => .inl h

theorem trans {a : Body} (h₁ : Fuller a b) (h₂ : Fuller b b') : Fuller a b' where
  fn := h₂.fn.trans h₁.fn
  blockCount := Nat.le_trans h₁.blockCount h₂.blockCount
  rooted k hk := h₂.rooted k (h₁.rooted k hk)
  blocks block'' hm := by
    have := h₁.blockCount
    rcases h₂.blocks block'' hm with hid | ⟨block', hm, hl', hd'⟩
    · exact .inl (by omega)
    · rcases h₁.blocks block' hm with hid | ⟨block, hm, hl, hd⟩
      · exact .inl (hl' ▸ hid)
      · exact .inr ⟨block, hm, hl.trans hl', fun k hk => hd' k (hd k hk)⟩

/-- The cursor and the loops around it are of no account. -/
theorem steer (b : Body) (cursor : Option Ir.Label) (loops : List Loop) :
    Fuller b { b with cursor, loops } :=
  of_blocks rfl (Nat.le_refl _) rfl fun _ h => .inl h

theorem updateBlock (b : Body) (l : Ir.Label) {f : Ir.Block → Ir.Block}
    (hl : ∀ block, (f block).label = block.label)
    (hd : ∀ block k, block.Defines k → (f block).Defines k) : Fuller b (b.updateBlock l f) := by
  refine ⟨rfl, Nat.le_refl _, fun _ hk => hk, fun block' hm => ?_⟩
  obtain ⟨block, hb, rfl⟩ := List.mem_map.mp hm
  refine .inr ⟨block, hb, ?_⟩
  split
  · exact ⟨(hl block).symm, hd block⟩
  · exact ⟨rfl, fun _ hk => hk⟩

theorem addVarsLine (b : Body) (inst : Ir.Inst) (type : Ir.Ty) :
    Fuller b (b.addVarsLine inst type) where
  fn := rfl
  blockCount := Nat.le_refl _
  rooted _ hk := hk.imp fun _ h => ⟨List.mem_append_left _ h.1, h.2⟩
  blocks block hm := .inr ⟨block, hm, rfl, fun _ hd => hd⟩

theorem addBlock (b : Body) (name : String) : Fuller b (b.addBlock name) := by
  refine of_blocks rfl (Nat.le_succ _) rfl fun block hm => ?_
  rcases List.mem_append.mp hm with hm | hm
  · exact .inl hm
  · rw [List.mem_singleton.mp hm]
    exact .inr (Nat.le_refl _)

theorem emit (b : Body) (inst : Ir.Inst) (type : Ir.Ty) : Fuller b (b.emit inst type) := by
  unfold Body.emit
  split
  · rename_i l _
    have F := updateBlock b l (f := fun block =>
      { block with lines := block.lines ++ [⟨b.lineCount, inst, type⟩] }) (fun _ => rfl)
      fun _ _ hd => hd.imp fun _ h => ⟨List.mem_append_left _ h.1, h.2⟩
    exact ⟨F.fn, F.blockCount, F.rooted, F.blocks⟩
  · exact refl b

theorem finish (b : Body) (t : Ir.Term) : Fuller b (b.finish t) := by
  unfold Body.finish
  split
  · exact updateBlock b _ (fun _ => rfl) fun _ _ hd => hd
  · exact refl b

theorem closeJoin (b : Body) (l : Ir.Label) (reached : Bool) :
    Fuller b (b.closeJoin l reached) := by
  have K := Kept.closeJoin b l reached
  refine of_blocks K.fn K.blockCount ?_ fun block hm => .inl (mem_of_mem_closeJoin hm)
  cases reached <;> rfl

theorem goto (b : Body) (l : Ir.Label) : Fuller b (b.goto l) := steer b (some l) b.loops

theorem made (F : Fuller b b') {l : Ir.Label} (h : b.Made l) : b'.Made l :=
  h.mono F.blockCount

theorem atEnd (F : Fuller b b') (E : Known.Extends (b.blockCount + 2) known known')
    {block : Ir.Block} {k : Nat} (h : b.AtEnd known block k) : b'.AtEnd known' block k :=
  h.imp (F.rooted k) (Or.imp_left (E.old _ k))

/-- What is known at the end of an old block stays so. -/
theorem held (F : Fuller b b') (E : Known.Extends (b.blockCount + 2) known known') {id k : Nat}
    (hid : id < b.blockCount + 2) (h : b.Held known id k) : b'.Held known' id k := by
  intro block' hm he
  rcases F.blocks block' hm with hnew | ⟨block, hb, hl, hd⟩
  · exact absurd (he ▸ hnew) (Nat.not_le_of_lt hid)
  · rcases h block hb (by rw [hl, he]) with hk | hk | hk
    · exact .inl (F.rooted k hk)
    · exact .inr (.inl (E.old _ k (hl ▸ hk)))
    · exact .inr (.inr (hd k hk))

end Body.Fuller

theorem Covered.empty (known : Known) (b : Body) (l : Ir.Label) :
    Covered known b { label := l } :=
  ⟨trivial, fun _ hl => (nomatch hl), fun _ ht => (nomatch ht), fun _ ht => (nomatch ht)⟩

/-- A block that stays as it is stays covered. -/
theorem Covered.mono {known known' : Known} {b b' : Body} {block : Ir.Block}
    (h : Covered known b block) (F : b.Fuller b')
    (E : Known.Extends (b.blockCount + 2) known known') : Covered known' b' block where
  lines := by
    rw [F.fn]
    exact h.lines.mono fun k => Or.imp (F.rooted k) (E.old _ k)
  joins line hl incoming hp x hx := by
    obtain ⟨hm, hs⟩ := h.joins line hl incoming hp x hx
    rw [F.fn]
    exact ⟨F.made hm, hs.mono fun k => F.held E hm.2⟩
  operands t ht v hv := by
    rw [F.fn]
    exact (h.operands t ht v hv).mono fun k => F.atEnd E
  successors t ht q hq := by
    obtain ⟨hid, hk⟩ := h.successors t ht q hq
    exact ⟨Nat.lt_of_lt_of_le hid (Nat.add_le_add_right F.blockCount 2),
      fun k hq => F.atEnd E (hk k (E.new _ k hid hq))⟩

namespace Certified

variable {known known' : Known} {b b' : Body} {l : Ir.Label}

/-- A body with the same stack slots whose blocks are old ones. -/
theorem of_blocks (h : Certified known b) (F : b.Fuller b') (hl : Labelled b') (hn : Numbered b')
    (hv : b'.vars = b.vars) (hb : ∀ block ∈ b'.blocks, block ∈ b.blocks) :
    Certified known b' where
  labelled := hl
  numbered := hn
  setup := hv ▸ h.setup
  slots := by
    rw [F.fn, hv]
    exact h.slots
  entry id k hk := (h.entry id k hk).imp_right fun hid =>
    Nat.lt_of_lt_of_le hid (Nat.add_le_add_right F.blockCount 2)
  blocks block hm := (h.blocks block (hb block hm)).mono F (.refl _ _)

theorem start (fn : Ir.FuncId) (head : Option FuncHead) (result : Ty) :
    Certified (fun _ _ => False) { fn, head, result } where
  labelled := ⟨⟨[], rfl⟩, by simp [Body.labels], fun l hl => .inl (List.mem_singleton.mp hl)⟩
  numbered := ⟨List.nodup_nil, fun _ hk => nomatch hk⟩
  setup _ hl := nomatch hl
  slots := trivial
  entry _ _ hk := hk.elim
  blocks block hm := by
    rw [List.mem_singleton.mp hm]
    exact .empty _ _ _

theorem steer (h : Certified known b) (cursor : Option Ir.Label) (loops : List Loop) :
    Certified known { b with cursor, loops } :=
  h.of_blocks (.steer b cursor loops) (h.labelled.of_labels_eq rfl (Nat.le_refl _))
    ⟨h.numbered.nodup, h.numbered.lt⟩ rfl fun _ hm => hm

theorem goto (h : Certified known b) (l : Ir.Label) : Certified known (b.goto l) :=
  h.steer (some l) b.loops

theorem addVarsLine (h : Certified known b) {inst : Ir.Inst} (type : Ir.Ty)
    (hp : inst.isPhi = false) (ho : ∀ v ∈ inst.operands, v.Sourced b.fn b.Rooted) :
    Certified known (b.addVarsLine inst type) where
  labelled := h.labelled.of_labels_eq rfl (Nat.le_refl _)
  numbered := h.numbered.addVarsLine inst type
  setup line hl := by
    rcases List.mem_append.mp hl with hl | hl
    · exact h.setup line hl
    · rwa [List.mem_singleton.mp hl]
  slots := h.slots.append ⟨fun _ v hv => (ho v hv).mono fun _ hk => .inr hk, trivial⟩
  entry := h.entry
  blocks block hm := (h.blocks block hm).mono (.addVarsLine b inst type) (.refl _ _)

theorem emit (h : Certified known b) (hc : b.cursor = some l) {inst : Ir.Inst} (type : Ir.Ty)
    (ho : inst.isPhi = false → ∀ v ∈ inst.operands, v.Sourced b.fn (b.Held known l.id))
    (hj : ∀ incoming, inst = .phi incoming → ∀ x ∈ incoming,
      b.Made x.2 ∧ x.1.Sourced b.fn (b.Held known x.2.id)) :
    Certified known (b.emit inst type) := by
  have F := Body.Fuller.emit b inst type
  have hl := h.labelled.emit inst type
  have hn := h.numbered.emit h.labelled inst type
  have he : b.emit inst type = b.addLine l inst type := by simp [Body.emit, hc]
  rw [he] at F hl hn ⊢
  refine ⟨hl, hn, h.setup, h.slots, h.entry, fun block' hm => ?_⟩
  obtain ⟨block, hb, rfl⟩ := List.mem_map.mp hm
  have old := (h.blocks block hb).mono F (.refl _ known)
  by_cases hid : block.label.id = l.id
  · rw [if_pos hid]
    refine ⟨old.lines.append ⟨fun hp v hv => ?_, trivial⟩, fun line hl incoming hi => ?_, ?_, ?_⟩
    · refine (ho hp v hv).mono fun k hk => ?_
      rcases hk block hb hid with hk | hk | hk
      · exact .inl (.inl hk)
      · exact .inl (.inr hk)
      · exact .inr hk
    · rcases List.mem_append.mp hl with hl | hl
      · exact old.joins line hl incoming hi
      · rw [List.mem_singleton.mp hl] at hi
        intro x hx
        obtain ⟨hmade, hs⟩ := hj incoming hi x hx
        exact ⟨F.made hmade, hs.mono fun k => F.held (.refl _ known) hmade.2⟩
    · refine fun t ht v hv => (old.operands t ht v hv).mono fun k hk => ?_
      exact hk.imp_right (Or.imp_right (Exists.imp fun _ h => ⟨List.mem_append_left _ h.1, h.2⟩))
    · refine fun t ht q hq => (old.successors t ht q hq).imp_right fun hs k hk => ?_
      exact (hs k hk).imp_right
        (Or.imp_right (Exists.imp fun _ h => ⟨List.mem_append_left _ h.1, h.2⟩))
  · rw [if_neg hid]
    exact old

theorem finish (h : Certified known b) (hc : b.cursor = some l) {t : Ir.Term}
    (ho : ∀ v ∈ t.operands, v.Sourced b.fn (b.Held known l.id))
    (hs : ∀ q ∈ t.successors, q.id < b.blockCount + 2 ∧
      ∀ k, known q.id k → b.Held known l.id k) : Certified known (b.finish t) := by
  have F := Body.Fuller.finish b t
  have hl := h.labelled.finish t
  have hn := h.numbered.finish t
  have he : b.finish t = b.setTerm l t := by simp [Body.finish, hc]
  rw [he] at F hl hn ⊢
  refine ⟨hl, hn, h.setup, h.slots, h.entry, fun block' hm => ?_⟩
  obtain ⟨block, hb, rfl⟩ := List.mem_map.mp hm
  have old := (h.blocks block hb).mono F (.refl _ known)
  by_cases hid : block.label.id = l.id
  · rw [if_pos hid]
    refine ⟨old.lines, old.joins, fun t' ht v hv => ?_, fun t' ht q hq => ?_⟩
    · cases ht
      exact (ho v hv).mono fun k hk => hk block hb hid
    · cases ht
      exact (hs q hq).imp_right fun hk k hq => hk k hq block hb hid
  · rw [if_neg hid]
    exact old

/-- A new block, on entry to which anything may be known as nothing leads there yet. -/
theorem addBlock (h : Certified known b) (name : String) (A : Nat → Prop) :
    Certified (fun id k => known id k ∨ id = b.blockCount + 2 ∧ A k) (b.addBlock name) := by
  have F := Body.Fuller.addBlock b name
  refine ⟨h.labelled.addBlock name, h.numbered.addBlock name, h.setup, h.slots,
    fun id k hk => ?_, fun block hm => ?_⟩
  · rcases hk with hk | ⟨rfl, -⟩
    · exact (h.entry id k hk).imp_right Nat.lt_succ_of_lt
    · exact ⟨Nat.succ_lt_succ (Nat.succ_pos _), Nat.lt_succ_self _⟩
  · rcases List.mem_append.mp hm with hm | hm
    · refine (h.blocks block hm).mono F ⟨fun _ _ hk => .inl hk, fun id k hid hk => ?_⟩
      rcases hk with hk | ⟨rfl, -⟩
      · exact hk
      · exact absurd hid (Nat.lt_irrefl _)
    · rw [List.mem_singleton.mp hm]
      exact .empty _ _ _

theorem closeJoin (h : Certified known b) (hl : l.id ≠ 1) (reached : Bool) :
    Certified known (b.closeJoin l reached) := by
  refine h.of_blocks (.closeJoin b l reached) (h.labelled.closeJoin hl reached)
    (h.numbered.closeJoin l reached) ?_ fun block => Body.mem_of_mem_closeJoin
  cases reached <;> rfl

end Certified

end TreeLowering
