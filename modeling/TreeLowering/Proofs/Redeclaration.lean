import TreeLowering.Proofs.InitFunction
import TreeLowering.Proofs.Naming

/-!
Redeclared functions. A function is rejected if its symbol is taken. The symbols of functions, the
names of globals and those of the buffers of literals are kept in one table, so there are three ways
for a symbol to be taken: another definition of it was entered, a variable of this name became a
global, or the buffer of a literal has the name (`redeclared_spurious`). The third apart, a unit
that fails for a redeclared function does declare the symbol twice (`redeclared_twice`).

The invariant counts definitions: while the mentions `k` of a unit are to come and its symbol is
taken by a function, fewer definitions of the symbol are to come than the unit has (`Enrolled`). A
definition is counted off where its prototype is entered. Among declarations that is ahead of its
turn, so a function that is noted when its turn comes is not counted again
(`guards_declarations`).
-/
namespace TreeLowering

open Lower

/-! ## Declarations of a symbol -/

/-- How often active functions with a symbol are defined among some mentions. -/
def timesDefined (c : Context) (sym : String) (k : Multiset Mention) : Nat :=
  (definitions k).countP fun h => h.symbol = sym ∧ h.Active c

section
variable {c : Context} {sym : String} {k l : Multiset Mention} {h : FuncHead}

theorem timesDefined_add (c : Context) (sym : String) (k l : Multiset Mention) :
    timesDefined c sym (k + l) = timesDefined c sym k + timesDefined c sym l := by
  rw [timesDefined, definitions_add, Multiset.countP_add]
  rfl

theorem timesDefined_le (h : k ≤ l) : timesDefined c sym k ≤ timesDefined c sym l := by
  obtain ⟨d, rfl⟩ := Multiset.le_iff_exists_add.mp h
  rw [timesDefined_add]
  omega

theorem timesDefined_definition (hs : h.symbol = sym) (active : h.Active c) :
    timesDefined c sym {.definition h} = 1 := by
  have one : definitions {.definition h} = {h} := rfl
  rw [timesDefined, one, ← Multiset.cons_zero, Multiset.countP_cons_of_pos _ ⟨hs, active⟩,
    Multiset.countP_zero]

end

/-- A variable of this name is defined so that it may become a global, and a global has the name. -/
def TakenByGlobal (c : Context) (decls : List Node) (sym : String) (s : State) : Prop :=
  (∃ d, .varDecl d ∈ Node.partsAll decls ∧ d.name = sym ∧ d.MayBeGlobal c) ∧
    sym ∈ s.module.globals.toList.map Ir.Global.name

namespace Lower

/-- While the mentions `k` of the unit are to come, a function that took the symbol was one of its
    other definitions, and nothing else asked for the name but a global. -/
structure Enrolled (c : Context) (decls : List Node) (sym : String) (k : Multiset Mention)
    (s : State) : Prop where
  within : timesDefined c sym k ≤ timesDefined c sym (Node.total (Node.partsAll decls))
  symbol : (s.symbols.lookup sym).isSome →
    timesDefined c sym k < timesDefined c sym (Node.total (Node.partsAll decls))
  asked : 0 < timesAsked s.names sym →
    (s.symbols.lookup sym).isSome ∨ TakenByGlobal c decls sym s

/-- A fault for the redeclared symbol is due to two definitions of it, or to a global. -/
def Explains (c : Context) (decls : List Node) (sym : String) (f : Fault) (s : State) : Prop :=
  ∀ pos, f = .rejected pos (.redeclared sym) →
    2 ≤ timesDefined c sym (Node.total (Node.partsAll decls)) ∨ TakenByGlobal c decls sym s

variable {c : Context} {decls : List Node} {sym : String} {k l : Multiset Mention} {s s' : State}

theorem explains_of_isOrdinary {f : Fault} (h : f.IsOrdinary) : Explains c decls sym f s := by
  rintro pos rfl
  cases h

theorem addGlobal_names {name : String} {content : Ir.Ty} {g : Ir.GlobalId}
    (hr : addGlobal name content s = .ok g s') :
    s'.symbols = s.symbols ∧ s'.names = (name, timesAsked s.names name + 1) :: s.names ∧
      s'.module.globals.toList.map Ir.Global.name =
        s.module.globals.toList.map Ir.Global.name ++
          [nthName name (timesAsked s.names name)] := by
  cases hr
  refine ⟨rfl, rfl, ?_⟩
  rw [Array.toList_push, List.map_append]
  rfl

namespace Enrolled

theorem less (h : Enrolled c decls sym l s) (hle : k ≤ l) : Enrolled c decls sym k s :=
  ⟨(timesDefined_le hle).trans h.within, fun hs => (timesDefined_le hle).trans_lt (h.symbol hs),
    h.asked⟩

/-- Steps that leave the symbol alone, and the name among those of globals. -/
theorem keep (h : Enrolled c decls sym k s)
    (hs : s'.symbols.lookup sym = s.symbols.lookup sym)
    (hn : timesAsked s'.names sym = timesAsked s.names sym)
    (hg : sym ∈ s.module.globals.toList.map Ir.Global.name →
      sym ∈ s'.module.globals.toList.map Ir.Global.name) : Enrolled c decls sym k s' where
  within := h.within
  symbol := by
    rw [hs]
    exact h.symbol
  asked := by
    rw [hs, hn]
    exact fun ha => (h.asked ha).imp_right fun taken => ⟨taken.1, hg taken.2⟩

/-- A global of another name. -/
theorem addGlobal_ne {name : String} (hne : name ≠ sym) (content : Ir.Ty) :
    Always (Preserves (Enrolled c decls sym k)) (addGlobal name content) := by
  intro s g s' hr h
  obtain ⟨hs, hn, hg⟩ := addGlobal_names hr
  refine h.keep (by rw [hs]) ?_ fun hmem => ?_
  · rw [hn, timesAsked_cons, if_neg hne.symm]
  · rw [hg]
    exact List.mem_append_left _ hmem

/-- A global that a variable of the unit becomes: the first to ask for a name gets it. -/
theorem addGlobal_varDecl {d : VarDecl} (hd : .varDecl d ∈ Node.partsAll decls)
    (hm : d.MayBeGlobal c) (content : Ir.Ty) :
    Always (Preserves (Enrolled c decls sym k)) (addGlobal d.name content) := by
  by_cases hname : d.name = sym
  · intro s g s' hr h
    obtain ⟨hs, hn, hg⟩ := addGlobal_names hr
    refine ⟨h.within, by rw [hs]; exact h.symbol, fun _ => ?_⟩
    rw [hs]
    rcases Nat.eq_zero_or_pos (timesAsked s.names sym) with zero | pos
    · refine .inr ⟨⟨d, hd, hname, hm⟩, ?_⟩
      rw [hg, hname, zero]
      exact List.mem_append_right _ (List.mem_singleton.mpr rfl)
    · refine (h.asked pos).imp_right fun taken => ⟨taken.1, ?_⟩
      rw [hg]
      exact List.mem_append_left _ taken.2
  · exact addGlobal_ne hname content

end Enrolled

/-! ## Expressions and bodies -/

theorem Enrolled.tolerant (hb : sym ∉ bufferNames) (k : Multiset Mention) :
    Tolerant c (Preserves (Enrolled c decls sym k)) where
  body _ _ h := h.keep rfl rfl id
  buffer name hn content :=
    Enrolled.addGlobal_ne (fun he : name = sym => hb (he ▸ hn)) content
  content g _ hf := .modify' fun s h => h.keep rfl rfl fun hg => by
    rwa [map_name_modify hf]
  intern _ _ h := h.keep rfl rfl id
  copy := by
    intro s v s' hs h
    unfold copyIntrinsic at hs
    rw [get_bind_apply] at hs
    cases hn : s.memcpy with
    | none =>
      simp only [hn] at hs
      cases hs
      exact h.keep rfl rfl id
    | some id =>
      simp only [hn, pure_eq_ok] at hs
      obtain ⟨-, rfl⟩ := hs
      exact h
  instructionType := by
    refine always_instructionType (fun _ _ h => h.keep rfl rfl id) ?_ ?_
    · intro _ o _ s t s' hr h
      cases hr
      exact h.keep rfl rfl id
    · intro t ts
      unfold setFields
      split
      · exact .modify' fun _ h => h.keep rfl rfl id
      · exact .pure' _

theorem encloses_enrolled (c : Context) (decls : List Node) (hb : sym ∉ bufferNames) :
    Encloses c (Enrolled c decls sym) (Explains c decls sym) where
  less hle h := h.less hle
  ordinary _ _ h := explains_of_isOrdinary h
  tolerant := Enrolled.tolerant hb
  unbound _ _ _ _ := fun _ hf => nomatch hf
  bind _ _ h := h.keep rfl rfl id
  report _ h := h.keep rfl rfl id
  install _ h := h.keep rfl rfl id

/-! ## Prototypes -/

/-- A symbol is refused if a function has it or something asked for the name. -/
theorem declareSymbol_taken {h : FuncHead} {hasBody : Bool} {result : Ir.Ty} {params : List Ir.Ty}
    {f : Fault} (hr : declareSymbol h hasBody result params s = .error f s') :
    s' = s ∧ f = .rejected h.site.position (.redeclared h.symbol) ∧
      ((s.symbols.lookup h.symbol).isSome ∨ 0 < timesAsked s.names h.symbol) := by
  have hf := declareSymbol_eq_error hr
  unfold declareSymbol at hr
  rw [get_bind_apply] at hr
  cases hl : s.symbols.lookup h.symbol with
  | none =>
    simp only [hl] at hr
    split at hr
    · rename_i pos
      exact ⟨(reject_eq_error.mp hr).2.symm, hf, .inr pos⟩
    · cases hr
  | some id =>
    simp only [hl] at hr
    split at hr
    · exact ⟨(reject_eq_error.mp hr).2.symm, hf, .inl rfl⟩
    · cases hr

/-- A definition is counted off when its symbol is declared. If the symbol is taken by a function,
    that was another definition. -/
theorem guards_declareSymbol {h : FuncHead} (active : h.Active c) (hasBody : Bool)
    (result : Ir.Ty) (params : List Ir.Ty) :
    Guards (Enrolled c decls sym) (Explains c decls sym) {.definition h}
      (declareSymbol h hasBody result params) := by
  intro k s hs
  have here : h.symbol = sym → timesDefined c sym ({.definition h} + k) =
      1 + timesDefined c sym k := fun he => by
    rw [timesDefined_add, timesDefined_definition he active]
  have rest : Enrolled c decls sym k s := hs.less (Multiset.le_add_left _ _)
  refine ⟨fun id s' hr => ?_, fun f s' hr => ?_⟩
  · rcases declareSymbol_eq_ok hr with ⟨-, -, fn, hname, -, -, rfl⟩ | ⟨-, -, rfl⟩
    · by_cases he : h.symbol = sym
      · have fits := hs.within
        rw [here he] at fits
        have found : ((s.declare fn).symbols.lookup sym).isSome := by
          rw [State.declare, hname, he, List.lookup_cons_self]
          rfl
        exact ⟨rest.within, fun _ => by omega, fun _ => .inl found⟩
      · have other : sym ≠ fn.name := fun hn => he (by rw [hn, hname])
        refine rest.keep ?_ ?_ fun hg => hg
        · exact lookup_cons_of_ne other _ _
        · exact (timesAsked_cons _ _ _ _).trans (if_neg other)
    · exact rest
  · obtain ⟨rfl, rfl, taken⟩ := declareSymbol_taken hr
    intro pos hf
    have he : h.symbol = sym := by
      cases hf
      rfl
    rw [he] at taken
    have byFunction : (s'.symbols.lookup sym).isSome →
        2 ≤ timesDefined c sym (Node.total (Node.partsAll decls)) := by
      intro found
      have fewer := hs.symbol found
      rw [here he] at fewer
      omega
    rcases taken with found | asked
    · exact .inl (byFunction found)
    · exact (hs.asked asked).imp_left byFunction

theorem guards_enterPrototype (hb : sym ∉ bufferNames) (h : FuncHead) (body : Block) :
    Guards (Enrolled c decls sym) (Explains c decls sym) {.definition h}
      (enterPrototype c h body) := by
  have o := encloses_enrolled c decls hb
  have noted : ∀ f, Guards (Enrolled c decls sym) (Explains c decls sym) 0 (notePrototype h f) :=
    fun f => o.plain (.modify' fun _ => rfl) fun _ => .modify' fun _ hs => hs.keep rfl rfl id
  have declare : h.Active c → ∀ v sig, Guards (Enrolled c decls sym) (Explains c decls sym)
      {.definition h} (declarePrototype c h body v sig) := by
    intro active v sig
    refine .ite' (o.fails (.reject_bind rfl) (by simp)) (.quiet_bind ?_ fun types => ?_)
    · exact o.step (plain_instructionSignature _ _ _) fun t => t.touches.instructionSignature _ _
    · exact .bind_quiet (guards_declareSymbol active _ _ _) fun id => .quiet_bind (noted _)
        fun _ => .get_bind fun _ => .quiet_bind (o.bindVariable _ _) fun _ => o.reports _
  intro k
  refine .bind_at (fun s hs f s' hr => o.fault (plain_signatureOf c h) hs hr) ?_
  intro s sig s₁ hs hsig
  obtain ⟨rfl, htype⟩ := signatureOf_eq_ok hsig
  have from_s : ∀ {m : Lower Unit}, Guards (Enrolled c decls sym) (Explains c decls sym)
      {.definition h} m → Passes (· = s₁) (Enrolled c decls sym k) (Explains c decls sym) m :=
    fun hm => (hm k).mono (fun _ he => he ▸ hs) fun _ hk => hk
  refine .ite' (fun _ => from_s ?_) fun hactive => from_s ?_
  · exact o.mono (.quiet_bind (noted _) fun _ => o.reports _) (Multiset.zero_le _)
  · simp only [Bool.or_eq_true, not_or, Bool.not_eq_true] at hactive
    have active : h.Active c := ⟨hactive.2, _, _, hactive.1 ▸ htype⟩
    refine .quiet_bind (o.variableAt _ _) fun v => .ite' (.ite' ?_ ?_) (declare active v sig)
    · exact o.fails (.reject_bind rfl) (by simp)
    · exact .quiet_bind (o.reports _) fun _ => declare active v sig

/-! ## Declarations in order -/

end Lower

/-- What a declaration mentions in its turn; the prototype of a function was entered before. -/
def Node.inTurn (n : Node) : Multiset Mention :=
  match n.unwrap with
  | .funcDecl _ body => total body.parts
  | _ => total n.parts

def Node.inTurnWhere (keep : Node → Bool) : List Node → Multiset Mention
  | [] => 0
  | n :: ns => (if keep n then n.inTurn else 0) + inTurnWhere keep ns

theorem Node.total_unwrap_le (n : Node) : total n.unwrap.parts ≤ total n.parts := by
  fun_induction unwrap n with
  | case1 site label x ih =>
    rw [parts, total_cons]
    exact ih.trans (Multiset.le_add_left _ _)
  | case2 n _ => exact le_refl _

theorem Node.definition_add_inTurn_le {n : Node} {h : FuncHead} {body : Block}
    (hn : n.unwrap = .funcDecl h body) : {.definition h} + n.inTurn ≤ total n.parts := by
  have inside := n.total_unwrap_le
  rw [hn, parts, total_cons] at inside
  rw [inTurn, hn]
  exact inside

/-- Prototypes, leading variables and the declarations in their turn meet each mention once. -/
theorem emissionOrder_definitions_le (a : Analysis) (inSpace : Bool) (decls : List Node) :
    ((emissionOrder a inSpace decls).funcs.map fun p => {Mention.definition p.1}).sum +
      ((emissionOrder a inSpace decls).mentions +
        Node.inTurnWhere (takesTurn a inSpace) decls) ≤ Node.total (Node.partsAll decls) := by
  induction decls with
  | nil => exact le_refl _
  | cons n ns ih =>
    change (((emissionOrder a inSpace ns).push (classify a inSpace n)).funcs.map _).sum +
      (((emissionOrder a inSpace ns).push (classify a inSpace n)).mentions + _) ≤ _
    rw [Node.inTurnWhere, Node.partsAll, Node.total_append]
    have met : ∀ {l}, l ≤ Node.total n.parts →
        l + (((emissionOrder a inSpace ns).funcs.map fun p => {Mention.definition p.1}).sum +
          ((emissionOrder a inSpace ns).mentions +
            Node.inTurnWhere (takesTurn a inSpace) ns)) ≤
          Node.total n.parts + Node.total (Node.partsAll ns) := fun hl => add_le_add hl ih
    cases hc : classify a inSpace n with
    | const d =>
      rw [if_neg (by simp [takesTurn, hc])]
      refine le_trans (le_of_eq ?_) (met (Node.mentions_le_total (unwrap_of_classify (.inl hc))))
      simp only [EmissionOrder.push, EmissionOrder.mentions, List.map_cons, List.sum_cons]
      abel
    | global d =>
      rw [if_neg (by simp [takesTurn, hc])]
      refine le_trans (le_of_eq ?_) (met (Node.mentions_le_total (unwrap_of_classify (.inr hc))))
      simp only [EmissionOrder.push, EmissionOrder.mentions, List.map_cons, List.sum_cons]
      abel
    | func h body =>
      have both := Node.definition_add_inTurn_le (classify_eq_func.mp hc)
      have turn : (if takesTurn a inSpace n = true then n.inTurn else 0) ≤ n.inTurn := by
        split
        · exact le_refl _
        · exact Multiset.zero_le _
      refine le_trans (le_of_eq ?_) (met ((add_le_add_right turn _).trans both))
      simp only [EmissionOrder.push, EmissionOrder.mentions, List.map_cons, List.sum_cons]
      abel
    | other m =>
      have turn : (if takesTurn a inSpace n = true then n.inTurn else 0) ≤
          Node.total n.parts := by
        split
        · rw [Node.inTurn]
          split
          · rename_i hn
            rw [classify_eq_func.mpr hn] at hc
            cases hc
          · exact le_refl _
        · exact Multiset.zero_le _
      refine le_trans (le_of_eq ?_) (met turn)
      simp only [EmissionOrder.push, EmissionOrder.mentions]
      abel

namespace Lower

/-- The functions among declarations are noted. -/
def Noted (ns : List Node) (s : State) : Prop :=
  ∀ n ∈ ns, ∀ h body, n.unwrap = .funcDecl h body → (s.prototypes.lookup h.site.id).isSome

theorem preserves_noted {m : Lower Unit} (ns : List Node)
    (hm : ∀ key, Always (Preserves fun s => (s.prototypes.lookup key).isSome) m) :
    Always (Preserves (Noted ns)) m :=
  fun s u s' hr noted n hn h body he => hm h.site.id s u s' hr (noted n hn h body he)

theorem Passes.keeping {α : Type} {P R T : State → Prop} {Q : Fault → State → Prop} {m : Lower α}
    (h : Passes P R Q m) (ht : Always (Preserves T) m) :
    Passes (fun s => P s ∧ T s) (fun s => R s ∧ T s) Q m := fun s hs =>
  ⟨fun a s' hr => ⟨(h s hs.1).1 a s' hr, ht s a s' hr hs.2⟩, (h s hs.1).2⟩

/-- A function that is noted when its turn comes: only its body is lowered. -/
theorem passes_notedFunc (hb : sym ∉ bufferNames) {h : FuncHead} {body : Block}
    (inner : Guards (Enrolled c decls sym) (Explains c decls sym) l (blockStatements c body))
    (k : Multiset Mention) :
    Passes (fun s => Enrolled c decls sym (l + k) s ∧ (s.prototypes.lookup h.site.id).isSome)
      (Enrolled c decls sym k) (Explains c decls sym)
      (fillBody c h body (blockStatements c body)) :=
  (encloses_enrolled c decls hb).fillBody h body inner
    (fun hs => hs.less (Multiset.le_add_left _ _)) (fun _ _ _ => fun _ hf => nomatch hf)
    (fun _ _ => fun _ hf => nomatch hf) fun id exported hs => by
      cases exported
      · exact hs.keep rfl rfl fun hg => hg
      · exact hs.keep rfl rfl fun hg => hg

theorem guards_funcDecl (hb : sym ∉ bufferNames) (h : FuncHead) (body : Block)
    (inner : Guards (Enrolled c decls sym) (Explains c decls sym) l (blockStatements c body)) :
    Guards (Enrolled c decls sym) (Explains c decls sym) ({.definition h} + l)
      (statement c (.funcDecl h body)) := by
  have o := encloses_enrolled c decls hb
  unfold statement
  refine o.whenLive fun k => ?_
  rw [add_assoc]
  have enter : Guards (Enrolled c decls sym) (Explains c decls sym) {.definition h}
      (enterPrototype c h body) := guards_enterPrototype hb h body
  refine .get_bind fun s hs => .ite' (fun _ => ?_) fun hnoted => ?_
  · refine .bind_at (fun _ he f s' hr => ?_) fun _ _ s₁ he hr => ?_
    · exact (enter _ s hs).2 f s' (he ▸ hr)
    · have entered := (enter _ s hs).1 () s₁ (he ▸ hr)
      exact (passes_notedFunc hb inner k).mono
        (fun _ he => he ▸ ⟨entered, enterPrototype_notes hr⟩) fun _ hk => hk
  · have noted : (s.prototypes.lookup h.site.id).isSome := by
      simpa [Option.isSome_iff_ne_none] using hnoted
    exact (passes_notedFunc hb inner k).mono
      (fun _ he => he ▸ ⟨hs.less (Multiset.le_add_left _ _), noted⟩) fun _ hk => hk

/-- A declaration in its turn, after all functions were noted. -/
theorem passes_inTurn (hb : sym ∉ bufferNames) {n : Node} {ns : List Node} (hn : n ∈ ns)
    (each : Surveyed c (Enrolled c decls sym) (Explains c decls sym) n) (k : Multiset Mention) :
    Passes (fun s => Enrolled c decls sym (n.inTurn + k) s ∧ Noted ns s)
      (fun s => Enrolled c decls sym k s ∧ Noted ns s) (Explains c decls sym)
      (statement c n) := by
  have noted : Always (Preserves (Noted ns)) (statement c n) := preserves_noted ns fun key =>
    ((upholds_noted c key).completes.walks.statement n fun _ _ => trivial).of_live
      (realizes_statement c n)
  have enrolled : Passes (fun s => Enrolled c decls sym (n.inTurn + k) s ∧ Noted ns s)
      (Enrolled c decls sym k) (Explains c decls sym) (statement c n) := by
    unfold Node.inTurn
    split
    · rename_i h body he
      rw [← statement_unwrap, he]
      unfold statement
      refine .get_bind fun s hs => .ite' (fun _ => .get_bind ?_) fun _ => ?_
      · rintro _ rfl
        have found := hs.2 n hn h body he
        rw [if_neg (by simpa [Option.isSome_iff_ne_none] using found)]
        exact (passes_notedFunc hb (each.body h body he) k).mono
          (fun _ he => he ▸ ⟨hs.1, found⟩) fun _ hk => hk
      · exact .pure' (fun _ he => he ▸ hs.1.less (Multiset.le_add_left _ _)) _
    · exact (each.statement k).mono (fun _ hs => hs.1) fun _ hk => hk
  exact (enrolled.keeping noted).mono (fun _ hs => ⟨hs, hs.2⟩) fun _ hs => hs

theorem passes_inTurnWhere (hb : sym ∉ bufferNames) (keep : Node → Bool) {ns all : List Node}
    (sub : ∀ n ∈ ns, n ∈ all)
    (each : ∀ n ∈ ns, Surveyed c (Enrolled c decls sym) (Explains c decls sym) n)
    (k : Multiset Mention) :
    Passes (fun s => Enrolled c decls sym (Node.inTurnWhere keep ns + k) s ∧ Noted all s)
      (Enrolled c decls sym k) (Explains c decls sym) (statementsWhere c keep ns) := by
  induction ns with
  | nil =>
    unfold statementsWhere
    exact .pure' (fun _ hs => by simpa [Node.inTurnWhere] using hs.1) _
  | cons n ns ih =>
    have rest := ih (fun m hm => sub m (List.mem_cons_of_mem _ hm)) fun m hm =>
      each m (List.mem_cons_of_mem _ hm)
    have first := passes_inTurn hb (sub n List.mem_cons_self) (each n List.mem_cons_self)
      (Node.inTurnWhere keep ns + k)
    unfold statementsWhere Node.inTurnWhere
    refine .ite' (fun hk => ?_) fun hk => ?_
    · rw [if_pos hk]
      simp only [add_assoc]
      exact first.bind' fun _ => rest
    · rw [if_neg hk, zero_add]
      exact rest

/-- Declarations of the unit in order: each definition is counted off once. -/
theorem guards_declarations (hb : sym ∉ bufferNames) (inSpace : Bool) {ns : List Node}
    (inside : ∀ m ∈ Node.partsAll ns, m ∈ Node.partsAll decls)
    (each : ∀ n ∈ ns, Surveyed c (Enrolled c decls sym) (Explains c decls sym) n) :
    Guards (Enrolled c decls sym) (Explains c decls sym) (Node.total (Node.partsAll ns)) (do
      emitLeading c (emissionOrder c.analysis inSpace ns)
      statementsWhere c (takesTurn c.analysis inSpace) ns) := by
  have o := encloses_enrolled c decls hb
  have define : ∀ d, (d ∈ (emissionOrder c.analysis inSpace ns).consts ∨
      d ∈ (emissionOrder c.analysis inSpace ns).globals) →
      Guards (Enrolled c decls sym) (Explains c decls sym) d.value.mentions
        (defineVariable c d) := by
    intro d hd
    obtain ⟨n, hn, he⟩ := mem_emissionOrder hd
    exact o.defineVariable d fun hm _ content =>
      Enrolled.addGlobal_varDecl (inside _ (he ▸ Node.unwrap_mem_partsAll hn)) hm content
  have prototypes : Guards (Enrolled c decls sym) (Explains c decls sym) _
      ((emissionOrder c.analysis inSpace ns).funcs.forM fun p =>
        enterPrototype c p.1 p.2) := .forM_sum fun p _ => guards_enterPrototype hb p.1 p.2
  have leading : Guards (Enrolled c decls sym) (Explains c decls sym)
      (emissionOrder c.analysis inSpace ns).mentions (do
        (emissionOrder c.analysis inSpace ns).consts.forM (defineVariable c)
        (emissionOrder c.analysis inSpace ns).globals.forM (defineVariable c)) :=
    .append (.forM_sum fun d hd => define d (.inl hd)) fun _ =>
      .forM_sum fun d hd => define d (.inr hd)
  have keeps : Always (Preserves (Noted ns)) (do
        (emissionOrder c.analysis inSpace ns).consts.forM (defineVariable c)
        (emissionOrder c.analysis inSpace ns).globals.forM (defineVariable c)) :=
    preserves_noted ns fun key => .bind'
      (.forM_mem fun d _ => (upholds_noted c key).varDecl d trivial) fun _ =>
        .forM_mem fun d _ => (upholds_noted c key).varDecl d trivial
  refine o.mono (fun k => ?_) (emissionOrder_definitions_le c.analysis inSpace ns)
  simp only [emitLeading, bind_assoc, add_assoc]
  refine .bind_at (fun s hs => (prototypes _ s hs).2) fun s _ s₁ hs hr => ?_
  have enrolled := (prototypes _ s hs).1 _ s₁ hr
  have noted : Noted ns s₁ := fun n hn h body he =>
    (prototypes_note hr _ (mem_funcs_emissionOrder.mpr ⟨n, hn, he⟩)).1
  rw [← bind_assoc]
  exact (((leading _).keeping keeps).bind' fun _ =>
    passes_inTurnWhere hb _ (fun _ hn => hn) each k).mono
      (fun _ he => he ▸ ⟨enrolled, noted⟩) fun _ hk => hk

theorem surveys_enrolled (c : Context) (decls : List Node) (hb : sym ∉ bufferNames) :
    Surveys c (· ∈ Node.partsAll decls) (Enrolled c decls sym) (Explains c decls sym) where
  toWatches := (encloses_enrolled c decls hb).toWatches
  varDecl d hd := (encloses_enrolled c decls hb).defineVariable d fun hm _ content =>
    Enrolled.addGlobal_varDecl hd hm content
  funcDecl h body _ inner := guards_funcDecl hb h body inner
  space site name inner inside each := by
    have o := encloses_enrolled c decls hb
    unfold statement
    exact o.whenLive (.quiet_bind (o.reports _) fun _ => guards_declarations hb true inside each)

/-- A unit that fails for a redeclared function defines it twice, or has a global of this name. -/
theorem wholeUnit_explains (hb : sym ∉ bufferNames) (hi : sym ≠ Abi.initFunction)
    (hs : s.symbols = []) (hn : s.names = []) {f : Fault}
    (h : wholeUnit c decls s = .error f s') : Explains c decls sym f s' := by
  obtain ⟨trace, h⟩ := wholeUnit_eq_error h
  have o := surveys_enrolled c decls hb
  have each := o.eachStatement decls fun _ hm => hm
  have declarations := guards_declarations hb false (fun _ hm => hm) each 0
  rw [add_zero] at declarations
  have other : sym ≠ (initFunction c.config).name := by
    rw [initFunction_name]
    exact hi
  have start : Enrolled c decls sym (Node.total (Node.partsAll decls)) s := by
    refine ⟨le_refl _, fun found => ?_, fun asked => ?_⟩
    · rw [hs] at found
      cases found
    · rw [hn] at asked
      exact absurd asked (lt_irrefl 0)
  refine o.unitCode declarations (fun _ _ _ _ _ _ hf => nomatch hf) ?_ h
  exact start.keep (lookup_cons_of_ne other _ _) ((timesAsked_cons _ _ _ _).trans (if_neg other))
    fun hg => hg

end Lower

/-! ## Units -/

/-- The active functions with a symbol that are defined in a unit, one for each place. -/
def declarersOf (c : Context) (decls : List Node) (sym : String) : List FuncHead :=
  ((Node.partsAll decls).filterMap Node.definition?).filter fun h => h.symbol = sym ∧ h.Active c

theorem length_declarersOf (c : Context) (decls : List Node) (sym : String) :
    (declarersOf c decls sym).length = timesDefined c sym (Node.total (Node.partsAll decls)) := by
  rw [timesDefined, definitions_total, Multiset.coe_countP, List.countP_eq_length_filter]
  rfl

/-- A unit that fails because a function is redeclared does declare the symbol more than once,
    unless the symbol has the name of a literal's buffer: it is that of the init function, two
    definitions of active functions have it, or a variable of this name was made a global. -/
theorem redeclared_twice (analysis : Analysis) (config : Config) (decls : List Node)
    (pos : Position) (sym : String) (hb : sym ∉ bufferNames)
    (h : (lowerUnit analysis config decls).result =
      .error (.fault (.rejected pos (.redeclared sym)))) :
    sym = Abi.initFunction ∨ 2 ≤ (declarersOf ⟨analysis, config⟩ decls sym).length ∨
      ∃ s, wholeUnit ⟨analysis, config⟩ decls { module := { triple := config.triple } } =
          .error (.rejected pos (.redeclared sym)) s ∧
        (∃ d, .varDecl d ∈ Node.partsAll decls ∧ d.name = sym ∧
          d.MayBeGlobal ⟨analysis, config⟩) ∧
        ∃ g ∈ s.module.globals, g.name = sym := by
  by_cases hi : sym = Abi.initFunction
  · exact .inl hi
  · obtain ⟨s, hs⟩ := lowerUnit_eq_fault h
    have explained := wholeUnit_explains hb hi rfl rfl hs pos rfl
    refine .inr (explained.imp (fun twice => ?_) fun taken => ?_)
    · rwa [length_declarersOf]
    · obtain ⟨g, hg, hname⟩ := List.mem_map.mp taken.2
      exact ⟨s, hs, taken.1, g, Array.mem_toList_iff.mp hg, hname⟩

/-- The function `outer`, in which a function `inner` with a body gets its symbol. -/
def clashUnit : List Node :=
  [.funcDecl outerHead (.mk { id := 2 }
    [.funcDecl { aliasHead with isExternal := false } (.mk { id := 4 } [])])]

theorem redeclared_twice_clashUnit :
    "outer" ∉ bufferNames ∧ (lowerUnit aliasFunctions {} clashUnit).result =
        .error (.fault (.rejected {} (.redeclared "outer"))) ∧
      2 ≤ (declarersOf ⟨aliasFunctions, {}⟩ clashUnit "outer").length := by
  have other : "outer" ∉ bufferNames := by decide
  have failed : (lowerUnit aliasFunctions {} clashUnit).result =
      .error (.fault (.rejected {} (.redeclared "outer"))) :=
    Outcome.result_of_fault? (by decide +kernel)
  refine ⟨other, failed, ?_⟩
  rcases redeclared_twice aliasFunctions {} clashUnit {} "outer" other failed with
    reserved | twice | ⟨_, -, ⟨d, hd, -⟩, -⟩
  · exact absurd reserved (by decide)
  · exact twice
  · simp [clashUnit, Node.partsAll, Node.parts, Block.parts] at hd

/-- A string `s` at top level, and a function `str`. -/
def stringAnalysis : Analysis where
  store :=
    { scopes := #[{ bindings := [("s", 0), ("str", 1)] }]
      objects := #[
        { name := "s", type := .string, kind := .variable { isGlobal := true } },
        { name := "str", type := .func [] .missing false, kind := .variable {} }] }
  facts := {}

/-- The string, then the function in a namespace. -/
def stringUnit : List Node :=
  [.varDecl
      { site := { id := 1 }, token := .known .varWord, name := "s"
        value := .stringLit { id := 2 } [97] },
    .space { id := 3 } "N" [.funcDecl { site := { id := 4 }, name := "str" } (.mk { id := 5 } [])]]

/-- The name of a literal's data makes a function redeclared that is defined once. -/
theorem redeclared_spurious :
    (lowerUnit stringAnalysis {} stringUnit).result =
        .error (.fault (.rejected {} (.redeclared "str"))) ∧
      "str" ≠ Abi.initFunction ∧
      ((Node.partsAll stringUnit).filterMap Node.definition?).length = 1 ∧
      ∀ d, .varDecl d ∈ Node.partsAll stringUnit → d.name ≠ "str" := by
  refine ⟨Outcome.result_of_fault? (by decide +kernel), by decide, rfl, fun d hd => ?_⟩
  simp only [stringUnit, Node.partsAll, Node.parts, Block.parts, List.mem_cons, List.append_nil,
    List.nil_append, List.cons_append, List.not_mem_nil, Node.varDecl.injEq, reduceCtorEq,
    or_false] at hd
  rw [hd]
  decide

end TreeLowering
