import TreeLowering.Proofs.Walk

/-!
The statements of a unit, for relations that do not look at the body. Conditionals, loops and jumps
change only the body, so what is left to say about a relation is what it makes of definitions:
variables, functions and namespaces (`Handles`). Each of these is met among the parts of the unit,
so `Handles` may ask what its nodes are. An invariant that functions and globals keep when they are
declared holds of whole units (`Upholds`).
-/
namespace TreeLowering

namespace Lower

variable {r : State → State → Prop} [Lasting r] {c : Context}

/-! ## Steps of definitions -/

namespace Touches

variable (t : Touches c r)

include t

theorem closeBody : Always r (closeBody c) :=
  .get_bind fun _ => .ite' (.ite' (t.terminate _) (t.terminate _)) (.pure' _)

theorem enterStruct (d : StructDecl) : Always r (enterStruct c d) := by
  unfold Lower.enterStruct
  split
  · exact .pure' _
  · exact .pure' _
  · exact .discard' (t.instructionType _)

theorem runEntry (funcs : List (FuncHead × Block)) : Always r (runEntry c funcs) := by
  refine .bind' (.of_asks (asks_entryFunc c funcs)) fun found => ?_
  split
  · exact .pure' _
  · exact .get_bind fun _ => .ite' (.discard' (t.instruction _ _)) (.reject' _ _)

/-- A prototype is noted, or a function declared for a symbol and bound to its variable. -/
theorem enterPrototype {h : FuncHead} {body : Block}
    (note : ∀ (s : State) prototypes, r s { s with prototypes })
    (bind : ∀ (s : State) values, r s { s with values })
    (report : ∀ (s : State) trace, r s { s with trace })
    (symbol : ∀ hasBody result params, Always r (declareSymbol h hasBody result params)) :
    Always r (enterPrototype c h body) := by
  have noted : ∀ f, Always r (notePrototype h f) := fun f => .modify' fun s => note s _
  have reported : ∀ e, Always r (Lower.report e) := fun e => .modify' fun s => report s _
  have declare : ∀ v sig, Always r (declarePrototype c h body v sig) := by
    intro v sig
    refine .ite' .reject_bind (.bind' (t.instructionSignature _ _) fun types => ?_)
    exact .bind' (symbol _ _ _) fun id => .bind' (noted _) fun _ => .get_bind fun s =>
      .bind' (.modify' fun s => bind s _) fun _ => reported _
  refine .bind' (.of_asks (asks_signatureOf c h)) fun sig => .ite' ?_ ?_
  · exact .bind' (noted _) fun _ => reported _
  · refine .bind' (.of_asks (asks_variableAt c _ _)) fun v => .ite' ?_ (declare v sig)
    exact .ite' .reject_bind (.bind' (reported _) fun _ => declare v sig)

end Touches

theorem always_storeParams (slot : ∀ type count, Always r (stackSlot type count))
    (store : ∀ value place, Always r (storeAt .vars value place))
    (bind : ∀ (s : State) values, r s { s with values }) (fn : Ir.FuncId) (site : Site) :
    ∀ (i : Nat) (params : List (String × Ir.Ty)), Always r (storeParams c fn site i params)
  | _, [] => .pure' _
  | i, (_, _) :: rest =>
    .bind' (.of_asks (asks_variableAt c _ _)) fun _ => .bind' (slot _ _) fun _ =>
      .bind' (store _ _) fun _ => .bind' (.modify' fun s => bind s _) fun _ =>
        always_storeParams slot store bind fn site (i + 1) rest

/-- The steps inside a body, labelled by those that lower its statements. -/
theorem live_bodySteps {ε : Type} {R : List ε → State → State → Prop} [Recording R] {l : List ε}
    {id : Ir.FuncId} {site : Site} {params : List (String × Ir.Ty)} {step : Lower Unit}
    (hp : Always (Quiet R) (storeParams c id site 0 params)) (hs : Always (Live R l) step)
    (hc : Always (Quiet R) (closeBody c)) :
    Always (Live R l) (bodySteps c id site params step) := by
  refine .append_live (l := []) (Always.live hp) ?_ fun _ => .live_bind_quiet hs fun _ => hc
  intro s u s' hl h
  obtain ⟨-, code, grows⟩ := lays_storeParams c id site 0 params s u s' h
  exact grows.live hl

end Lower

theorem Expr.eq_absent : ∀ e : Expr, e.isAbsent = true → e = .absent
  | .absent, _ => rfl

namespace Lower

variable {r : State → State → Prop} [Lasting r] {c : Context}

namespace Records

variable {R : List Literal → State → State → Prop} [Recording R] (t : Records c R)

include t

theorem leave (halt : Always (Quiet R) moveNowhere) (site : Site) (result : Expr) :
    Always (R result.literals) (leave c site result) := by
  have ret : ∀ value, Always (Quiet R) (terminate (.ret value) >>= fun _ => moveNowhere) :=
    fun _ => .bind' (t.terminate _) fun _ => halt
  refine .get_bind fun s => ?_
  dsimp only
  cases s.body.head with
  | none => exact .reject' _ _
  | some h =>
    dsimp only
    by_cases ha : result.isAbsent = true
    · rw [if_pos ha, result.eq_absent ha]
      exact .ite' (r := Quiet R) (ret none) .reject_bind
    · rw [if_neg ha]
      exact .ite' .reject_bind (.bind_quiet (t.valueAs _ _) fun v => ret (some v))

/-- A variable is a global or a slot, with the value of its initializer. -/
theorem defineVariable {d : VarDecl} (bind : ∀ (s : State) values, R [] s { s with values })
    (global : ∀ v type, Always (R d.value.literals) (defineGlobal c d v type)) :
    Always (R d.value.literals) (defineVariable c d) := by
  have defineLocal : ∀ v type, Always (R d.value.literals) (defineLocal c d v type) := by
    intro v type
    have rest : ∀ init, Always (Quiet R) (do
        let slot ← stackSlot type none
        store init slot
        bindVariable v slot) := fun init =>
      .bind' (t.slot _ _) fun _ => .bind' (t.store _ _) fun _ => .modify' fun s => bind s _
    unfold Lower.defineLocal
    by_cases ha : d.value.isAbsent = true
    · rw [if_pos ha, d.value.eq_absent ha]
      exact .bind' (r := Quiet R) (.pure' _) rest
    · rw [if_neg ha]
      exact .bind_quiet (t.valueAs _ _) rest
  refine .quiet_bind (.of_asks (asks_variableAt c _ _)) fun v => .ite' (.reject' _ _) ?_
  refine .quiet_bind (t.instructionType _) fun type => .ite' (global v type) ?_
  exact .quiet_bind (.of_asks (asks_isLocal c _)) fun _ =>
    .ite' (defineLocal v type) (global v type)

end Records

theorem Tolerant.defineVariable {d : VarDecl} (t : Tolerant c r)
    (bind : ∀ (s : State) values, r s { s with values })
    (global : ∀ content, Always r (addGlobal d.name content)) :
    Always r (defineVariable c d) := by
  have bound : ∀ v x, Always r (bindVariable v x) := fun v x => .modify' fun s => bind s _
  refine t.records.defineVariable bind fun v type => .bind' (global type) fun g =>
    .ite' (bound _ _) (.bind' (t.valueAs _ _) fun _ => .ite' ?_ ?_)
  · exact .bind' (t.content _ _ fun _ => rfl) fun _ => bound _ _
  · exact .bind' (t.touches.store _ _) fun _ => bound _ _

theorem Tolerant.storeParams (t : Tolerant c r) (bind : ∀ (s : State) values, r s { s with values })
    (fn : Ir.FuncId) (site : Site) (i : Nat) (params : List (String × Ir.Ty)) :
    Always r (storeParams c fn site i params) :=
  always_storeParams t.touches.slot
    (always_storeAt fun _ _ _ => always_emitAt t.body .vars _ _) bind fn site i params

/-! ## Symbols -/

end Lower

namespace State

/-- The state after a prototype was noted. -/
def note (s : State) (key : NodeId) (f : Option Ir.FuncId) : State :=
  { s with prototypes := (key, f) :: s.prototypes }

/-- The state after a function was added under its symbol. -/
def declare (s : State) (f : Ir.Function) : State :=
  { s with
    module := { s.module with funcs := s.module.funcs.push f }
    symbols := (f.name, s.module.funcs.size) :: s.symbols
    names := (f.name, (s.names.lookup f.name).getD 0 + 1) :: s.names }

end State

namespace Lower

/-- A symbol is declared if its name is free; else a definition without a body shares it. -/
theorem declareSymbol_eq_ok {h : FuncHead} {hasBody : Bool} {result : Ir.Ty}
    {params : List Ir.Ty} {s s' : State} {id : Ir.FuncId}
    (hr : declareSymbol h hasBody result params s = .ok id s') :
    (s.symbols.lookup h.symbol = none ∧ (s.names.lookup h.symbol).getD 0 = 0 ∧
      ∃ f : Ir.Function, f.name = h.symbol ∧ f.blocks = [] ∧ id = s.module.funcs.size ∧
        s' = s.declare f) ∨
    (s.symbols.lookup h.symbol = some id ∧ hasBody = false ∧ s' = s) := by
  unfold declareSymbol at hr
  rw [get_bind_apply] at hr
  cases hl : s.symbols.lookup h.symbol with
  | none =>
    simp only [hl] at hr
    rcases ite_eq_ok.mp hr with ⟨-, hr⟩ | ⟨h0, hr⟩
    · simp at hr
    · cases hr
      exact .inl ⟨rfl, Nat.eq_zero_of_not_pos h0, _, rfl, rfl, rfl, rfl⟩
  | some id =>
    simp only [hl] at hr
    rcases ite_eq_ok.mp hr with ⟨-, hr⟩ | ⟨hb, hr⟩
    · simp at hr
    · obtain ⟨rfl, rfl⟩ := pure_eq_ok.mp hr
      simp only [Bool.or_eq_true, not_or, Bool.not_eq_true] at hb
      exact .inr ⟨rfl, hb.1, rfl⟩

/-- A unit is its top-level code in the body of the init function, which is declared first. -/
theorem wholeUnit_eq_ok {c : Context} {decls : List Node} {s s' : State} {u : Unit}
    (h : wholeUnit c decls s = .ok u s') :
    ∃ trace s₁, topLevel c decls
        ((State.declare { s with trace } (initFunction c.config)).setBody
          { fn := s.module.funcs.size }) = .ok () s₁ ∧ s' = s₁.install s.body := by
  unfold wholeUnit at h
  simp only [report_bind_apply] at h
  obtain ⟨init, s₁, h₁, h⟩ := bind_eq_ok.mp h
  obtain ⟨s₂, h₂, rfl⟩ := withBody_eq_ok h
  cases h₁
  exact ⟨_, s₂, h₂, rfl⟩

theorem initFunction_name (config : Config) : (initFunction config).name = Abi.initFunction := by
  unfold initFunction
  split <;> rfl

/-! ## Statements -/

variable {r : State → State → Prop} [Lasting r] {c : Context}

/-- A relation that a declaration keeps; if it is a function, its statements keep it too. -/
structure Handled (c : Context) (r : State → State → Prop) (n : Node) : Prop where
  statement : Always r (statement c n)
  body : ∀ h body, n.unwrap = .funcDecl h body → Always r (blockStatements c body)

/-- A relation that expressions keep, and that definitions among the nodes `U` keep. -/
structure Handles (c : Context) (U : Node → Prop) (r : State → State → Prop) : Prop
    extends Tolerant c r where
  varDecl : ∀ d, U (.varDecl d) → Always r (defineVariable c d)
  funcDecl : ∀ h body, U (.funcDecl h body) → Always r (blockStatements c body) →
    Always r (statement c (.funcDecl h body))
  space : ∀ site name decls, U (.space site name decls) → (∀ m ∈ Node.partsAll decls, U m) →
    (∀ n ∈ decls, Handled c r n) → Always r (statement c (.space site name decls))

theorem always_statementsWhere {ns : List Node} (h : ∀ n ∈ ns, Handled c r n)
    (keep : Node → Bool) : Always r (statementsWhere c keep ns) := by
  induction ns with
  | nil =>
    unfold statementsWhere
    exact .pure' _
  | cons n ns ih =>
    have rest := ih fun m hm => h m (List.mem_cons_of_mem _ hm)
    unfold statementsWhere
    apply Always.ite'
    · exact .bind' (h n List.mem_cons_self).statement fun _ => rest
    · exact rest

/-- Where there is no place for instructions, statements do nothing. -/
theorem Always.of_live {m : Lower Unit} {R : Reading} {l : List Empty}
    (h : Always (Live (fun _ => r) l) m) (hm : Realizes m R) : Always r m := by
  intro s u s' hs
  cases hc : s.body.cursor with
  | some label => exact h s u s' hs (by rw [hc]; rfl)
  | none =>
    cases hm.dead s u s' hs hc
    exact Lasting.refl s

/-- A relation that expressions and variables keep. -/
theorem Tolerant.steps {U : Node → Prop} (t : Tolerant c r)
    (varDecl : ∀ d, U (.varDecl d) → Always r (Lower.defineVariable c d)) :
    Steps c U (fun _ => ([] : List Empty)) fun _ => r where
  absent := rfl
  steer s b _ := t.body s b
  expression e _ := t.valueOf e
  condition _ _ e _ := .of_always (t.condition e) fun s b _ => t.body s b
  leave site e _ := t.records.leave (always_moveNowhere t.body) site e
  varDecl := varDecl
  structDecl d _ := t.touches.enterStruct d

namespace Handles

variable {U : Node → Prop} (t : Handles c U r)

include t

theorem walks : Walks c U (fun _ => ([] : List Empty)) fun _ => r where
  toSteps := t.toTolerant.steps t.varDecl
  funcDecl h body hn hb := t.funcDecl h body hn (hb.of_live (realizes_blockStatements c body))
  space site name decls hn inside hs := by
    refine (t.space site name decls hn inside fun n hm => ?_).live
    have walked := hs n hm
    exact ⟨walked.statement.of_live (realizes_statement c n),
      fun h body he => (walked.body h body he).of_live (realizes_blockStatements c body)⟩

theorem blockStatements (b : Block) (h : ∀ m ∈ b.parts, U m) :
    Always r (blockStatements c b) :=
  (t.walks.blockStatements b h).of_live (realizes_blockStatements c b)

theorem eachStatement (ns : List Node) (h : ∀ m ∈ Node.partsAll ns, U m) :
    ∀ n ∈ ns, Handled c r n := by
  intro n hn
  have walked := t.walks.eachStatement ns h n hn
  exact ⟨walked.statement.of_live (realizes_statement c n),
    fun h body he => (walked.body h body he).of_live (realizes_blockStatements c body)⟩

end Handles

/-! ## Invariants -/

/-- A step keeps a property of states. -/
def Preserves (P : State → Prop) (s s' : State) : Prop := P s → P s'

instance (P : State → Prop) : Lasting (Preserves P) where
  refl _ h := h
  trans h₁ h₂ h := h₂ (h₁ h)

/-- A property that expressions keep, that does not depend on the body, on variables or on reports,
    and that functions and globals of the nodes `U` keep when they are declared. -/
structure Upholds (c : Context) (U : Node → Prop) (P : State → Prop) : Prop
    extends Tolerant c (Preserves P) where
  values : ∀ (s : State) values, P s → P { s with values }
  trace : ∀ (s : State) trace, P s → P { s with trace }
  begin : ∀ s key id exported, P s → P (s.beginBody key id exported)
  install : ∀ s outer, P s → P (s.install outer)
  global : ∀ d, U (.varDecl d) → ∀ content, Always (Preserves P) (addGlobal d.name content)
  prototype : ∀ h body, U (.funcDecl h body) → Always (Preserves P) (enterPrototype c h body)

namespace Upholds

variable {U : Node → Prop} {P : State → Prop} (t : Upholds c U P)

include t

theorem varDecl (d : VarDecl) (hd : U (.varDecl d)) :
    Always (Preserves P) (Lower.defineVariable c d) :=
  t.toTolerant.defineVariable t.values (t.global d hd)

theorem fillBody (h : FuncHead) (body : Block) {step : Lower Unit}
    (hs : Always (Preserves P) step) : Always (Preserves P) (Lower.fillBody c h body step) := by
  intro s u s' hf hp
  rcases fillBody_eq_ok hf with
    rfl | ⟨params, result, id, site, types, exported, s₁, trace, -, -, -, -, hb, rfl⟩
  · exact hp
  · have steps : Always (Preserves P)
        (bodySteps c id site ((h.params.map Prod.fst).zip types) step) :=
      .bind' (t.toTolerant.storeParams t.values id site 0 _) fun _ =>
        .bind' hs fun _ => t.touches.closeBody
    have begun := t.begin s h.site.id id exported hp
    have done := steps _ _ _ hb (t.body _ _ begun)
    exact t.trace _ trace (t.install s₁ s.body done)

theorem completes : Completes c U (fun _ => ([] : List Empty)) fun _ => Preserves P :=
  { t.toTolerant.steps t.varDecl with
    report := t.trace
    prototype := t.prototype
    fillBody := fun h body _ hb =>
      t.fillBody h body (hb.of_live (realizes_blockStatements c body))
    runEntry := t.touches.runEntry
    finish := always_terminate t.body _ }

/-- A property that holds once the init function is declared holds at the end. -/
theorem wholeUnit {decls : List Node} {s s' : State} {u : Unit}
    (hn : ∀ m ∈ Node.partsAll decls, U m) (h : Lower.wholeUnit c decls s = .ok u s')
    (hp : P (s.declare (initFunction c.config))) : P s' := by
  obtain ⟨trace, s₁, h₁, rfl⟩ := wholeUnit_eq_ok h
  have started := t.body _ { fn := s.module.funcs.size } (t.trace _ trace hp)
  exact t.install s₁ s.body (t.completes.topLevel hn _ _ _ h₁ rfl started)

end Upholds

end Lower

end TreeLowering
