import TreeLowering.Proofs.Checked
import TreeLowering.Proofs.Guards

/-!
Functions without a return type, rejected or warned of. The same unit is lowered twice, once with
leave to warn of such functions and once with orders to reject them.

1. Expressions report nothing, whether they succeed or fail (`Silent`, `silent_valueOf`).
2. `Heeds m m'` compares a lenient step `m` with its strict counterpart `m'`, from every state: the
   two do the same and no warning is issued, or `m'` is rejected for the first warning of `m`,
   with the reports that `m` made before it. What `m` does after its first warning, and whether it
   fails, does not matter.
3. The judgement holds of a warning against its rejection (`Heeds.warn`), passes through steps in a
   row (`Heeds.bind'`), and so holds of statements, by recursion over the tree
   (`heeds_statement`), and of whole units (`heeds_wholeUnit`).
-/
namespace TreeLowering

open Lower

/-- No report is a warning. -/
def Event.Unwarned (events : List Event) : Prop := ∀ e ∈ events, e.warning? = none

instance (events : List Event) : Decidable (Event.Unwarned events) :=
  inferInstanceAs (Decidable (∀ e ∈ events, e.warning? = none))

namespace Event.Unwarned

theorem nil : Unwarned [] := fun _ h => nomatch h

theorem singleton {e : Event} (h : e.warning? = none) : Unwarned [e] := by
  intro e' he
  rw [List.mem_singleton.mp he]
  exact h

theorem append {a b : List Event} (ha : Unwarned a) (hb : Unwarned b) : Unwarned (a ++ b) := by
  intro e he
  rcases List.mem_append.mp he with he | he
  · exact ha e he
  · exact hb e he

theorem not_of_warning {before after : List Event} {p : Position} {name : String} :
    ¬Unwarned (before ++ .noReturnType p name :: after) := by
  intro h
  have none := h (.noReturnType p name) (List.mem_append_right _ List.mem_cons_self)
  cases none

end Event.Unwarned

open Event (Unwarned)

namespace Lower

variable {α β : Type}

/-! ## Steps that report nothing -/

/-- The reports up to the end of a run. -/
def endTrace : EStateM.Result Fault State α → List Event
  | .ok _ s => s.trace
  | .error _ s => s.trace

/-- No run of the step reports anything. -/
def Silent (m : Lower α) : Prop := ∀ s, endTrace (m s) = s.trace

theorem Plain.silent {m : Lower α} (h : Plain m) : Silent m := by
  intro s
  cases hm : m s with
  | ok a s' => exact (h s).1 a s' hm
  | error f s' => exact ((h s).2 f s' hm).2

theorem Guards.silent {m : Lower α} {l : Multiset Mention}
    (h : ∀ t, Guards (fun _ s => s.trace = t) (fun _ s => s.trace = t) l m) : Silent m := by
  intro s
  obtain ⟨ok, err⟩ := h s.trace 0 s rfl
  cases hm : m s with
  | ok a s' => exact ok a s' hm
  | error f s' => exact err f s' hm

/-- Expressions do not change the reports. -/
theorem watches_trace (c : Context) (t : List Event) :
    Watches c (fun _ s => s.trace = t) fun _ s => s.trace = t where
  less _ h := h
  ordinary h kept _ := kept.trans h
  tolerant _ :=
    { body := fun _ _ h => h
      buffer := fun _ _ _ s g s' hr h => ((plain_addGlobal _ _ s).1 g s' hr).trans h
      content := fun _ _ _ s u s' hr h => by
        cases hr
        exact h
      intern := fun _ _ h => h
      copy := fun s v s' hr h => ((plain_copyIntrinsic s).1 v s' hr).trans h
      instructionType := fun type s T s' hr h =>
        ((plain_instructionType c type s).1 T s' hr).trans h }
  unbound h _ _ _ := h

theorem silent_valueOf (c : Context) (e : Expr) : Silent (valueOf c e) :=
  Guards.silent fun t => (watches_trace c t).valueOf e

theorem silent_condition (c : Context) (e : Expr) : Silent (condition c e) :=
  Guards.silent fun t => (watches_trace c t).condition e

theorem silent_valueAs (c : Context) (e : Expr) (type : Ty) : Silent (valueAs c e type) :=
  Guards.silent fun t => (watches_trace c t).valueAs e type

/-! ## A lenient run and a strict one -/

/-- How a lenient result compares with a strict one, of runs that began with the reports `t`. -/
inductive Heeded (t : List Event) :
    EStateM.Result Fault State α → EStateM.Result Fault State α → Prop
  | agree {r : EStateM.Result Fault State α} {new : List Event} (reports : endTrace r = t ++ new)
    (unwarned : Unwarned new) : Heeded t r r
  | stop {r : EStateM.Result Fault State α} (before after : List Event) {p : Position}
    {name : String} {s : State}
    (reports : endTrace r = t ++ (before ++ .noReturnType p name :: after))
    (unwarned : Unwarned before) (kept : s.trace = t ++ before) :
    Heeded t r (.error (.rejected p (.noReturnType name)) s)

/-- The strict step is rejected for the first warning of the lenient one, if there is any, and does
    the same otherwise. -/
def Heeds (m m' : Lower α) : Prop := ∀ s, Heeded s.trace (m s) (m' s)

namespace Heeded

variable {t new : List Event} {r r' : EStateM.Result Fault State α}

theorem grows (h : Heeded t r r') : ∃ new, endTrace r = t ++ new := by
  cases h with
  | agree reports _ => exact ⟨_, reports⟩
  | stop _ _ reports _ _ => exact ⟨_, reports⟩

/-- Reports that are no warnings may come before. -/
theorem weaken (h : Heeded (t ++ new) r r') (hn : Unwarned new) : Heeded t r r' := by
  cases h with
  | agree reports unwarned =>
    rw [List.append_assoc] at reports
    exact .agree reports (hn.append unwarned)
  | stop before after reports unwarned kept =>
    refine .stop (new ++ before) after ?_ (hn.append unwarned)
      (kept.trans (List.append_assoc ..))
    rw [reports, List.append_assoc, List.append_assoc]

end Heeded

namespace Heeds

variable {m m' : Lower α} {g g' : α → Lower β}

theorem of_silent (h : Silent m) : Heeds m m :=
  fun s => .agree ((h s).trans (List.append_nil _).symm) .nil

theorem of_plain (h : Plain m) : Heeds m m := .of_silent h.silent

theorem pure' (a : α) : Heeds (pure a) (pure a) := .of_plain (.pure' a)

theorem bind' (hm : Heeds m m') (hg : ∀ a, Heeds (g a) (g' a)) :
    Heeds (m >>= g) (m' >>= g') := by
  intro s
  show Heeded s.trace (EStateM.bind m g s) (EStateM.bind m' g' s)
  have first := hm s
  unfold EStateM.bind
  generalize m s = r at first ⊢
  generalize m' s = r' at first ⊢
  cases first with
  | agree reports unwarned =>
    cases r with
    | ok a s₁ =>
      have rest := hg a s₁
      rw [show s₁.trace = _ from reports] at rest
      exact rest.weaken unwarned
    | error f s₁ => exact .agree reports unwarned
  | stop before after reports unwarned kept =>
    cases r with
    | ok a s₁ =>
      -- The lenient run goes on, and its reports come after the first warning.
      obtain ⟨later, hl⟩ := (hg a s₁).grows
      refine .stop before (after ++ later) ?_ unwarned kept
      rw [show s₁.trace = _ from reports] at hl
      simpa using hl
    | error f s₁ => exact .stop before after reports unwarned kept

theorem get_bind {g g' : State → Lower α} (hg : ∀ s, Heeds (g s) (g' s)) :
    Heeds (get >>= g) (get >>= g') := fun s => hg s s

/-- What would follow a breach does not matter. -/
theorem breach_bind {b : Breach} : Heeds (breach b >>= g) (breach b >>= g') :=
  fun _ => .agree (List.append_nil _).symm .nil

theorem ite' {p : Prop} [Decidable p] {x x' y y' : Lower α} (hx : Heeds x x') (hy : Heeds y y') :
    Heeds (if p then x else y) (if p then x' else y') := by
  split
  · exact hx
  · exact hy

/-- A report that is no warning. -/
theorem report {e : Event} (h : e.warning? = none) : Heeds (report e) (report e) :=
  fun _ => .agree rfl (.singleton h)

/-- A warning against the rejection that takes its place. -/
theorem warn (p : Position) (name : String) :
    Heeds (Lower.report (.noReturnType p name)) (reject p (.noReturnType name)) :=
  fun _ => .stop [] [] rfl .nil (List.append_nil _).symm

theorem whenLive' {m m' : Lower Unit} (h : Heeds m m') : Heeds (whenLive m) (whenLive m') :=
  .get_bind fun _ => .ite' h (.pure' _)

theorem modifyBody (f : Body → Body) : Heeds (modifyBody f) (modifyBody f) :=
  .of_plain (.modify' fun _ => rfl)

theorem forM' {g g' : α → Lower PUnit} (hg : ∀ a, Heeds (g a) (g' a)) (l : List α) :
    Heeds (l.forM g) (l.forM g') := by
  induction l with
  | nil => exact .pure' _
  | cons a l ih => exact .bind' (hg a) fun _ => ih

end Heeds

end Lower

/-- The context that warns of functions without a return type. -/
abbrev Context.lenient (c : Context) : Context :=
  c.configured { c.config with strictReturnTypes := false }

/-- The context that rejects functions without a return type. -/
abbrev Context.strict (c : Context) : Context :=
  c.configured { c.config with strictReturnTypes := true }

namespace Lower

variable (c : Context)

/-! ## Definitions -/

theorem heeds_bindVariable (v : ObjectId) (value : Ir.Value) :
    Heeds (bindVariable v value) (bindVariable v value) := .of_plain (.modify' fun _ => rfl)

theorem heeds_defineVariable (d : VarDecl) :
    Heeds (defineVariable c.lenient d) (defineVariable c.strict d) := by
  rw [defineVariable_configured, defineVariable_configured]
  have global : ∀ v type, Heeds (defineGlobal c d v type) (defineGlobal c d v type) := by
    intro v type
    refine .bind' (.of_plain (plain_addGlobal _ _)) fun g => .ite' (heeds_bindVariable _ _) ?_
    refine .bind' (.of_silent (silent_valueAs c _ _)) fun init => .ite' ?_ ?_
    · exact .bind' (.of_plain (.modify' fun _ => rfl)) fun _ => heeds_bindVariable _ _
    · exact .bind' (.of_plain (plain_storeAt _ _ _)) fun _ => heeds_bindVariable _ _
  have inSlot : ∀ v type, Heeds (defineLocal c d v type) (defineLocal c d v type) := by
    intro v type
    have rest : ∀ init, Heeds (do
        let slot ← stackSlot type none
        store init slot
        bindVariable v slot) (do
        let slot ← stackSlot type none
        store init slot
        bindVariable v slot) := fun init =>
      .bind' (.of_plain (plain_stackSlot _ _)) fun _ =>
        .bind' (.of_plain (plain_storeAt _ _ _)) fun _ => heeds_bindVariable _ _
    unfold defineLocal
    split
    · exact .bind' (.pure' _) rest
    · exact .bind' (.of_silent (silent_valueAs c _ _)) rest
  refine .bind' (.of_plain (plain_variableAt c _ _)) fun v =>
    .ite' (.of_plain (.reject' _ _ rfl)) ?_
  refine .bind' (.of_plain (plain_instructionType c _)) fun type => .ite' (global v type) ?_
  exact .bind' (.of_plain (plain_isLocal c _)) fun _ => .ite' (inSlot v type) (global v type)

theorem silent_declareSymbol (h : FuncHead) (hasBody : Bool) (result : Ir.Ty)
    (params : List Ir.Ty) : Silent (declareSymbol h hasBody result params) := by
  intro s
  unfold declareSymbol
  rw [get_bind_apply]
  cases s.symbols.lookup h.symbol with
  | none =>
    dsimp only
    split <;> rfl
  | some id =>
    dsimp only
    split <;> rfl

theorem heeds_declarePrototype (h : FuncHead) (body : Block) (v : ObjectId) (sig : Signature) :
    Heeds (declarePrototype c h body v sig) (declarePrototype c h body v sig) := by
  unfold declarePrototype
  split
  · exact .of_plain (.reject_bind rfl)
  refine .bind' (.of_plain (plain_instructionSignature c _ _)) fun types => ?_
  refine .bind' (.of_silent (silent_declareSymbol _ _ _ _)) fun id => ?_
  refine .bind' (.of_plain (.modify' fun _ => rfl)) fun _ => .get_bind fun s => ?_
  exact .bind' (heeds_bindVariable _ _) fun _ => .report rfl

/-- The one place where the two runs part. -/
theorem heeds_enterPrototype (h : FuncHead) (body : Block) :
    Heeds (enterPrototype c.lenient h body) (enterPrototype c.strict h body) := by
  refine .bind' (.of_plain (plain_signatureOf c h)) fun sig => .ite' ?_ ?_
  · exact .bind' (.of_plain (.modify' fun _ => rfl)) fun _ => .report rfl
  · refine .bind' (.of_plain (plain_variableAt c _ _)) fun v => .ite' ?_ ?_
    · exact .bind' (.warn _ _) fun _ => heeds_declarePrototype c h body v sig
    · exact heeds_declarePrototype c h body v sig

theorem heeds_storeParams (fn : Ir.FuncId) (site : Site) :
    ∀ (i : Nat) (params : List (String × Ir.Ty)),
      Heeds (storeParams c fn site i params) (storeParams c fn site i params)
  | _, [] => .pure' _
  | i, (_, _) :: rest =>
    .bind' (.of_plain (plain_variableAt c _ _)) fun _ =>
      .bind' (.of_plain (plain_stackSlot _ _)) fun _ =>
        .bind' (.of_plain (plain_storeAt _ _ _)) fun _ =>
          .bind' (heeds_bindVariable _ _) fun _ => heeds_storeParams fn site (i + 1) rest

variable {m m' : Lower Unit}

theorem heeds_withBody (body : Body) (h : Heeds m m') :
    Heeds (withBody body m) (withBody body m') :=
  .get_bind fun _ => .bind' (.modifyBody _) fun _ => .bind' h fun _ => .get_bind fun _ =>
    .bind' (.of_plain (.modify' fun _ => rfl)) fun _ => .modifyBody _

theorem heeds_fillBody (h : FuncHead) (body : Block) (hm : Heeds m m') :
    Heeds (fillBody c.lenient h body m) (fillBody c.strict h body m') := by
  rw [fillBody_configured, fillBody_configured]
  unfold fillBody
  refine .ite' (.pure' _) (.bind' (.of_plain (plain_signatureOf c h)) fun sig => ?_)
  refine .ite' (.pure' _) (.get_bind fun s => ?_)
  split
  · rename_i id site _ _
    have inside : ∀ types : List Ir.Ty, Heeds (do
        withBody { fn := id, head := some h, result := sig.result } do
          storeParams c id site 0 ((h.params.map Prod.fst).zip types)
          m
          closeBody c
        let blocks := (((← get).module.funcs[id]?).map fun f => f.blocks.length).getD 0
        report (.loweredBody h.name blocks)) (do
        withBody { fn := id, head := some h, result := sig.result } do
          storeParams c id site 0 ((h.params.map Prod.fst).zip types)
          m'
          closeBody c
        let blocks := (((← get).module.funcs[id]?).map fun f => f.blocks.length).getD 0
        report (.loweredBody h.name blocks)) := fun types =>
      .bind' (heeds_withBody _ (.bind' (heeds_storeParams c _ _ _ _) fun _ => .bind' hm fun _ =>
        .of_plain (plain_closeBody c))) fun _ => .get_bind fun _ => .report rfl
    refine .get_bind fun s => .ite' (.of_silent fun _ => rfl) ?_
    refine .bind' (.of_plain (.modify' fun _ => rfl)) fun _ => .ite' ?_ ?_
    · exact .bind' (.of_plain (.modify' fun _ => rfl)) fun _ => .get_bind fun s => inside _
    · exact .get_bind fun s => inside _
  · exact .of_silent fun _ => rfl

/-! ## Control flow -/

theorem heeds_conditionalArm (done : Ir.Label) (cond : Expr) (h : Heeds m m')
    (otherwise : Option String) :
    Heeds (conditionalArm c.lenient done cond m otherwise)
      (conditionalArm c.strict done cond m' otherwise) := by
  have rest : ∀ v yes no, Heeds (do
      terminate (.condBr v yes no)
      moveTo yes
      m
      let joined ← branchIfLive done
      moveTo no
      pure (joined || otherwise.isNone)) (do
      terminate (.condBr v yes no)
      moveTo yes
      m'
      let joined ← branchIfLive done
      moveTo no
      pure (joined || otherwise.isNone)) := fun v yes no =>
    .bind' (.of_plain (plain_terminate _)) fun _ => .bind' (.modifyBody _) fun _ =>
      .bind' h fun _ => .bind' (.of_plain (plain_branchIfLive _)) fun _ =>
        .bind' (.modifyBody _) fun _ => .pure' _
  unfold conditionalArm
  rw [condition_configured, condition_configured]
  refine .bind' (.of_silent (silent_condition c cond)) fun v =>
    .bind' (.of_plain (plain_openBlock _)) fun yes => ?_
  cases otherwise with
  | some name => exact .bind' (.of_plain (plain_openBlock _)) fun no => rest v yes no
  | none => exact .bind' (.pure' _) fun no => rest v yes no

theorem heeds_runLoop (loop : Loop) (start : Ir.Label) (h : Heeds m m') :
    Heeds (runLoop loop start m) (runLoop loop start m') :=
  .bind' (.modifyBody _) fun _ => .bind' (.modifyBody _) fun _ => .bind' h fun _ =>
    .bind' (.of_plain (.discard' (plain_branchIfLive _))) fun _ => .modifyBody _

theorem heeds_whileLoop (cond : Expr) (h : Heeds m m') :
    Heeds (whileLoop c.lenient cond m) (whileLoop c.strict cond m') := by
  unfold whileLoop
  rw [condition_configured, condition_configured]
  refine .bind' (.of_plain (plain_openBlock _)) fun test =>
    .bind' (.of_plain (plain_openBlock _)) fun start =>
      .bind' (.of_plain (plain_openBlock _)) fun exit =>
        .bind' (.of_plain (plain_terminate _)) fun _ => .bind' (.modifyBody _) fun _ => ?_
  exact .bind' (.of_silent (silent_condition c cond)) fun v =>
    .bind' (.of_plain (plain_terminate _)) fun _ => .bind' (heeds_runLoop _ _ h) fun _ =>
      .modifyBody _

theorem heeds_forLoop (cond : Expr) {iter iter' : Lower Unit} (hi : Heeds iter iter')
    (h : Heeds m m') :
    Heeds (forLoop c.lenient cond iter m) (forLoop c.strict cond iter' m') := by
  unfold forLoop
  rw [condition_configured, condition_configured]
  refine .bind' (.of_plain (plain_openBlock _)) fun test =>
    .bind' (.of_plain (plain_openBlock _)) fun start =>
      .bind' (.of_plain (plain_openBlock _)) fun next =>
        .bind' (.of_plain (plain_openBlock _)) fun exit =>
          .bind' (.of_plain (plain_terminate _)) fun _ => .bind' (.modifyBody _) fun _ => ?_
  have rest : Heeds (do
      runLoop ⟨exit, next⟩ start m
      moveTo next
      iter
      discard (branchIfLive test)
      moveTo exit) (do
      runLoop ⟨exit, next⟩ start m'
      moveTo next
      iter'
      discard (branchIfLive test)
      moveTo exit) :=
    .bind' (heeds_runLoop _ _ h) fun _ => .bind' (.modifyBody _) fun _ => .bind' hi fun _ =>
      .bind' (.of_plain (.discard' (plain_branchIfLive _))) fun _ => .modifyBody _
  refine .ite' (.bind' (.of_plain (plain_terminate _)) fun _ => rest) ?_
  exact .bind' (.of_silent (silent_condition c cond)) fun v =>
    .bind' (.of_plain (plain_terminate _)) fun _ => rest

theorem plain_jump (site : Site) (token : Token) : Plain (jump site token) := by
  refine .get_bind fun s => ?_
  split
  · exact .reject' _ _ rfl
  · exact .bind' (plain_terminate _) fun _ => .modify' fun _ => rfl

theorem plain_misplaced (n : Node) : Plain (misplaced n) := by
  unfold misplaced
  split
  · exact .reject' _ _ rfl
  · exact .breach' _ trivial

theorem heeds_leave (site : Site) (result : Expr) :
    Heeds (leave c.lenient site result) (leave c.strict site result) := by
  have ret : ∀ value, Heeds (terminate (.ret value) >>= fun _ => moveNowhere)
      (terminate (.ret value) >>= fun _ => moveNowhere) := fun _ =>
    .bind' (.of_plain (plain_terminate _)) fun _ => .modifyBody _
  unfold leave
  simp only [valueAs_configured]
  refine .get_bind fun s => ?_
  split
  · exact .of_plain (.reject' _ _ rfl)
  · refine .ite' (.ite' (ret none) (.of_plain (.reject_bind rfl))) ?_
    refine .ite' (.of_plain (.reject_bind rfl)) ?_
    exact .bind' (.of_silent (silent_valueAs c _ _)) fun v => ret (some v)

theorem heeds_emitLeading (b : EmissionOrder) :
    Heeds (emitLeading c.lenient b) (emitLeading c.strict b) := by
  unfold emitLeading
  refine .bind' (.forM' ?_ _) fun _ => .bind' (.forM' ?_ _) fun _ => .forM' ?_ _
  · exact fun (h, body) => heeds_enterPrototype c h body
  · exact heeds_defineVariable c
  · exact heeds_defineVariable c

/-! ## Statements -/

mutual

theorem heeds_statement : ∀ n : Node, Heeds (statement c.lenient n) (statement c.strict n)
  | .labelled _ _ x => by
    unfold statement
    exact heeds_statement x
  | .expr e => by
    unfold statement
    rw [valueOf_configured, valueOf_configured]
    exact .whenLive' (.of_silent (Guards.silent fun t => .discard' ((watches_trace c t).valueOf e)))
  | .varDecl d => by
    unfold statement
    exact .whenLive' (heeds_defineVariable c d)
  | .funcDecl h body => by
    have inside := heeds_blockStatements body
    unfold statement
    refine .whenLive' (.get_bind fun s => .ite' ?_ ?_)
    · exact .bind' (heeds_enterPrototype c h body) fun _ => heeds_fillBody c h body inside
    · exact heeds_fillBody c h body inside
  | .structDecl d => by
    unfold statement
    exact .whenLive' (.of_plain (plain_enterStruct c d))
  | .space _ name decls => by
    have others := heeds_statementsWhere (takesTurn c.analysis true) decls
    unfold statement
    exact .whenLive' (.bind' (.report rfl) fun _ => .bind' (heeds_emitLeading c _) fun _ => others)
  | .block b => by
    have inside := heeds_blockStatements b
    unfold statement
    exact .whenLive' inside
  | .ifStmt _ cond yes elifs no => by
    have arm := heeds_blockStatements yes
    have arms := fun done => heeds_elifArms done no elifs
    have final := heeds_blockStatements no
    have close : ∀ done reached, Heeds (closeConditional done reached)
        (closeConditional done reached) := fun done reached =>
      .ite' (.bind' (.modifyBody _) fun _ => .modifyBody _)
        (.bind' (.modifyBody _) fun _ => .modifyBody _)
    unfold statement
    refine .whenLive' (.ite' .breach_bind ?_)
    refine .bind' (.of_plain (plain_openBlock _)) fun done =>
      .bind' (heeds_conditionalArm c done cond arm _) fun first =>
        .bind' (arms done) fun later => ?_
    split
    · exact .bind' (.pure' _) fun _ => close _ _
    · exact .bind' final fun _ => .bind' (.of_plain (plain_branchIfLive _)) fun _ => close _ _
  | .forStmt _ init cond iter body => by
    have first := heeds_statementsWhere (fun _ => true) init
    have next := heeds_statementsWhere (fun _ => true) iter
    have inside := heeds_blockStatements body
    unfold statement
    exact .whenLive' (.bind' first fun _ => .whenLive' (heeds_forLoop c cond next inside))
  | .whileStmt _ cond body => by
    have inside := heeds_blockStatements body
    unfold statement
    exact .whenLive' (heeds_whileLoop c cond inside)
  | .branch site token => by
    unfold statement
    exact .whenLive' (.of_plain (plain_jump site token))
  | .ret site result => by
    unfold statement
    exact .whenLive' (heeds_leave c site result)
  | .typeRef _ | .program _ _ | .file _ | .elif _ => by
    unfold statement
    exact .whenLive' (.of_plain (plain_misplaced _))

theorem heeds_blockStatements : ∀ b : Block,
    Heeds (blockStatements c.lenient b) (blockStatements c.strict b)
  | .missing => .of_plain (.breach' _ trivial)
  | .mk _ stmts => by
    have inside := heeds_statementsWhere (fun _ => true) stmts
    unfold blockStatements
    exact inside

theorem heeds_statementsWhere (keep : Node → Bool) : ∀ ns : List Node,
    Heeds (statementsWhere c.lenient keep ns) (statementsWhere c.strict keep ns)
  | [] => .pure' _
  | n :: ns => by
    have first := heeds_statement n
    have rest := heeds_statementsWhere keep ns
    unfold statementsWhere
    exact .ite' (.bind' first fun _ => rest) rest

theorem heeds_elifArms (done : Ir.Label) (no : Block) : ∀ es : List Elif,
    Heeds (elifArms c.lenient done no es) (elifArms c.strict done no es)
  | [] => .pure' _
  | .missing :: _ => .of_plain (.breach' _ trivial)
  | .mk _ cond body :: rest => by
    have inside := heeds_blockStatements body
    have later := heeds_elifArms done no rest
    unfold elifArms
    exact .bind' (heeds_conditionalArm c done cond inside _) fun _ =>
      .bind' later fun _ => .pure' _

end

/-! ## Units -/

theorem heeds_topLevel (decls : List Node) :
    Heeds (topLevel c.lenient decls) (topLevel c.strict decls) := by
  have entry : ∀ funcs, Heeds (do
      runEntry c.lenient funcs
      terminate (.ret (if c.config.isLibrary then some (.i32 Abi.librarySuccess) else none))) (do
      runEntry c.strict funcs
      terminate (.ret (if c.config.isLibrary then some (.i32 Abi.librarySuccess) else none))) := by
    intro funcs
    rw [runEntry_configured c { c.config with strictReturnTypes := false } rfl,
      runEntry_configured c { c.config with strictReturnTypes := true } rfl]
    exact .of_plain (.bind' (plain_runEntry c funcs) fun _ => plain_terminate _)
  unfold topLevel
  refine .bind' (heeds_emitLeading c _) fun _ => .bind' (heeds_statementsWhere c _ decls) fun _ =>
    .get_bind fun s => .ite' (.of_silent fun _ => rfl) (entry _)

theorem heeds_wholeUnit (decls : List Node) :
    Heeds (wholeUnit c.lenient decls) (wholeUnit c.strict decls) :=
  .bind' (.report rfl) fun _ => .bind' (.of_plain (.of_ok fun _ => ⟨_, _, rfl, rfl⟩)) fun _ =>
    heeds_withBody _ (heeds_topLevel c decls)

end Lower

/-- What a unit reports after it was lowered is no warning. -/
theorem lowerUnit_trace (analysis : Analysis) (config : Config) (decls : List Node) :
    ∃ last, (lowerUnit analysis config decls).trace =
        endTrace (wholeUnit ⟨analysis, config⟩ decls { module := { triple := config.triple } }) ++
          last ∧ Unwarned last := by
  unfold lowerUnit
  dsimp only
  cases wholeUnit ⟨analysis, config⟩ decls { module := { triple := config.triple } } with
  | error f s => exact ⟨[], (List.append_nil _).symm, .nil⟩
  | ok u s =>
    dsimp only
    split
    · split
      · exact ⟨_, rfl, .singleton rfl⟩
      · exact ⟨[], (List.append_nil _).symm, .nil⟩
    · exact ⟨_, rfl, .singleton rfl⟩

/-- Rejecting functions without a return type agrees with warning of them. If the lenient run of a
    unit issues no warning, the strict run gives the same. Else the strict run is rejected for the
    function, and at the position, of the first warning, whatever the lenient run comes to. -/
theorem lowerUnit_strict (analysis : Analysis) (config : Config) (decls : List Node) :
    let lenient := lowerUnit analysis { config with strictReturnTypes := false } decls
    let strict := lowerUnit analysis { config with strictReturnTypes := true } decls
    (Unwarned lenient.trace → strict = lenient) ∧
    (¬Unwarned lenient.trace → ∃ before p name after,
      lenient.trace = before ++ .noReturnType p name :: after ∧ Unwarned before ∧
        strict = ⟨.error (.fault (.rejected p (.noReturnType name))), before⟩) := by
  intro lenient strict
  obtain ⟨last, trace, unwarned⟩ :=
    lowerUnit_trace analysis { config with strictReturnTypes := false } decls
  have runs : Heeded [] (wholeUnit ⟨analysis, { config with strictReturnTypes := false }⟩ decls
      { module := { triple := config.triple } })
      (wholeUnit ⟨analysis, { config with strictReturnTypes := true }⟩ decls
        { module := { triple := config.triple } }) :=
    heeds_wholeUnit ⟨analysis, config⟩ decls { module := { triple := config.triple } }
  have compared : (Unwarned lenient.trace ∧ strict = lenient) ∨ ∃ before p name after,
      lenient.trace = before ++ .noReturnType p name :: after ∧ Unwarned before ∧
        strict = ⟨.error (.fault (.rejected p (.noReturnType name))), before⟩ := by
    generalize hl : wholeUnit ⟨analysis, { config with strictReturnTypes := false }⟩ decls
      { module := { triple := config.triple } } = r at runs trace
    generalize hs : wholeUnit ⟨analysis, { config with strictReturnTypes := true }⟩ decls
      { module := { triple := config.triple } } = r' at runs
    cases runs with
    | agree reports quiet =>
      refine .inl ⟨?_, ?_⟩
      · rw [show lenient.trace = _ from trace, reports]
        exact quiet.append unwarned
      · show lowerUnit _ _ _ = lowerUnit _ _ _
        unfold lowerUnit
        dsimp only
        rw [hl, hs]
    | stop before after reports quiet kept =>
      rename_i p name s
      refine .inr ⟨before, p, name, after ++ last, ?_, quiet, ?_⟩
      · rw [show lenient.trace = _ from trace, reports]
        simp
      · show lowerUnit _ _ _ = _
        unfold lowerUnit
        dsimp only
        rw [hs]
        exact congrArg (Outcome.mk _) kept
  rcases compared with ⟨quiet, same⟩ | ⟨before, p, name, after, split, quiet, rejected⟩
  · exact ⟨fun _ => same, fun warned => absurd quiet warned⟩
  · refine ⟨fun none => ?_, fun _ => ⟨before, p, name, after, split, quiet, rejected⟩⟩
    rw [split] at none
    exact absurd none Unwarned.not_of_warning

/-- A function `f` that has no return type. -/
def resultless : Analysis where
  store :=
    { scopes := #[{ bindings := [("f", 0)] }]
      objects := #[{ name := "f", type := .func [] .missing false, kind := .variable {} }] }
  facts := {}

/-- The function `f` before a jump that no loop surrounds. -/
def resultlessUnit : List Node :=
  [.funcDecl { site := { id := 1 }, name := "f" } (.mk { id := 2 } []),
    .branch { id := 3 } (.known .breakWord)]

/-- The lenient run fails at the jump, the strict one at the function. -/
theorem lowerUnit_strict_resultlessUnit :
    (lowerUnit resultless { strictReturnTypes := false } resultlessUnit).result =
        .error (.fault (.rejected {} (.outsideLoop "break"))) ∧
      ¬Unwarned (lowerUnit resultless { strictReturnTypes := false } resultlessUnit).trace ∧
      ∃ before p name after,
        (lowerUnit resultless { strictReturnTypes := false } resultlessUnit).trace =
          before ++ .noReturnType p name :: after ∧ Unwarned before ∧
        lowerUnit resultless { strictReturnTypes := true } resultlessUnit =
          ⟨.error (.fault (.rejected p (.noReturnType name))), before⟩ := by
  have fails : (lowerUnit resultless { strictReturnTypes := false } resultlessUnit).result =
      .error (.fault (.rejected {} (.outsideLoop "break"))) :=
    Outcome.result_of_fault? (by decide +kernel)
  have warned : ¬Unwarned
      (lowerUnit resultless { strictReturnTypes := false } resultlessUnit).trace := by
    decide +kernel
  exact ⟨fails, warned, (lowerUnit_strict resultless {} resultlessUnit).2 warned⟩

end TreeLowering
