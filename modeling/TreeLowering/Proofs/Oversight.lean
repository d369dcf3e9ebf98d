import Mathlib.Tactic.Abel
import TreeLowering.Proofs.Guards
import TreeLowering.Proofs.Prototypes

/-!
What statements and units rely on, and what a failing unit ends in.

`Surveys c U S Q` adds to `Watches` what is to be known of the declarations among the nodes `U`:
variables, functions and namespaces. Then every statement made of such nodes meets no more than what
its parts mention (`Surveys.statement`). `Oversees c S Q` breaks these down to single steps, for
properties that may be entered and begun with any definition to come; a unit that fails after its
prototypes were entered ends in `Q` (`Oversees.topLevel`).
-/
namespace TreeLowering

open Lower

/-! ## Mentions of statements -/

/-- The expressions that stand directly in a node. -/
def Node.expressions : Node → List Expr
  | .expr e => [e]
  | .varDecl d => [d.value]
  | .ret _ e => [e]
  | n => n.conditions

/-- What a node itself mentions, apart from the nodes inside it. -/
def Node.own : Node → Multiset Mention
  | .funcDecl h _ => {.definition h}
  | n => (n.expressions.map Expr.mentions).sum

/-- What some nodes mention. -/
def Node.total (ns : List Node) : Multiset Mention := (ns.map Node.own).sum

theorem mem_sum_map {α : Type} {g : α → Multiset Mention} {m : Mention} {l : List α} :
    m ∈ (l.map g).sum ↔ ∃ a ∈ l, m ∈ g a := by
  induction l with
  | nil => simp
  | cons a l ih => simp [ih]

namespace Node

@[simp] theorem total_nil : total [] = 0 := rfl

@[simp] theorem total_cons (n : Node) (ns : List Node) : total (n :: ns) = n.own + total ns := by
  simp [total]

@[simp] theorem total_append (ns ms : List Node) : total (ns ++ ms) = total ns + total ms := by
  simp [total]

theorem own_le_total {n : Node} {ns : List Node} (h : n ∈ ns) : n.own ≤ total ns := by
  induction ns with
  | nil => cases h
  | cons m ns ih =>
    rw [total_cons]
    rcases List.mem_cons.mp h with rfl | h
    · exact Multiset.le_add_right _ _
    · exact (ih h).trans (Multiset.le_add_left _ _)

end Node

/-- What the kept nodes of a list mention, with the nodes inside them. -/
def Node.totalWhere (keep : Node → Bool) : List Node → Multiset Mention
  | [] => 0
  | n :: ns => (if keep n then total n.parts else 0) + totalWhere keep ns

theorem Node.totalWhere_true (ns : List Node) :
    totalWhere (fun _ => true) ns = total (partsAll ns) := by
  induction ns with
  | nil => rfl
  | cons n ns ih => rw [totalWhere, if_pos rfl, ih, partsAll, total_append]

/-- What the variables mention that are defined ahead of their turn. -/
def EmissionOrder.mentions (b : EmissionOrder) : Multiset Mention :=
  (b.consts.map (·.value.mentions)).sum + (b.globals.map (·.value.mentions)).sum

theorem Node.mentions_le_total {n : Node} {d : VarDecl} (hn : n.unwrap = .varDecl d) :
    d.value.mentions ≤ total n.parts := by
  have own := own_le_total (hn ▸ unwrap_mem_parts n)
  simpa [Node.own, Node.expressions] using own

/-- A declaration is met ahead of its turn or in its turn, not in both. -/
theorem emissionOrder_mentions_le (a : Analysis) (inSpace : Bool) (decls : List Node) :
    (emissionOrder a inSpace decls).mentions + Node.totalWhere (takesTurn a inSpace) decls ≤
      Node.total (Node.partsAll decls) := by
  induction decls with
  | nil => exact le_refl _
  | cons n ns ih =>
    change ((emissionOrder a inSpace ns).push (classify a inSpace n)).mentions + _ ≤ _
    rw [Node.totalWhere, Node.partsAll, Node.total_append]
    have met : ∀ {l}, l ≤ Node.total n.parts → l + ((emissionOrder a inSpace ns).mentions +
        Node.totalWhere (takesTurn a inSpace) ns) ≤
          Node.total n.parts + Node.total (Node.partsAll ns) := fun hl => add_le_add hl ih
    have turn : (if takesTurn a inSpace n = true then Node.total n.parts else 0) ≤
        Node.total n.parts := by
      split
      · exact le_refl _
      · exact Multiset.zero_le _
    cases hc : classify a inSpace n with
    | const d =>
      rw [if_neg (by simp [takesTurn, hc])]
      refine le_trans (le_of_eq ?_) (met (Node.mentions_le_total (unwrap_of_classify (.inl hc))))
      simp only [EmissionOrder.push, EmissionOrder.mentions, List.map_cons, List.sum_cons]
      abel
    | global d =>
      rw [if_neg (by simp [takesTurn, hc])]
      refine le_trans (le_of_eq ?_) (met (Node.mentions_le_total (unwrap_of_classify (.inr hc))))
      simp only [EmissionOrder.push, EmissionOrder.mentions, List.map_cons, List.sum_cons]
      abel
    | func h body =>
      refine le_trans (le_of_eq ?_) (met turn)
      simp only [EmissionOrder.push, EmissionOrder.mentions]
      abel
    | other m =>
      refine le_trans (le_of_eq ?_) (met turn)
      simp only [EmissionOrder.push, EmissionOrder.mentions]
      abel

/-- What the arms of a conditional mention. -/
def Elif.total (es : List Elif) : Multiset Mention :=
  ((es.filterMap Elif.condition?).map Expr.mentions).sum + Node.total (Elif.partsAll es)

/-- The definition of a variable that may become a global: by its flags, or as it is not known to
    stand inside a function. -/
def VarDecl.MayBeGlobal (c : Context) (d : VarDecl) : Prop :=
  ∃ v, c.analysis.resolve d.name (some d.site) = some v ∧ ((variableFlags c v).isGlobal = true ∨
    ∀ scope, d.site.scope = some scope → c.analysis.store.enclosingFunction scope = none)

namespace Lower

variable {α β : Type} {S : Multiset Mention → State → Prop} {Q : Fault → State → Prop}
  {l l' : Multiset Mention}

theorem isLocal_eq_false {c : Context} {site : Site} {s s' : State}
    (h : isLocal c site s = .ok false s') :
    ∀ scope, site.scope = some scope → c.analysis.store.enclosingFunction scope = none := by
  intro scope hs
  unfold isLocal at h
  rw [hs] at h
  obtain ⟨h, -⟩ := pure_eq_ok.mp h
  simpa using h

/-! ## Definitions -/

/-- What bodies of functions ask of `S` besides: binding variables, reporting and installing a body
    is free. -/
structure Encloses (c : Context) (S : Multiset Mention → State → Prop)
    (Q : Fault → State → Prop) : Prop extends Watches c S Q where
  bind : ∀ {k} {s : State} v value, S k s → S k { s with values := (v, value) :: s.values }
  report : ∀ {k} {s : State} trace, S k s → S k { s with trace }
  install : ∀ {k s} outer, S k s → S k (s.install outer)

/-- What statements ask of `S` and `Q` besides: adding globals is free, and so is entering the
    prototype of a definition to come. The body of a definition is met with the definition, after
    its prototype was noted. -/
structure Oversees (c : Context) (S : Multiset Mention → State → Prop)
    (Q : Fault → State → Prop) : Prop extends Encloses c S Q where
  global : ∀ k name content, Always (Preserves (S k)) (addGlobal name content)
  enter : ∀ {k h} body, .definition h ∈ k → Passes (S k) (S k) Q (enterPrototype c h body)
  unprototyped : ∀ {k s h}, S k s → .definition h ∈ k → h.Active c →
    s.prototypes.lookup h.site.id = some none →
    Q (.rejected h.site.position (.noPrototype h.name)) s
  twice : ∀ {k s h}, S k s → .definition h ∈ k → h.site.id ∈ s.lowered →
    Q (.breach (.bodyTwice h.name)) s
  begin : ∀ {k s h} id exported, S ({.definition h} + k) s →
    S k (s.beginBody h.site.id id exported)

theorem enterPrototype_notes {c : Context} {h : FuncHead} {body : Block} {s s' : State} {u : Unit}
    (hr : enterPrototype c h body s = .ok u s') :
    (s'.prototypes.lookup h.site.id).isSome := by
  obtain ⟨-, ⟨-, -, hp⟩ | ⟨-, v, id, -, -, hp⟩⟩ := enterPrototype_eq_ok hr
  · rw [hp, List.lookup_cons_self]
    rfl
  · rw [hp, List.lookup_cons_self]
    rfl

namespace Watches

variable {c : Context} (o : Watches c S Q) {m : Lower Unit}

include o

theorem whenLive (h : Guards S Q l m) : Guards S Q l (whenLive m) :=
  .get_bind fun _ => .ite' h (o.mono (.pure' _) (Multiset.zero_le _))

/-! ### Control flow -/

theorem branchIfLive (label : Ir.Label) : Guards S Q 0 (branchIfLive label) :=
  o.step (plain_branchIfLive _) fun t => .get_bind fun _ =>
    .ite' (.bind' (t.touches.terminate _) fun _ => .pure' _) (.pure' _)

theorem conditionalArm (done : Ir.Label) (cond : Expr) (ha : Guards S Q l m)
    (otherwise : Option String) :
    Guards S Q (cond.mentions + l) (conditionalArm c done cond m otherwise) := by
  have rest : ∀ v yes no, Guards S Q l (do
      Lower.terminate (.condBr v yes no)
      Lower.moveTo yes
      m
      let joined ← Lower.branchIfLive done
      Lower.moveTo no
      pure (joined || otherwise.isNone)) := fun v yes no =>
    .quiet_bind (o.terminate _) fun _ => .quiet_bind (o.moveTo _) fun _ => .bind_quiet ha fun _ =>
      .quiet_bind (o.branchIfLive _) fun _ => .quiet_bind (o.moveTo _) fun _ => .pure' _
  refine .append (o.condition cond) fun v => .quiet_bind (o.openBlock _) fun yes => ?_
  cases otherwise with
  | some name => exact .quiet_bind (o.openBlock _) fun no => rest v yes no
  | none => exact .quiet_bind (.pure' _) fun no => rest v yes no

theorem closeConditional (done : Ir.Label) (reached : Bool) :
    Guards S Q 0 (closeConditional done reached) :=
  .ite' (.quiet_bind (o.modifyBody _) fun _ => o.moveTo _)
    (.quiet_bind (o.modifyBody _) fun _ => o.modifyBody _)

theorem runLoop (loop : Loop) (start : Ir.Label) (h : Guards S Q l m) :
    Guards S Q l (runLoop loop start m) :=
  .quiet_bind (o.modifyBody _) fun _ => .quiet_bind (o.moveTo _) fun _ => .bind_quiet h fun _ =>
    .quiet_bind (.discard' (o.branchIfLive _)) fun _ => o.modifyBody _

theorem whileLoop (cond : Expr) (h : Guards S Q l m) :
    Guards S Q (cond.mentions + l) (whileLoop c cond m) := by
  refine .quiet_bind (o.openBlock _) fun _ => .quiet_bind (o.openBlock _) fun _ =>
    .quiet_bind (o.openBlock _) fun _ => .quiet_bind (o.terminate _) fun _ =>
      .quiet_bind (o.moveTo _) fun _ => .append (o.condition cond) fun _ => ?_
  exact .quiet_bind (o.terminate _) fun _ => .bind_quiet (o.runLoop _ _ h) fun _ => o.moveTo _

theorem forLoop (cond : Expr) {iter : Lower Unit} (h : Guards S Q l m)
    (hi : Guards S Q l' iter) :
    Guards S Q (cond.mentions + (l + l')) (forLoop c cond iter m) := by
  refine .quiet_bind (o.openBlock _) fun test => .quiet_bind (o.openBlock _) fun start =>
    .quiet_bind (o.openBlock _) fun next => .quiet_bind (o.openBlock _) fun exit =>
      .quiet_bind (o.terminate _) fun _ => .quiet_bind (o.moveTo _) fun _ => ?_
  have rest : Guards S Q (l + l') (do
      Lower.runLoop ⟨exit, next⟩ start m
      Lower.moveTo next
      iter
      discard (Lower.branchIfLive test)
      Lower.moveTo exit) :=
    .append (o.runLoop _ _ h) fun _ => .quiet_bind (o.moveTo _) fun _ => .bind_quiet hi fun _ =>
      .quiet_bind (.discard' (o.branchIfLive _)) fun _ => o.moveTo _
  split
  · exact o.mono (.quiet_bind (o.terminate _) fun _ => rest) (Multiset.le_add_left _ _)
  · exact .append (o.condition cond) fun _ => .quiet_bind (o.terminate _) fun _ => rest

theorem jump (site : Site) (token : Token) : Guards S Q 0 (jump site token) := by
  refine .get_bind fun s => ?_
  split
  · exact o.reject _ _ rfl
  · exact .quiet_bind (o.terminate _) fun _ => o.modifyBody _

theorem misplaced (n : Node) : Guards S Q l (misplaced n) := by
  unfold Lower.misplaced
  split
  · exact o.reject _ _ rfl
  · exact o.breach _ trivial

theorem leave (site : Site) (result : Expr) : Guards S Q result.mentions (leave c site result) := by
  have refuse : ∀ (cause : Cause) {g : Unit → Lower Unit} {l : Multiset Mention},
      cause.isOrdinary = true → Guards S Q l (Lower.reject site.position cause >>= g) :=
    fun cause {g l} h => o.fails (.reject_bind h) (by simp)
  have ret : ∀ value, Guards S Q 0 (Lower.terminate (.ret value) >>= fun _ => moveNowhere) :=
    fun _ => .quiet_bind (o.terminate _) fun _ => o.modifyBody _
  refine .get_bind fun s => ?_
  dsimp only
  cases s.body.head with
  | none => exact o.reject _ _ rfl
  | some h =>
    refine .ite' (.ite' (o.mono (ret none) (Multiset.zero_le _)) (refuse _ rfl)) ?_
    exact .ite' (refuse _ rfl) (.bind_quiet (o.valueAs _ _) fun v => ret (some v))

theorem variableAt (name : String) (site : Site) : Guards S Q 0 (variableAt c name site) :=
  o.ask (plain_variableAt _ _ _) (asks_variableAt _ _ _)

end Watches

namespace Encloses

variable {c : Context} (o : Encloses c S Q) {m : Lower Unit}

include o

/-! ### Definitions -/

theorem bindVariable (v : ObjectId) (value : Ir.Value) : Guards S Q 0 (bindVariable v value) :=
  o.plain (.modify' fun _ => rfl) fun _ => .modify' fun _ hs => o.bind v value hs

theorem reports (e : Event) : Guards S Q 0 (Lower.report e) := by
  intro k
  rw [zero_add]
  exact .modify' fun _ hs => o.report _ hs

theorem defineVariable (d : VarDecl)
    (global : d.MayBeGlobal c → ∀ k content, Always (Preserves (S k)) (addGlobal d.name content)) :
    Guards S Q d.value.mentions (defineVariable c d) := by
  have defineGlobal : ∀ v type, d.MayBeGlobal c →
      Guards S Q d.value.mentions (defineGlobal c d v type) := by
    intro v type hd
    refine .quiet_bind (o.plain (plain_addGlobal _ _) fun k => global hd k _) fun g => ?_
    refine .ite' (o.mono (o.bindVariable _ _) (Multiset.zero_le _))
      (.bind_quiet (o.valueAs _ _) fun init => .ite' ?_ ?_)
    · exact .quiet_bind (o.step (.modify' fun _ => rfl) fun t => t.content _ _ fun _ => rfl)
        fun _ => o.bindVariable _ _
    · exact .quiet_bind (o.store _ _) fun _ => o.bindVariable _ _
  have defineLocal : ∀ v type, Guards S Q d.value.mentions (defineLocal c d v type) := by
    intro v type
    have rest : ∀ init, Guards S Q 0 (do
        let slot ← stackSlot type none
        Lower.store init slot
        Lower.bindVariable v slot) := fun init =>
      .quiet_bind (o.slot _ _) fun _ => .quiet_bind (o.store _ _) fun _ => o.bindVariable _ _
    unfold Lower.defineLocal
    split
    · exact o.mono (.quiet_bind (.pure' _) rest) (Multiset.zero_le _)
    · exact .bind_quiet (o.valueAs _ _) rest
  cases hv : c.analysis.resolve d.name (some d.site) with
  | none =>
    unfold Lower.defineVariable
    simp only [Lower.variableAt, hv]
    exact o.fails (.reject_bind rfl) (by simp)
  | some v =>
    unfold Lower.defineVariable
    simp only [Lower.variableAt, hv, pure_bind]
    refine .ite' (o.reject _ _ rfl) (.quiet_bind (o.instructionType _) fun type k => ?_)
    refine .ite' (fun hg => defineGlobal v type ⟨v, hv, .inl hg⟩ k) fun _ => ?_
    refine .bind_at (fun s hs f s' he => o.fault (plain_isLocal _ _) hs he)
      fun s here s' hs hr => ?_
    cases asks_isLocal c d.site s here s' hr
    have from_s : ∀ {m : Lower Unit}, Guards S Q d.value.mentions m → Passes (· = s) (S k) Q m :=
      fun hm => (hm k).mono (fun _ he => he ▸ hs) fun _ hk => hk
    cases here with
    | true => exact from_s (defineLocal v type)
    | false => exact from_s (defineGlobal v type ⟨v, hv, .inr (isLocal_eq_false hr)⟩)

theorem storeParams (fn : Ir.FuncId) (site : Site) :
    ∀ (i : Nat) (params : List (String × Ir.Ty)), Guards S Q 0 (storeParams c fn site i params)
  | _, [] => .pure' _
  | i, (_, _) :: rest =>
    .quiet_bind (o.variableAt _ _) fun _ => .quiet_bind (o.slot _ _) fun _ =>
      .quiet_bind (o.step (plain_storeAt _ _ _) fun t =>
        always_storeAt (fun _ _ _ => always_emitAt t.body .vars _ _) _ _) fun _ =>
          .quiet_bind (o.bindVariable _ _) fun _ => storeParams fn site (i + 1) rest

theorem withBody (body : Body) (h : Guards S Q l m) : Guards S Q l (withBody body m) := by
  intro k s hs
  obtain ⟨ok, err⟩ := h k (s.setBody body) ((o.tolerant _).body s body hs)
  refine ⟨fun u s' hr => ?_, fun f s' hr => err f s' (withBody_eq_error hr)⟩
  obtain ⟨s₁, h₁, rfl⟩ := withBody_eq_ok hr
  exact o.install s.body (ok () s₁ h₁)

/-- The body of a definition whose prototype was noted, from states with `P`. -/
theorem fillBody (h : FuncHead) (body : Block) (hm : Guards S Q l m) {k : Multiset Mention}
    {P : State → Prop} (rest : ∀ {s}, P s → S k s)
    (unprototyped : ∀ {s}, P s → h.Active c → s.prototypes.lookup h.site.id = some none →
      Q (.rejected h.site.position (.noPrototype h.name)) s)
    (twice : ∀ {s}, P s → h.site.id ∈ s.lowered → Q (.breach (.bodyTwice h.name)) s)
    (begin : ∀ {s} id exported, P s → S (l + k) (s.beginBody h.site.id id exported)) :
    Passes (fun s => P s ∧ (s.prototypes.lookup h.site.id).isSome) (S k) Q
      (fillBody c h body m) := by
  have inside : ∀ id site result types, Guards S Q l (do
      Lower.withBody { fn := id, head := some h, result } do
        Lower.storeParams c id site 0 ((h.params.map Prod.fst).zip types)
        m
        closeBody c
      let blocks := (((← get).module.funcs[id]?).map fun f => f.blocks.length).getD 0
      Lower.report (.loweredBody h.name blocks)) := fun id site result types =>
    .bind_quiet (o.withBody _ (.quiet_bind (o.storeParams _ _ _ _) fun _ => .bind_quiet hm fun _ =>
      o.step (plain_closeBody c) fun t => t.touches.closeBody)) fun _ =>
        .get_bind fun _ => o.reports _
  refine .ite' (fun _ => .pure' (fun _ hs => rest hs.1) _) fun hbody => ?_
  simp only [Bool.or_eq_true, not_or, Bool.not_eq_true, Bool.not_eq_false'] at hbody
  refine .bind_at (fun s hs f s' he => o.fault (plain_signatureOf c h) (rest hs.1) he) ?_
  rintro s sig s₁ ⟨hs, hp⟩ hsig
  obtain ⟨rfl, htype⟩ := signatureOf_eq_ok hsig
  refine .ite' (fun _ => .pure' (fun _ he => he ▸ rest hs) _) fun hactive => .get_bind ?_
  rintro s rfl
  rw [Bool.not_eq_true] at hactive
  have active : h.Active c := ⟨hbody.2, _, _, hactive ▸ htype⟩
  obtain ⟨proto, hproto⟩ := Option.isSome_iff_exists.mp hp
  cases proto with
  | none =>
    simp only [hproto]
    rintro _ rfl
    refine ⟨fun _ _ hr => (reject_ne_ok.mp hr).elim, fun f s' hr => ?_⟩
    obtain ⟨rfl, rfl⟩ := reject_eq_error.mp hr
    exact unprototyped hs active hproto
  | some id =>
    cases body with
    | missing => simp [FuncHead.hasBody, Block.isMissing] at hbody
    | mk site stmts =>
      simp only [hproto, Block.site?]
      refine .get_bind ?_
      rintro s rfl
      refine .ite' (fun hlow => ?_) fun _ => ?_
      · rintro _ rfl
        refine ⟨fun _ _ hr => by simp at hr, fun f s' hr => ?_⟩
        rcases bind_eq_error.mp hr with hr | ⟨_, _, hr, -⟩
        · obtain ⟨rfl, rfl⟩ := breach_eq_error.mp hr
          exact twice hs (by simpa using hlow)
        · simp at hr
      · -- the definition is met here, and exported or not, its body is what is left
        have begun : ∀ exported, S (l + k) (s.beginBody h.site.id id exported) := fun exported =>
          begin id exported hs
        refine .bind' (R := (· = { s with lowered := h.site.id :: s.lowered }))
          (.modify' fun _ he => by rw [he]) fun _ => .ite' (fun _ => ?_) fun _ => ?_
        · refine .bind' (R := (· = s.beginBody h.site.id id true))
            (.modify' fun _ he => by rw [he]; rfl) fun _ => .get_bind ?_
          rintro _ rfl
          exact (inside id site _ _ k).mono (fun _ he => he ▸ begun true) fun _ hk => hk
        · refine .get_bind ?_
          rintro _ rfl
          exact (inside id site _ _ k).mono (fun _ he => he ▸ begun false) fun _ hk => hk

end Encloses

/-! ## Statements -/

/-- What is known of a declaration; if it is a function, of its statements too. -/
structure Surveyed (c : Context) (S : Multiset Mention → State → Prop)
    (Q : Fault → State → Prop) (n : Node) : Prop where
  statement : Guards S Q (Node.total n.parts) (statement c n)
  body : ∀ h body, n.unwrap = .funcDecl h body →
    Guards S Q (Node.total body.parts) (blockStatements c body)

/-- What statements ask of `S` and `Q` besides, of declarations among the nodes `U`. -/
structure Surveys (c : Context) (U : Node → Prop) (S : Multiset Mention → State → Prop)
    (Q : Fault → State → Prop) : Prop extends Watches c S Q where
  varDecl : ∀ d, U (.varDecl d) → Guards S Q d.value.mentions (defineVariable c d)
  funcDecl : ∀ h body, U (.funcDecl h body) →
    Guards S Q (Node.total body.parts) (blockStatements c body) →
    Guards S Q ({.definition h} + Node.total body.parts) (statement c (.funcDecl h body))
  space : ∀ site name decls, (∀ m ∈ Node.partsAll decls, U m) →
    (∀ n ∈ decls, Surveyed c S Q n) →
    Guards S Q (Node.total (Node.partsAll decls)) (statement c (.space site name decls))

theorem Watches.statementsWhere {c : Context} (w : Watches c S Q) (keep : Node → Bool)
    {ns : List Node} (h : ∀ n ∈ ns, Surveyed c S Q n) :
    Guards S Q (Node.totalWhere keep ns) (statementsWhere c keep ns) := by
  induction ns with
  | nil =>
    unfold Lower.statementsWhere
    exact .pure' _
  | cons n ns ih =>
    have first := (h n List.mem_cons_self).statement
    have rest := ih fun m hm => h m (List.mem_cons_of_mem _ hm)
    unfold Lower.statementsWhere Node.totalWhere
    by_cases hk : keep n = true
    · simp only [hk, if_true]
      exact .append first fun _ => rest
    · simp only [hk]
      exact w.mono rest (by simp)

/-- Top-level code that fails ends in `Q` if its declarations do, and if it ends in `Q` where
    control does not get past them. -/
theorem Watches.unitCode {c : Context} (w : Watches c S Q) {decls : List Node}
    {P : State → Prop}
    (declarations : Passes P (S 0) Q (do
      emitLeading c (emissionOrder c.analysis false decls)
      Lower.statementsWhere c (takesTurn c.analysis false) decls))
    (fall : ∀ s s', P s → (do
        emitLeading c (emissionOrder c.analysis false decls)
        Lower.statementsWhere c (takesTurn c.analysis false) decls) s = .ok () s' →
      s'.body.cursor = none → Q (.rejected Position.none .noFallThrough) s')
    {s s' : State} {f : Fault} (hs : P s) (h : topLevel c decls s = .error f s') : Q f s' := by
  unfold Lower.topLevel at h
  rw [← bind_assoc] at h
  rcases bind_eq_error.mp h with h | ⟨_, s₁, h₁, h⟩
  · exact (declarations s hs).2 f s' h
  · rw [get_bind_apply] at h
    split at h
    · rename_i hdead
      rcases bind_eq_error.mp h with h | ⟨_, _, h, -⟩
      · obtain ⟨rfl, rfl⟩ := reject_eq_error.mp h
        exact fall s s₁ hs h₁ (by simpa using hdead)
      · simp at h
    · have past := (declarations s hs).1 () s₁ h₁
      exact w.fault (.bind' (plain_runEntry c _) fun _ => plain_terminate _) past h

namespace Surveys

variable {c : Context} {U : Node → Prop}

mutual

/-- Lowering a statement meets no more than what its parts mention. -/
theorem statement (o : Surveys c U S Q) :
    ∀ n : Node, (∀ m ∈ n.parts, U m) → Guards S Q (Node.total n.parts) (statement c n)
  | .labelled site label x, hn => by
    unfold Node.parts at hn
    unfold Lower.statement Node.parts
    exact o.mono (o.statement x (List.forall_mem_cons.mp hn).2) (Multiset.le_add_left _ _)
  | .expr e, _ => by
    unfold Lower.statement Node.parts
    exact o.mono (o.whenLive (.discard' (o.valueOf e))) (by simp [Node.own, Node.expressions])
  | .varDecl d, hn => by
    have define := o.varDecl d (hn _ (Node.self_mem_parts _))
    unfold Lower.statement Node.parts
    exact o.mono (o.whenLive define) (by simp [Node.own, Node.expressions])
  | .funcDecl h body, hn => by
    unfold Node.parts at hn
    obtain ⟨here, inside⟩ := List.forall_mem_cons.mp hn
    unfold Node.parts
    rw [Node.total_cons]
    exact o.funcDecl h body here (o.blockStatements body inside)
  | .structDecl d, _ => by
    unfold Lower.statement
    exact o.mono (o.whenLive (o.step (plain_enterStruct c d) fun t => t.touches.enterStruct d))
      (Multiset.zero_le _)
  | .space site name decls, hn => by
    unfold Node.parts at hn
    have inside := (List.forall_mem_cons.mp hn).2
    unfold Node.parts
    exact o.mono (o.space site name decls inside (o.eachStatement decls inside))
      (Multiset.le_add_left _ _)
  | .block b, hn => by
    unfold Node.parts at hn
    unfold Lower.statement Node.parts
    exact o.mono (o.whenLive (o.blockStatements b (List.forall_mem_cons.mp hn).2))
      (Multiset.le_add_left _ _)
  | .ifStmt site cond yes elifs no, hn => by
    unfold Node.parts at hn
    simp only [List.forall_mem_cons, List.forall_mem_append] at hn
    obtain ⟨-, hyes, helifs, hno⟩ := hn
    have last : ∀ (done : Ir.Label) (reached : Bool), Guards S Q (Node.total no.parts) (do
        let last ←
          if no.isMissing then pure false
          else
            Lower.blockStatements c no
            Lower.branchIfLive done
        Lower.closeConditional done (reached || last)) := fun done reached =>
      .ite' (o.mono (.quiet_bind (.pure' _) fun _ => o.closeConditional _ _) (Multiset.zero_le _))
        (.bind_quiet (o.blockStatements no hno) fun _ => .quiet_bind (o.branchIfLive _) fun _ =>
          o.closeConditional _ _)
    unfold Lower.statement Node.parts
    refine o.whenLive (.ite' (o.fails (.breach_bind trivial) (by simp)) ?_)
    refine o.mono (.quiet_bind (o.openBlock _) fun done =>
      .append (o.conditionalArm done cond (o.blockStatements yes hyes) _) fun _ =>
        .append (o.elifArms done no elifs helifs) fun _ => last done _) (le_of_eq ?_)
    simp only [Node.total_cons, Node.total_append, Node.own, Node.expressions, Node.conditions,
      Elif.total, List.map_cons, List.sum_cons]
    abel
  | .forStmt site init cond iter body, hn => by
    unfold Node.parts at hn
    simp only [List.forall_mem_cons, List.forall_mem_append] at hn
    obtain ⟨-, hinit, hiter, hbody⟩ := hn
    have first := o.statementsWhere (fun _ => true) (o.eachStatement init hinit)
    have next := o.statementsWhere (fun _ => true) (o.eachStatement iter hiter)
    rw [Node.totalWhere_true] at first next
    unfold Lower.statement Node.parts
    refine o.mono (o.whenLive (.append first fun _ =>
      o.whenLive (o.forLoop cond (o.blockStatements body hbody) next))) (le_of_eq ?_)
    simp only [Node.total_cons, Node.total_append, Node.own, Node.expressions, Node.conditions,
      List.map_cons, List.map_nil, List.sum_cons, List.sum_nil]
    abel
  | .whileStmt site cond body, hn => by
    unfold Node.parts at hn
    unfold Lower.statement Node.parts
    refine o.mono (o.whenLive (o.whileLoop cond
      (o.blockStatements body (List.forall_mem_cons.mp hn).2))) (le_of_eq ?_)
    simp [Node.own, Node.expressions, Node.conditions]
  | .branch site token, _ => by
    unfold Lower.statement
    exact o.mono (o.whenLive (o.jump site token)) (Multiset.zero_le _)
  | .ret site result, _ => by
    unfold Lower.statement Node.parts
    exact o.mono (o.whenLive (o.leave site result)) (by simp [Node.own, Node.expressions])
  | .typeRef _, _ | .program _ _, _ | .file _, _ | .elif _, _ => by
    unfold Lower.statement
    exact o.whenLive (o.misplaced _)

theorem blockStatements (o : Surveys c U S Q) :
    ∀ b : Block, (∀ m ∈ b.parts, U m) →
      Guards S Q (Node.total b.parts) (blockStatements c b)
  | .missing, _ => by
    unfold Lower.blockStatements
    exact o.breach _ trivial
  | .mk _ stmts, hn => by
    unfold Block.parts at hn
    have all := o.statementsWhere (fun _ => true) (o.eachStatement stmts hn)
    rw [Node.totalWhere_true] at all
    unfold Lower.blockStatements Block.parts
    exact all

theorem body_of_unwrap (o : Surveys c U S Q) :
    ∀ n : Node, (∀ m ∈ n.parts, U m) → ∀ h body, n.unwrap = .funcDecl h body →
      Guards S Q (Node.total body.parts) (Lower.blockStatements c body)
  | .labelled _ _ x, hn, _, _, he => by
    unfold Node.parts at hn
    exact o.body_of_unwrap x (List.forall_mem_cons.mp hn).2 _ _ he
  | .funcDecl _ body, hn, _, _, he => by
    unfold Node.parts at hn
    have inner := o.blockStatements body (List.forall_mem_cons.mp hn).2
    cases he
    exact inner
  | .expr _, _, _, _, he | .varDecl _, _, _, _, he | .structDecl _, _, _, _, he
  | .space _ _ _, _, _, _, he | .block _, _, _, _, he | .ifStmt _ _ _ _ _, _, _, _, he
  | .forStmt _ _ _ _ _, _, _, _, he | .whileStmt _ _ _, _, _, _, he | .branch _ _, _, _, _, he
  | .ret _ _, _, _, _, he | .typeRef _, _, _, _, he | .program _ _, _, _, _, he
  | .file _, _, _, _, he | .elif _, _, _, _, he => nomatch he

theorem eachStatement (o : Surveys c U S Q) :
    ∀ ns : List Node, (∀ m ∈ Node.partsAll ns, U m) → ∀ n ∈ ns, Surveyed c S Q n
  | [], _, _, hn => nomatch hn
  | m :: ns, h, n, hn => by
    unfold Node.partsAll at h
    obtain ⟨here, later⟩ := List.forall_mem_append.mp h
    have first : Surveyed c S Q m := ⟨o.statement m here, o.body_of_unwrap m here⟩
    rcases List.mem_cons.mp hn with rfl | hn
    · exact first
    · exact o.eachStatement ns later n hn

theorem elifArms (o : Surveys c U S Q) (done : Ir.Label) (no : Block) :
    ∀ es : List Elif, (∀ m ∈ Elif.partsAll es, U m) →
      Guards S Q (Elif.total es) (elifArms c done no es)
  | [], _ => by
    unfold Lower.elifArms
    exact .pure' _
  | .missing :: _, _ => by
    unfold Lower.elifArms
    exact o.breach _ trivial
  | .mk _ cond body :: rest, hn => by
    unfold Elif.partsAll Elif.parts at hn
    obtain ⟨here, later⟩ := List.forall_mem_append.mp hn
    have arm := fun otherwise => o.conditionalArm done cond (o.blockStatements body here) otherwise
    have tail := o.elifArms done no rest later
    unfold Lower.elifArms
    refine o.mono (.append (arm _) fun _ => .bind_quiet tail fun _ => .pure' _) (le_of_eq ?_)
    simp only [Elif.total, Elif.partsAll, Elif.parts, Node.total_append, List.filterMap_cons,
      Elif.condition?, List.map_cons, List.sum_cons]
    abel

end

end Surveys

namespace Oversees

variable {c : Context} (o : Oversees c S Q)

include o

theorem varDecl (d : VarDecl) : Guards S Q d.value.mentions (defineVariable c d) :=
  o.defineVariable d fun _ k => o.global k _

theorem funcDecl (h : FuncHead) (body : Block) (hb : Guards S Q l (blockStatements c body)) :
    Guards S Q ({.definition h} + l) (statement c (.funcDecl h body)) := by
  unfold statement
  refine o.whenLive fun k => ?_
  rw [add_assoc]
  have fill := o.fillBody h body hb (P := S ({.definition h} + (l + k)))
    (fun hs => o.less ((Multiset.le_add_left _ _).trans (Multiset.le_add_left _ _)) hs)
    (fun hs => o.unprototyped hs (by simp)) (fun hs => o.twice hs (by simp))
    fun id exported hs => o.begin id exported hs
  refine .get_bind fun s hs => .ite' (fun _ => ?_) fun hnoted => ?_
  · refine .bind_at (fun _ he f s' hr => ?_) fun _ _ s₁ he hr => ?_
    · exact (o.enter body (by simp) s hs).2 f s' (he ▸ hr)
    · have entered := (o.enter body (by simp) s hs).1 () s₁ (he ▸ hr)
      exact fill.mono (fun _ he => he ▸ ⟨entered, enterPrototype_notes hr⟩) fun _ hk => hk
  · have noted : (s.prototypes.lookup h.site.id).isSome := by
      simpa [Option.isSome_iff_ne_none] using hnoted
    exact fill.mono (fun _ he => he ▸ ⟨hs, noted⟩) fun _ hk => hk

/-! ### Declarations in order -/

/-- The prototypes of declarations to come. -/
theorem prototypes (inSpace : Bool) (decls : List Node) (k : Multiset Mention) :
    Passes (S (Node.total (Node.partsAll decls) + k)) (S (Node.total (Node.partsAll decls) + k)) Q
      ((emissionOrder c.analysis inSpace decls).funcs.forM fun (h, body) =>
        enterPrototype c h body) := by
  refine .forM_mem fun p hp => o.enter p.2 (Multiset.mem_add.mpr (.inl ?_))
  obtain ⟨n, hn, he⟩ := mem_funcs_emissionOrder.mp hp
  refine Multiset.mem_of_le (Node.own_le_total (he ▸ Node.unwrap_mem_partsAll hn)) ?_
  exact Multiset.mem_singleton_self _

/-- The variables that come first among declarations. -/
theorem leadingVariables (b : EmissionOrder) : Guards S Q b.mentions (do
    b.consts.forM (Lower.defineVariable c)
    b.globals.forM (Lower.defineVariable c)) :=
  .append (.forM_sum fun d _ => o.varDecl d) fun _ => .forM_sum fun d _ => o.varDecl d

/-- Declarations after their prototypes. -/
theorem afterPrototypes {inSpace : Bool} {decls : List Node}
    (turn : Guards S Q (Node.totalWhere (takesTurn c.analysis inSpace) decls)
      (statementsWhere c (takesTurn c.analysis inSpace) decls)) :
    Guards S Q (Node.total (Node.partsAll decls)) (do
      (emissionOrder c.analysis inSpace decls).consts.forM (Lower.defineVariable c)
      (emissionOrder c.analysis inSpace decls).globals.forM (Lower.defineVariable c)
      statementsWhere c (takesTurn c.analysis inSpace) decls) := by
  have both := Guards.append (o.leadingVariables (emissionOrder c.analysis inSpace decls))
    fun _ => turn
  rw [bind_assoc] at both
  exact o.mono both (emissionOrder_mentions_le _ _ _)

theorem space {decls : List Node} (site : Site) (name : String)
    (turn : Guards S Q (Node.totalWhere (takesTurn c.analysis true) decls)
      (statementsWhere c (takesTurn c.analysis true) decls)) :
    Guards S Q (Node.total (Node.partsAll decls)) (statement c (.space site name decls)) := by
  unfold statement
  refine o.whenLive (.quiet_bind (o.reports _) fun _ k => ?_)
  simp only [emitLeading, bind_assoc]
  exact (o.prototypes true decls k).bind' fun _ => o.afterPrototypes turn k

theorem surveys : Surveys c (fun _ => True) S Q where
  toWatches := o.toWatches
  varDecl d _ := o.varDecl d
  funcDecl h body _ hb := o.funcDecl h body hb
  space site name _ _ each := o.space site name (o.statementsWhere _ each)

omit o

/-! ### Units -/

/-- Top-level code that fails ends in `Q` if its prototypes do, and if it ends in `Q` where control
    does not get past its declarations. -/
theorem topLevel (o : Oversees c S Q) {decls : List Node} {P : State → Prop}
    (first : Passes P (S (Node.total (Node.partsAll decls))) Q
      ((emissionOrder c.analysis false decls).funcs.forM fun (h, body) =>
        Lower.enterPrototype c h body))
    (fall : ∀ s s', P s → (do
        emitLeading c (emissionOrder c.analysis false decls)
        Lower.statementsWhere c (takesTurn c.analysis false) decls) s = .ok () s' →
      s'.body.cursor = none → Q (.rejected Position.none .noFallThrough) s')
    {s s' : State} {f : Fault} (hs : P s) (h : topLevel c decls s = .error f s') : Q f s' := by
  refine o.unitCode ?_ fall hs h
  have each := o.surveys.eachStatement decls fun _ _ => trivial
  have rest := o.afterPrototypes (o.statementsWhere (takesTurn c.analysis false) each) 0
  rw [add_zero] at rest
  simp only [emitLeading, bind_assoc]
  exact first.bind' fun _ => rest

end Oversees

/-- A unit that fails does so in its top-level code. -/
theorem wholeUnit_eq_error {c : Context} {decls : List Node} {s s' : State} {f : Fault}
    (h : wholeUnit c decls s = .error f s') :
    ∃ trace, topLevel c decls ((State.declare { s with trace } (initFunction c.config)).setBody
      { fn := s.module.funcs.size }) = .error f s' := by
  unfold wholeUnit at h
  simp only [report_bind_apply] at h
  rcases bind_eq_error.mp h with h | ⟨init, s₁, h₁, h⟩
  · nomatch h
  · cases h₁
    exact ⟨_, withBody_eq_error h⟩

end Lower

theorem lowerUnit_eq_fault {analysis : Analysis} {config : Config} {decls : List Node}
    {f : Fault} (h : (lowerUnit analysis config decls).result = .error (.fault f)) :
    ∃ s, wholeUnit ⟨analysis, config⟩ decls { module := { triple := config.triple } } =
      .error f s := by
  unfold lowerUnit at h
  dsimp only at h
  cases hw : wholeUnit ⟨analysis, config⟩ decls { module := { triple := config.triple } } with
  | error f' s =>
    rw [hw] at h
    cases h
    exact ⟨s, rfl⟩
  | ok u s =>
    rw [hw] at h
    dsimp only at h
    split at h
    · split at h <;> cases h
    · cases h

end TreeLowering
