import Mathlib.Algebra.Order.Group.Multiset
import TreeLowering.Proofs.Faults
import TreeLowering.Proofs.Traversal

/-!
What a run relies on, and what a failing run ends in.

A tree mentions variables and defines functions; each of its mentions is met at most once while it
is lowered. `S k` is what holds of a state while the mentions `k` are still to come, and gets weaker
as they are met. `Guards S Q l m` says that `m` meets the mentions `l`: from a state where they and
any others are to come it leaves the others to come, and if it fails, the fault and the state
satisfy `Q`. As `k` is arbitrary, steps in a row add up.

`Watches c S Q` says what is to be known of `S` and `Q` for the single steps of expressions. Then
every expression meets the variables that it refers to (`Watches.valueOf`).
-/
namespace TreeLowering

open Lower

/-! ## Mentions -/

/-- What a tree mentions: a variable by name, or a function that it defines. -/
inductive Mention where
  | reference (name : String) (site : Site)
  | definition (head : FuncHead)

mutual

/-- The variables that an expression refers to, called functions included. -/
def Expr.mentions : Expr → Multiset Mention
  | .varRef site name _ => {.reference name site}
  | .call site name args => {.reference name site} + Expr.mentionsAll args
  | .structLit _ _ args | .arrayLit _ args => Expr.mentionsAll args
  | .selector _ x _ _ | .unary _ _ x | .cast _ x _ => x.mentions
  | .index _ x y | .assign _ x y | .binary _ _ x y => x.mentions + y.mentions
  | .absent | .arrayAlloc _ _ _ | .intLit _ _ | .floatLit _ _ | .boolLit _ _ | .stringLit _ _ => 0

/-- The variables that some expressions refer to. -/
def Expr.mentionsAll : List Expr → Multiset Mention
  | [] => 0
  | e :: es => e.mentions + Expr.mentionsAll es

end

namespace Lower

variable {α β : Type}

/-! ## Runs that may fail -/

/-- A run from a state with `P` ends in one with `R` if it succeeds, and in `Q` if it fails. -/
def Passes (P R : State → Prop) (Q : Fault → State → Prop) (m : Lower α) : Prop :=
  ∀ s, P s → (∀ a s', m s = .ok a s' → R s') ∧ ∀ f s', m s = .error f s' → Q f s'

namespace Passes

variable {P R T : State → Prop} {Q : Fault → State → Prop} {m : Lower α} {g : α → Lower β}

theorem bind' (hm : Passes P R Q m) (hg : ∀ a, Passes R T Q (g a)) :
    Passes P T Q (m >>= g) := by
  intro s hs
  obtain ⟨ok, err⟩ := hm s hs
  constructor
  · intro b s' h
    obtain ⟨a, s₁, h₁, h₂⟩ := bind_eq_ok.mp h
    exact (hg a s₁ (ok a s₁ h₁)).1 b s' h₂
  · intro f s' h
    rcases bind_eq_error.mp h with h | ⟨a, s₁, h₁, h₂⟩
    · exact err f s' h
    · exact (hg a s₁ (ok a s₁ h₁)).2 f s' h₂

/-- What the first step did may be used for the second. -/
theorem bind_at (hm : ∀ s, P s → ∀ f s', m s = .error f s' → Q f s')
    (hg : ∀ s a s', P s → m s = .ok a s' → Passes (· = s') T Q (g a)) :
    Passes P T Q (m >>= g) := by
  intro s hs
  constructor
  · intro b s' h
    obtain ⟨a, s₁, h₁, h₂⟩ := bind_eq_ok.mp h
    exact (hg s a s₁ hs h₁ s₁ rfl).1 b s' h₂
  · intro f s' h
    rcases bind_eq_error.mp h with h | ⟨a, s₁, h₁, h₂⟩
    · exact hm s hs f s' h
    · exact (hg s a s₁ hs h₁ s₁ rfl).2 f s' h₂

theorem get_bind {g : State → Lower α} (hg : ∀ s, P s → Passes (· = s) R Q (g s)) :
    Passes P R Q (get >>= g) := fun s hs => hg s hs s rfl

theorem ite' {p : Prop} [Decidable p] {x y : Lower α} (hx : p → Passes P R Q x)
    (hy : ¬p → Passes P R Q y) : Passes P R Q (if p then x else y) := by
  split
  · exact hx ‹_›
  · exact hy ‹_›

theorem modify' {g : State → State} (hg : ∀ s, P s → R (g s)) :
    Passes P R Q (modify g : Lower PUnit) := by
  intro s hs
  refine ⟨fun _ s' h => ?_, fun _ _ h => nomatch h⟩
  cases h
  exact hg s hs

theorem mono {U : State → Prop} (h : Passes P R Q m) (hp : ∀ s, U s → P s)
    (hq : ∀ s, R s → T s) : Passes U T Q m := fun s hs =>
  ⟨fun a s' ha => hq s' ((h s (hp s hs)).1 a s' ha), (h s (hp s hs)).2⟩

theorem pure' (h : ∀ s, P s → R s) (a : α) : Passes P R Q (pure a) := by
  intro s hs
  refine ⟨fun b s' hb => ?_, fun _ _ h => nomatch h⟩
  obtain ⟨-, rfl⟩ := pure_eq_ok.mp hb
  exact h s hs

theorem forM_mem {g : α → Lower PUnit} {l : List α} (hg : ∀ a ∈ l, Passes P P Q (g a)) :
    Passes P P Q (l.forM g) := by
  induction l with
  | nil => exact .pure' (fun _ h => h) _
  | cons a l ih =>
    exact .bind' (hg a List.mem_cons_self) fun _ => ih fun b hb => hg b (List.mem_cons_of_mem _ hb)

end Passes

/-- The step meets the mentions `l`, whatever else is to come. -/
def Guards (S : Multiset Mention → State → Prop) (Q : Fault → State → Prop)
    (l : Multiset Mention) (m : Lower α) : Prop :=
  ∀ k, Passes (S (l + k)) (S k) Q m

variable {S : Multiset Mention → State → Prop} {Q : Fault → State → Prop}
  {l l' : Multiset Mention}

namespace Guards

variable {m : Lower α} {g : α → Lower β}

theorem append (hm : Guards S Q l m) (hg : ∀ a, Guards S Q l' (g a)) :
    Guards S Q (l + l') (m >>= g) := by
  intro k
  rw [add_assoc]
  exact (hm (l' + k)).bind' fun a => hg a k

theorem quiet_bind (hm : Guards S Q 0 m) (hg : ∀ a, Guards S Q l (g a)) :
    Guards S Q l (m >>= g) := by
  have both := append hm hg
  rwa [zero_add] at both

theorem bind_quiet (hm : Guards S Q l m) (hg : ∀ a, Guards S Q 0 (g a)) :
    Guards S Q l (m >>= g) := by
  have both := append hm hg
  rwa [add_zero] at both

theorem pure' (a : α) : Guards S Q 0 (pure a) := by
  intro k
  rw [zero_add]
  exact .pure' (fun _ h => h) a

theorem get_bind {g : State → Lower α} (hg : ∀ s, Guards S Q l (g s)) :
    Guards S Q l (get >>= g) := fun k s hs => hg s k s hs

theorem ite' {p : Prop} [Decidable p] {x y : Lower α} (hx : Guards S Q l x)
    (hy : Guards S Q l y) : Guards S Q l (if p then x else y) :=
  fun k => .ite' (fun _ => hx k) fun _ => hy k

theorem discard' (h : Guards S Q l m) : Guards S Q l (discard m) := by
  intro k s hs
  obtain ⟨ok, err⟩ := h k s hs
  refine ⟨fun _ s' hm => ?_, fun f s' hm => err f s' (discard_eq_error.mp hm)⟩
  obtain ⟨a, ha⟩ := discard_eq_ok.mp hm
  exact ok a s' ha

theorem forM_sum {g : α → Lower PUnit} {k : α → Multiset Mention} {xs : List α}
    (h : ∀ a ∈ xs, Guards S Q (k a) (g a)) : Guards S Q (xs.map k).sum (xs.forM g) := by
  induction xs with
  | nil => exact .pure' _
  | cons a xs ih =>
    rw [List.map_cons, List.sum_cons]
    exact .append (h a List.mem_cons_self) fun _ => ih fun b hb => h b (List.mem_cons_of_mem _ hb)

end Guards

/-! ## Expressions -/

/-- What expressions ask of `S` and `Q`: more to come says more, ordinary faults, with no report on
    the way, and references to unbound variables may end a run, and `S` does not look at what
    expressions change. -/
structure Watches (c : Context) (S : Multiset Mention → State → Prop) (Q : Fault → State → Prop) :
    Prop where
  less : ∀ {l l' s}, l ≤ l' → S l' s → S l s
  ordinary : ∀ {k f s s'}, S k s → s'.trace = s.trace → f.IsOrdinary → Q f s'
  tolerant : ∀ k, Tolerant c (Preserves (S k))
  unbound : ∀ {name site v k s}, S k s → .reference name site ∈ k →
    c.analysis.resolve name (some site) = some v → s.values.lookup v = none →
    Q (.rejected site.position (.usedBeforeDefinition (c.analysis.store.nameOf v))) s

namespace Watches

variable {c : Context} (w : Watches c S Q) {m : Lower α}

include w

theorem mono (h : Guards S Q l m) (hle : l ≤ l') : Guards S Q l' m := by
  obtain ⟨d, rfl⟩ := Multiset.le_iff_exists_add.mp hle
  intro k
  rw [add_assoc]
  exact (h (d + k)).mono (fun _ hs => hs) fun _ hs => w.less (Multiset.le_add_left _ _) hs

theorem fault {k : Multiset Mention} {s s' : State} {f : Fault} (hp : Plain m) (hs : S k s)
    (h : m s = .error f s') : Q f s' :=
  w.ordinary hs ((hp s).2 f s' h).2 (hp.fault h)

theorem plain (hp : Plain m) (hs : ∀ k, Always (Preserves (S k)) m) : Guards S Q 0 m := by
  intro k s hk
  rw [zero_add] at hk
  exact ⟨fun a s' h => hs k s a s' h hk, fun _ _ h => w.fault hp hk h⟩

/-- A step of expressions that mentions nothing. -/
theorem step (hp : Plain m)
    (ht : ∀ {r : State → State → Prop} [Lasting r], Tolerant c r → Always r m) :
    Guards S Q 0 m := w.plain hp fun k => ht (w.tolerant k)

theorem ask (hp : Plain m) (ha : Asks m) : Guards S Q 0 m := w.step hp fun _ => .of_asks ha

/-- A step that always fails meets anything. -/
theorem fails (hp : Plain m) (hn : ∀ s a s', m s ≠ .ok a s') : Guards S Q l m :=
  fun _ s hk => ⟨fun a s' h => absurd h (hn s a s'), fun _ _ h => w.fault hp hk h⟩

theorem reject (p : Position) (cause : Cause) (h : cause.isOrdinary = true) :
    Guards S Q l (reject p cause : Lower α) := w.fails (.reject' p cause h) (by simp)

theorem breach (b : Breach) (h : (Fault.breach b).IsOrdinary) :
    Guards S Q l (breach b : Lower α) := w.fails (.breach' b h) (by simp)

theorem described_reject (e : Expr) (pos : Position) (cause : Bytes → Cause)
    (h : ∀ text, (cause text).isOrdinary = true) :
    Guards S Q l (do Lower.reject pos (cause (← described e)) : Lower α) :=
  w.fails (.described_reject e pos cause h) (by simp)

theorem siteOf_reject (e : Expr) (cause : Bytes → Cause)
    (h : ∀ text, (cause text).isOrdinary = true) :
    Guards S Q l (do
      let s ← siteOf e
      Lower.reject s.position (cause (← described e)) : Lower α) :=
  w.fails (.siteOf_reject e cause h) (by simp)

theorem emit (inst : Ir.Inst) (type : Ir.Ty) : Guards S Q 0 (emit inst type) :=
  w.step (plain_emit _ _) fun t => always_emitAt t.body .cursor _ _

theorem slot (type : Ir.Ty) (count : Option Ir.Value) : Guards S Q 0 (stackSlot type count) :=
  w.step (plain_stackSlot _ _) fun t => t.touches.slot _ _

theorem store (value place : Ir.Value) : Guards S Q 0 (store value place) :=
  w.step (plain_storeAt _ _ _) fun t => t.touches.store _ _

theorem instructionType (type : Ty) : Guards S Q 0 (instructionType c type) :=
  w.step (plain_instructionType _ _) fun t => t.instructionType _

theorem convert (v : Ir.Value) (unsigned toUnsigned : Bool) (target : Ir.Ty) :
    Guards S Q 0 (convert v unsigned toUnsigned target) :=
  w.step (plain_convert _ _ _ _) fun t => t.touches.convert _ _ _ _

theorem convertTo (e : Expr) (v : Ir.Value) (type : Ty) : Guards S Q 0 (convertTo c e v type) :=
  w.step (plain_convertTo _ _ _ _) fun t => t.touches.convertTo _ _ _

theorem truth (e : Expr) (v : Ir.Value) : Guards S Q 0 (truth e v) :=
  w.step (plain_truth _ _) fun t => t.touches.truth _ _

theorem elementAddress (type : Ir.Ty) (base index : Ir.Value) :
    Guards S Q 0 (elementAddress type base index) :=
  w.step (plain_elementAddress _ _ _) fun t => t.touches.elementAddress _ _ _

theorem fieldPlace (site : Site) (field : String) (base : Ir.Value) (type : Ty) :
    Guards S Q 0 (fieldPlace c site field base type) :=
  w.step (plain_fieldPlace _ _ _ _ _) fun t => t.touches.fieldPlace _ _ _ _

theorem typeOfExpr (e : Expr) : Guards S Q 0 (typeOfExpr c e) :=
  w.ask (plain_typeOfExpr _ _) (asks_typeOfExpr _ _)

theorem pointeeType (e : Expr) (v : Ir.Value) : Guards S Q 0 (pointeeType e v) :=
  w.ask (plain_pointeeType _ _) (asks_pointeeType _ _)

theorem cursor : Guards S Q 0 cursor := w.ask plain_cursor asks_cursor

theorem openBlock (name : String) : Guards S Q 0 (openBlock name) :=
  w.step (plain_openBlock _) fun t => t.touches.openBlock _

theorem terminate (t : Ir.Term) : Guards S Q 0 (terminate t) :=
  w.step (plain_terminate _) fun t => t.touches.terminate _

theorem modifyBody (f : Body → Body) : Guards S Q 0 (modifyBody f) :=
  w.step (.modify' fun _ => rfl) fun t => always_modifyBody t.body _

theorem moveTo (label : Ir.Label) : Guards S Q 0 (moveTo label) := w.modifyBody _

/-! ### Variables -/

/-- A variable is looked up and found bound, or the reference ends the run. -/
theorem named (name : String) (site : Site) {g : ObjectId → Ir.Value → Lower α}
    (hg : ∀ v place, Guards S Q 0 (g v place)) :
    Guards S Q {.reference name site} (do
      let v ← variableAt c name site
      let place ← boundTo c v site
      g v place) := by
  intro k s hs
  cases hv : c.analysis.resolve name (some site) with
  | none =>
    simp only [variableAt, hv]
    exact w.fails (.reject_bind rfl) (by simp) k s hs
  | some v =>
    have found : (variableAt c name site >>= fun v => boundTo c v site >>= g v) s =
        (boundTo c v site >>= g v) s := by
      rw [variableAt, hv]
      rfl
    rw [found]
    cases hb : s.values.lookup v with
    | some place =>
      have bound : (boundTo c v site >>= g v) s = g v place s := by
        simp only [boundTo, bind_assoc, get_bind_apply, hb]
        rfl
      rw [bound]
      have rest : S k s := w.less (Multiset.le_add_left _ _) hs
      exact hg v place k s (by rwa [zero_add])
    | none =>
      have missing : (boundTo c v site >>= g v) s = .error
          (.rejected site.position (.usedBeforeDefinition (c.analysis.store.nameOf v))) s := by
        simp only [boundTo, bind_assoc, get_bind_apply, hb]
        rfl
      rw [missing]
      refine ⟨fun _ _ h => (nomatch h), fun f s' h => ?_⟩
      cases h
      exact w.unbound hs (by simp) hv hb

theorem readVariable (site : Site) (name : String) (step : Coded Step) :
    Guards S Q {.reference name site} (readVariable c site name step) := by
  refine w.named name site fun v place => .ite' (.ite' (.pure' _) (w.reject _ _ rfl)) ?_
  refine .quiet_bind (w.instructionType _) fun type => .quiet_bind (w.emit _ _) fun old => ?_
  split
  · exact w.breach _ trivial
  · split
    · exact .pure' _
    · exact .quiet_bind (w.step (plain_stepBy _ _ _ _) fun t => t.touches.stepBy _ _ _ _) fun _ =>
        .quiet_bind (w.store _ _) fun _ => .pure' _

theorem variablePlace (site : Site) (name : String) :
    Guards S Q {.reference name site} (variablePlace c site name) :=
  w.named name site fun _ _ =>
    .ite' (w.reject _ _ rfl) (.quiet_bind (w.instructionType _) fun _ => .pure' _)

theorem callTarget (site : Site) (name : String) (given : Nat) :
    Guards S Q {.reference name site} (callTarget c site name given) := by
  refine w.named name site fun v place => ?_
  have rest : ∀ callee, Guards S Q 0 (calleeParams c site name given v callee) := fun callee =>
    w.ask (plain_calleeParams _ _ _ _ _ _) (asks_calleeParams _ _ _ _ _ _)
  split
  · exact .quiet_bind (.pure' _) rest
  · exact .quiet_bind (w.instructionType _) fun _ => .quiet_bind (w.emit _ _) rest

/-! ### Operands -/

theorem shortCircuit (isAnd : Bool) (x y : Expr) {left right : Lower Ir.Value}
    (hl : Guards S Q l left) (hr : Guards S Q l' right) :
    Guards S Q (l + l') (shortCircuit isAnd x y left right) := by
  refine .append hl fun _ => ?_
  refine .quiet_bind (w.truth _ _) fun _ => .quiet_bind w.cursor fun _ => ?_
  refine .quiet_bind (w.openBlock _) fun _ => .quiet_bind (w.openBlock _) fun _ => ?_
  refine .quiet_bind (w.terminate _) fun _ => .quiet_bind (w.moveTo _) fun _ => ?_
  exact .bind_quiet hr fun _ => .quiet_bind (w.truth _ _) fun _ => .quiet_bind w.cursor fun _ =>
    .quiet_bind (w.terminate _) fun _ => .quiet_bind (w.moveTo _) fun _ => w.emit _ _

theorem binaryValue (site : Site) (op : Coded BinaryOp) (x y : Expr)
    {left right : Lower Ir.Value} (hl : Guards S Q l left) (hr : Guards S Q l' right) :
    Guards S Q (l + l') (binaryValue c site op x y left right) := by
  refine .ite' (w.shortCircuit _ x y hl hr) (.append hl fun xv => ?_)
  split
  · exact .bind_quiet hr fun _ => .quiet_bind (w.convert _ _ _ _) fun _ =>
      w.step (plain_onIntegers _ _ _ _) fun t => t.touches.onIntegers _ _ _ _
  · exact .bind_quiet hr fun _ => .quiet_bind (w.convert _ _ _ _) fun _ =>
      w.step (plain_onFloats _ _ _ _) fun t => t.touches.onFloats _ _ _ _
  · exact .bind_quiet hr fun _ =>
      w.step (plain_onPointers _ _ _ _ _) fun t => t.touches.onPointers _ _ _ _ _
  · exact w.described_reject x _ _ fun _ => rfl

theorem unaryValue (site : Site) (op : Coded UnaryOp) (x : Expr) {value : Lower Ir.Value}
    {place : Lower (Ir.Value × Ir.Ty)} (hv : Guards S Q l value) (hp : Guards S Q l place) :
    Guards S Q l (unaryValue site op x value place) := by
  unfold Lower.unaryValue
  split
  · exact hv
  · refine .bind_quiet hv fun v => ?_
    split
    · exact w.emit _ _
    · exact w.emit _ _
    · exact w.described_reject x _ _ fun _ => rfl
  · exact .bind_quiet hv fun v => .quiet_bind (w.truth _ _) fun _ => w.emit _ _
  · refine .bind_quiet hv fun v => ?_
    split
    · exact w.emit _ _
    · exact w.described_reject x _ _ fun _ => rfl
  · exact .bind_quiet hp fun _ => .pure' _
  · exact .bind_quiet hv fun p => .quiet_bind (w.pointeeType x p) fun _ => w.emit _ _
  · exact w.described_reject x _ _ fun _ => rfl

theorem castValue (x : Expr) (target : Option TypeRef) {value : Lower Ir.Value}
    (hv : Guards S Q l value) : Guards S Q l (castValue c x target value) :=
  .quiet_bind (w.ask (plain_typeOfRef _ _) (asks_typeOfRef c target)) fun _ =>
    .bind_quiet hv fun _ => .ite' (w.truth _ _) (w.convertTo _ _ _)

theorem addressOrSlot (e : Expr) {value : Lower Ir.Value} {place : Lower (Ir.Value × Ir.Ty)}
    (hv : Guards S Q l value) (hp : Guards S Q l place) :
    Guards S Q l (addressOrSlot c e value place) :=
  .quiet_bind (w.ask (plain_hasPlace _ _) (asks_hasPlace c e)) fun _ =>
    .ite' (.bind_quiet hp fun _ => .pure' _) (.bind_quiet hv fun _ =>
      .quiet_bind (w.slot _ _) fun _ => .quiet_bind (w.store _ _) fun _ => .pure' _)

theorem selectorPlace (site : Site) (x : Expr) (field : String) (arrow : Bool)
    {value : Lower Ir.Value} {place : Lower (Ir.Value × Ir.Ty)} (hv : Guards S Q l value)
    (hp : Guards S Q l place) :
    Guards S Q l (selectorPlace c site x field arrow value place) := by
  refine .ite' (.quiet_bind (w.typeOfExpr x) fun _ => ?_) ?_
  · split
    · exact .bind_quiet hv fun _ => w.fieldPlace _ _ _ _
    · exact w.described_reject x _ _ fun _ => rfl
  · exact .bind_quiet (w.addressOrSlot x hv hp) fun _ =>
      .quiet_bind (w.typeOfExpr x) fun _ => w.fieldPlace _ _ _ _

theorem indexPlace (site : Site) (x : Expr) {value index : Lower Ir.Value}
    (hv : Guards S Q l value) (hi : Guards S Q l' index) :
    Guards S Q (l + l') (indexPlace c site x value index) := by
  have rest : ∀ (data : Ir.Value) (et : Ty), Guards S Q l' (do
      let elem ← Lower.instructionType c et
      let i ← index
      let q ← Lower.elementAddress elem data i
      pure (q, elem)) := fun _ et =>
    .quiet_bind (w.instructionType et) fun _ => .bind_quiet hi fun _ =>
      .quiet_bind (w.elementAddress _ _ _) fun _ => .pure' _
  refine .quiet_bind (w.typeOfExpr x) fun type => ?_
  dsimp only
  split
  · exact .append hv fun data => rest data _
  · split
    · exact .append hv fun _ => .quiet_bind
        (w.step (plain_extractData _) fun t => t.touches.extractData _) fun data => rest data _
    · refine w.fails ?_ (by simp)
      exact .bind' (plain_described x) fun _ => .reject_bind rfl

omit w

/-! ### Whole expressions -/

mutual

/-- Lowering an expression meets the variables that it refers to. -/
theorem valueOf (w : Watches c S Q) : ∀ e : Expr, Guards S Q e.mentions (valueOf c e)
  | .absent => w.breach _ trivial
  | .intLit site value =>
    w.step (plain_intConstant _ _ _) fun t => t.touches.intConstant site value
  | .floatLit site bits =>
    w.step (plain_floatConstant _ _ _) fun t => t.touches.floatConstant site bits
  | .boolLit _ value => .pure' _
  | .stringLit site content =>
    w.step (plain_stringValue _ _ _) fun t => t.stringValue site content
  | .varRef site name step => w.readVariable site name step
  | .call site name args => by
    unfold Lower.valueOf Expr.mentions
    exact .append (w.callTarget _ _ _) fun target =>
      .bind_quiet (w.arguments target.2 args) fun _ => w.emit _ _
  | .structLit site name args => by
    unfold Lower.valueOf Expr.mentions
    refine .quiet_bind (w.typeOfExpr _) fun _ => ?_
    split
    · exact w.reject _ _ rfl
    · refine .ite' (w.reject _ _ rfl) (.quiet_bind (w.instructionType _) fun _ => ?_)
      exact .quiet_bind (w.slot _ _) fun _ =>
        .bind_quiet (w.storeFields _ _ _ _ args) fun _ => w.emit _ _
  | .arrayLit site elems => by
    unfold Lower.valueOf Expr.mentions
    refine .quiet_bind (w.typeOfExpr _) fun _ => ?_
    split
    · exact w.reject _ _ rfl
    · exact .quiet_bind (w.instructionType _) fun _ => .quiet_bind
        (w.step (plain_allocateArray _ _ _ _) fun t => t.touches.allocateArray _ _ _) fun _ =>
          .bind_quiet (w.storeElements _ _ _ _ elems) fun _ => w.emit _ _
  | .arrayAlloc site length elem =>
    w.step (plain_unfilledArray _ _ _ _) fun t => t.touches.unfilledArray site length elem
  | .selector site x field arrow => by
    unfold Lower.valueOf Expr.mentions
    exact .bind_quiet (w.selectorPlace site x field arrow (w.valueOf x) (w.placeOf x)) fun _ =>
      w.emit _ _
  | .index site x i => by
    unfold Lower.valueOf Expr.mentions
    exact .bind_quiet (w.indexPlace site x (w.valueOf x) (w.valueOf i)) fun _ => w.emit _ _
  | .assign _ target value => by
    unfold Lower.valueOf Expr.mentions
    exact .append (w.placeOf target) fun _ => .bind_quiet (w.valueOf value) fun _ =>
      .quiet_bind (w.convert _ _ _ _) fun _ => .quiet_bind (w.store _ _) fun _ => .pure' _
  | .binary site op x y => by
    unfold Lower.valueOf Expr.mentions
    exact w.binaryValue site op x y (w.valueOf x) (w.valueOf y)
  | .unary site op x => by
    unfold Lower.valueOf Expr.mentions
    exact w.unaryValue site op x (w.valueOf x) (w.placeOf x)
  | .cast _ x target => by
    unfold Lower.valueOf Expr.mentions
    exact w.castValue x target (w.valueOf x)

theorem placeOf (w : Watches c S Q) : ∀ e : Expr, Guards S Q e.mentions (placeOf c e)
  | .varRef site name step => by
    unfold Lower.placeOf
    split
    case h_1 heq =>
      cases heq
      exact w.variablePlace _ _
    all_goals first
      | exact w.siteOf_reject _ _ fun _ => rfl
      | (rename_i heq; cases heq)
  | .selector site x field arrow => by
    unfold Lower.placeOf Expr.mentions
    exact w.selectorPlace site x field arrow (w.valueOf x) (w.placeOf x)
  | .index site x i => by
    unfold Lower.placeOf Expr.mentions
    exact w.indexPlace site x (w.valueOf x) (w.valueOf i)
  | .unary site op x => by
    have value := w.valueOf x
    unfold Lower.placeOf Expr.mentions
    split
    case h_4 heq =>
      cases heq
      exact .bind_quiet value fun p => .quiet_bind (w.pointeeType x p) fun _ => .pure' _
    all_goals first
      | exact w.siteOf_reject _ _ fun _ => rfl
      | (rename_i heq; cases heq)
  | .absent | .structLit _ _ _ | .call _ _ _ | .arrayLit _ _ | .arrayAlloc _ _ _
  | .assign _ _ _ | .binary _ _ _ _ | .cast _ _ _ | .intLit _ _ | .floatLit _ _
  | .boolLit _ _ | .stringLit _ _ => by
    unfold Lower.placeOf
    exact w.siteOf_reject _ _ fun _ => rfl

theorem arguments (w : Watches c S Q) :
    ∀ (params : List (Ir.Ty × Bool)) (es : List Expr),
      Guards S Q (Expr.mentionsAll es) (arguments c params es)
  | _, [] => by
    unfold Lower.arguments Expr.mentionsAll
    exact .pure' _
  | [], e :: es => by
    unfold Lower.arguments Expr.mentionsAll
    exact .append (w.valueOf e) fun _ => .bind_quiet (w.arguments [] es) fun _ => .pure' _
  | (_, _) :: ps, e :: es => by
    unfold Lower.arguments Expr.mentionsAll
    exact .append (w.valueOf e) fun _ => .quiet_bind (w.convert _ _ _ _) fun _ =>
      .bind_quiet (w.arguments ps es) fun _ => .pure' _

theorem storeElements (w : Watches c S Q) (et : Ty) (elem : Ir.Ty) (buffer : Ir.Value) :
    ∀ (i : Nat) (es : List Expr),
      Guards S Q (Expr.mentionsAll es) (storeElements c et elem buffer i es)
  | _, [] => by
    unfold Lower.storeElements Expr.mentionsAll
    exact .pure' _
  | i, e :: es => by
    unfold Lower.storeElements Expr.mentionsAll
    exact .append (w.valueOf e) fun _ => .quiet_bind (w.convertTo _ _ _) fun _ =>
      .quiet_bind (w.elementAddress _ _ _) fun _ => .quiet_bind (w.store _ _) fun _ =>
        w.storeElements et elem buffer (i + 1) es

theorem storeFields (w : Watches c S Q) (type : Ir.Ty) (slot : Ir.Value) :
    ∀ (i : Nat) (ts : List Ty) (es : List Expr),
      Guards S Q (Expr.mentionsAll es) (storeFields c type slot i ts es)
  | _, _, [] => by
    unfold Lower.storeFields Expr.mentionsAll
    exact .pure' _
  | _, [], _ :: _ => by
    unfold Lower.storeFields
    exact w.mono (.pure' _) (Multiset.zero_le _)
  | i, _ :: ts, e :: es => by
    unfold Lower.storeFields Expr.mentionsAll
    exact .append (w.valueOf e) fun _ => .quiet_bind (w.convertTo _ _ _) fun _ =>
      .quiet_bind (w.step (plain_fieldAddressAt _ _ _ _) fun t =>
        always_fieldAddressAt t.touches.emit _ _ _) fun _ => .quiet_bind (w.store _ _) fun _ =>
          w.storeFields type slot (i + 1) ts es

end

include w

theorem condition (e : Expr) : Guards S Q e.mentions (condition c e) :=
  .bind_quiet (w.valueOf e) fun _ => w.truth _ _

theorem valueAs (e : Expr) (type : Ty) : Guards S Q e.mentions (valueAs c e type) :=
  .bind_quiet (w.valueOf e) fun _ => w.convertTo _ _ _

end Watches

end Lower

end TreeLowering
