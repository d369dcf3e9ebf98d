import TreeLowering.Proofs.Effects

/-!
Runs of lowering steps that fail. Most faults say that a tree or its types do not fit, and are
raised in many places. The others tell something about the state: each of them is raised at one
place only. `Plain m` says that a step raises ordinary faults only, and that it reports nothing.
Everything that expressions do is plain, but for asking what a variable is bound to.
-/
namespace TreeLowering

/-- Whether a cause is raised for a tree that does not fit; the others tell about the state. -/
def Cause.isOrdinary : Cause → Bool
  | .usedBeforeDefinition _ | .redeclared _ | .noPrototype _ | .noFallThrough => false
  | _ => true

/-- Whether a fault is raised for a tree or types that do not fit. -/
def Fault.IsOrdinary : Fault → Prop
  | .rejected _ cause => cause.isOrdinary = true
  | .breach (.bodyTwice _) => False
  | .breach _ => True

namespace Lower

variable {α β : Type} {s s' : State} {f : Fault}

/-! ## Failing -/

theorem bind_eq_error {x : Lower α} {g : α → Lower β} :
    (x >>= g) s = .error f s' ↔
      x s = .error f s' ∨ ∃ a s₁, x s = .ok a s₁ ∧ g a s₁ = .error f s' := by
  change EStateM.bind x g s = _ ↔ _
  cases hx : x s with
  | ok a s₁ =>
    simp only [EStateM.bind, hx, reduceCtorEq, false_or, EStateM.Result.ok.injEq]
    constructor
    · intro h
      exact ⟨a, s₁, ⟨rfl, rfl⟩, h⟩
    · rintro ⟨_, _, ⟨rfl, rfl⟩, h⟩
      exact h
  | error e s₁ => simp [EStateM.bind, hx]

theorem reject_eq_error {p : Position} {cause : Cause} :
    (reject p cause : Lower α) s = .error f s' ↔ .rejected p cause = f ∧ s = s' := by
  change (EStateM.Result.error (.rejected p cause) s : EStateM.Result Fault State α) = _ ↔ _
  simp

theorem breach_eq_error {b : Breach} :
    (breach b : Lower α) s = .error f s' ↔ .breach b = f ∧ s = s' := by
  change (EStateM.Result.error (.breach b) s : EStateM.Result Fault State α) = _ ↔ _
  simp

theorem map_eq_error {x : Lower α} {g : α → β} :
    (g <$> x) s = .error f s' ↔ x s = .error f s' := by
  rw [map_eq_pure_bind, bind_eq_error]
  constructor
  · rintro (h | ⟨a, s₁, -, h⟩)
    · exact h
    · cases h
  · exact .inl

theorem discard_eq_error {x : Lower α} :
    (discard x : Lower PUnit) s = .error f s' ↔ x s = .error f s' := map_eq_error

/-- No run of the step reports anything, and one that fails raises an ordinary fault. -/
def Plain (m : Lower α) : Prop :=
  ∀ s, (∀ a s', m s = .ok a s' → s'.trace = s.trace) ∧
    ∀ f s', m s = .error f s' → f.IsOrdinary ∧ s'.trace = s.trace

namespace Plain

theorem fault {m : Lower α} (h : Plain m) (hf : m s = .error f s') : f.IsOrdinary :=
  ((h s).2 f s' hf).1

theorem pure' (a : α) : Plain (pure a : Lower α) := by
  refine fun s => ⟨fun b s' h => ?_, fun _ _ h => nomatch h⟩
  obtain ⟨-, rfl⟩ := pure_eq_ok.mp h
  rfl

theorem bind' {m : Lower α} {g : α → Lower β} (hm : Plain m) (hg : ∀ a, Plain (g a)) :
    Plain (m >>= g) := by
  refine fun s => ⟨fun b s' h => ?_, fun f s' h => ?_⟩
  · obtain ⟨a, s₁, h₁, h₂⟩ := bind_eq_ok.mp h
    rw [(hg a s₁).1 b s' h₂, (hm s).1 a s₁ h₁]
  · rcases bind_eq_error.mp h with h | ⟨a, s₁, h₁, h₂⟩
    · exact (hm s).2 f s' h
    · rw [← (hm s).1 a s₁ h₁]
      exact (hg a s₁).2 f s' h₂

theorem get_bind {g : State → Lower α} (hg : ∀ s, Plain (g s)) : Plain (get >>= g) :=
  fun s => hg s s

/-- A step that never fails is plain if it leaves the reports alone. -/
theorem of_ok {m : Lower α} (h : ∀ s, ∃ a s', m s = .ok a s' ∧ s'.trace = s.trace) : Plain m := by
  intro s
  obtain ⟨a, s₁, hr, ht⟩ := h s
  refine ⟨fun b s' hb => ?_, fun f s' hf => ?_⟩
  · cases hr.symm.trans hb
    exact ht
  · cases hr.symm.trans hf

theorem modify' {g : State → State} (hg : ∀ s, (g s).trace = s.trace) :
    Plain (modify g : Lower PUnit) := .of_ok fun s => ⟨_, _, rfl, hg s⟩

theorem reject' (p : Position) (cause : Cause) (h : cause.isOrdinary = true) :
    Plain (reject p cause : Lower α) := by
  refine fun s => ⟨fun _ _ hr => by simp at hr, fun f s' hf => ?_⟩
  obtain ⟨rfl, rfl⟩ := reject_eq_error.mp hf
  exact ⟨h, rfl⟩

theorem reject_bind {p : Position} {cause : Cause} {g : α → Lower β}
    (h : cause.isOrdinary = true) : Plain (reject p cause >>= g) := by
  refine fun s => ⟨fun _ _ hr => by simp at hr, fun f s' hf => ?_⟩
  rcases bind_eq_error.mp hf with hf | ⟨a, s₁, ha, -⟩
  · exact (reject' p cause h s).2 f s' hf
  · simp at ha

theorem breach' (b : Breach) (h : (Fault.breach b).IsOrdinary) :
    Plain (breach b : Lower α) := by
  refine fun s => ⟨fun _ _ hr => by simp at hr, fun f s' hf => ?_⟩
  obtain ⟨rfl, rfl⟩ := breach_eq_error.mp hf
  exact ⟨h, rfl⟩

theorem breach_bind {b : Breach} {g : α → Lower β}
    (h : (Fault.breach b).IsOrdinary) : Plain (breach b >>= g) := by
  refine fun s => ⟨fun _ _ hr => by simp at hr, fun f s' hf => ?_⟩
  rcases bind_eq_error.mp hf with hf | ⟨a, s₁, ha, -⟩
  · exact (breach' b h s).2 f s' hf
  · simp at ha

theorem ite' {p : Prop} [Decidable p] {x y : Lower α} (hx : Plain x) (hy : Plain y) :
    Plain (if p then x else y) := by
  split
  · exact hx
  · exact hy

theorem discard' {m : Lower α} (h : Plain m) : Plain (discard m) := by
  refine fun s => ⟨fun _ s' hr => ?_, fun f s' hf => (h s).2 f s' (discard_eq_error.mp hf)⟩
  obtain ⟨a, ha⟩ := discard_eq_ok.mp hr
  exact (h s).1 a s' ha

theorem mapM' {g : α → Lower β} (hg : ∀ a, Plain (g a)) (l : List α) : Plain (l.mapM g) := by
  induction l with
  | nil => exact .pure' _
  | cons a l ih =>
    rw [List.mapM_cons]
    exact .bind' (hg a) fun _ => .bind' ih fun _ => .pure' _

end Plain

/-! ## Questions -/

theorem plain_siteOf (e : Expr) : Plain (siteOf e) := by
  unfold siteOf
  split
  · exact .pure' _
  · exact .breach' _ trivial

theorem plain_orBreach {r : Except Breach α}
    (h : ∀ b, r = .error b → (Fault.breach b).IsOrdinary) : Plain (orBreach r) := by
  cases r with
  | ok a => exact .pure' a
  | error b => exact .breach' b (h b rfl)

/-- A rendering breaks where a part is missing or a number is outside its enumeration. -/
theorem describe_error (e : Expr) (b : Breach) (h : e.describe = .error b) :
    (Fault.breach b).IsOrdinary := by
  cases e with
  | varRef _ _ step =>
    cases step with
    | known step => cases step <;> cases h
    | unknown code =>
      cases h
      trivial
  | binary _ op _ _ =>
    cases op <;> cases h
    trivial
  | unary _ op _ =>
    cases op <;> cases h
    trivial
  | cast _ _ target =>
    cases target with
    | none =>
      cases h
      trivial
    | some t =>
      simp only [Expr.describe, describeTypeSlot, TypeRef.describe] at h
      split at h <;> cases h
      trivial
  | absent =>
    cases h
    trivial
  | _ => cases h

theorem plain_described (e : Expr) : Plain (described e) := plain_orBreach (describe_error e)

namespace Plain

theorem described_reject (e : Expr) (pos : Position) (cause : Bytes → Cause)
    (h : ∀ text, (cause text).isOrdinary = true) :
    Plain (do reject pos (cause (← described e)) : Lower α) :=
  .bind' (plain_described e) fun text => .reject' _ _ (h text)

theorem siteOf_reject (e : Expr) (cause : Bytes → Cause)
    (h : ∀ text, (cause text).isOrdinary = true) :
    Plain (do
      let s ← siteOf e
      reject s.position (cause (← described e)) : Lower α) :=
  .bind' (plain_siteOf e) fun _ => .described_reject e _ cause h

end Plain

theorem plain_variableAt (c : Context) (name : String) (site : Site) :
    Plain (variableAt c name site) := by
  unfold variableAt
  split
  · exact .pure' _
  · exact .reject' _ _ rfl

theorem plain_knownType (t : Ty) (p : Position) (kind : String) : Plain (knownType t p kind) :=
  .ite' (.reject' _ _ rfl) (.pure' _)

theorem plain_typeOfExpr (c : Context) (e : Expr) : Plain (typeOfExpr c e) := by
  unfold typeOfExpr
  split
  · exact .bind' (plain_siteOf e) fun _ => .reject' _ _ rfl
  · exact .pure' _

theorem plain_typeOfRef (c : Context) (t : Option TypeRef) : Plain (typeOfRef c t) := by
  unfold typeOfRef
  split
  · exact plain_knownType _ _ _
  · exact .breach' _ trivial

theorem plain_isLocal (c : Context) (site : Site) : Plain (isLocal c site) := by
  unfold isLocal
  split
  · exact .pure' _
  · exact .get_bind fun _ => .pure' _

theorem plain_hasPlace (c : Context) (e : Expr) : Plain (hasPlace c e) := by
  unfold hasPlace
  split
  · split
    · exact .pure' _
    · exact .get_bind fun _ => .pure' _
  all_goals exact .pure' _

theorem plain_cursor : Plain cursor := by
  refine .get_bind fun s => ?_
  split
  · exact .pure' _
  · exact .breach' _ trivial

theorem plain_signatureOf (c : Context) (h : FuncHead) : Plain (signatureOf c h) := by
  refine .bind' (plain_knownType _ _ _) fun t => ?_
  split
  · exact .pure' _
  · exact .reject' _ _ rfl

theorem plain_calleeParams (c : Context) (site : Site) (name : String) (given : Nat)
    (v : ObjectId) (callee : Ir.Value) : Plain (calleeParams c site name given v callee) := by
  unfold calleeParams
  split
  · exact .reject' _ _ rfl
  · exact .ite' (.reject' _ _ rfl) (.pure' _)

theorem plain_pointeeType (e : Expr) (v : Ir.Value) : Plain (pointeeType e v) := by
  unfold pointeeType
  split
  · exact .pure' _
  · exact .siteOf_reject e _ fun _ => rfl

theorem plain_entryFunc (c : Context) :
    ∀ funcs : List (FuncHead × Block), Plain (entryFunc c funcs)
  | [] => .pure' _
  | (h, _) :: rest => by
    unfold entryFunc
    refine .ite' (.get_bind fun s => ?_) (plain_entryFunc c rest)
    split
    · exact .pure' _
    · exact plain_entryFunc c rest

/-! ## Instructions and blocks -/

theorem cursor_eq_error :
    cursor s = .error f s' ↔ s.body.cursor = none ∧ .breach .missingPart = f ∧ s = s' := by
  unfold cursor
  rw [get_bind_apply]
  cases s.body.cursor with
  | none => rw [breach_eq_error, eq_self, true_and]
  | some l => exact ⟨nofun, nofun⟩

theorem emitAt_cursor_eq_error {inst : Ir.Inst} {type : Ir.Ty} :
    emitAt .cursor inst type s = .error f s' ↔
      s.body.cursor = none ∧ .breach .missingPart = f ∧ s = s' := by
  unfold emitAt
  rw [get_bind_apply, bind_eq_error, cursor_eq_error]
  constructor
  · rintro (h | ⟨_, _, -, h⟩)
    · exact h
    · cases h
  · exact .inl

theorem plain_emitAt (spot : Place) (inst : Ir.Inst) (type : Ir.Ty) :
    Plain (emitAt spot inst type) := by
  refine .get_bind fun s => ?_
  cases spot with
  | vars => exact .bind' (.modify' fun _ => rfl) fun _ => .pure' _
  | cursor => exact .bind' plain_cursor fun l => .bind' (.modify' fun _ => rfl) fun _ => .pure' _

theorem plain_emit (inst : Ir.Inst) (type : Ir.Ty) : Plain (emit inst type) :=
  plain_emitAt .cursor inst type

theorem plain_stackSlot (type : Ir.Ty) (count : Option Ir.Value) : Plain (stackSlot type count) :=
  plain_emitAt .vars _ _

theorem plain_openBlock (name : String) : Plain (openBlock name) :=
  .get_bind fun _ => .bind' (.modify' fun _ => rfl) fun _ => .pure' _

theorem plain_terminate (t : Ir.Term) : Plain (terminate t) :=
  .bind' plain_cursor fun _ => .modify' fun _ => rfl

theorem plain_branchIfLive (l : Ir.Label) : Plain (branchIfLive l) :=
  .get_bind fun _ => .ite' (.bind' (plain_terminate _) fun _ => .pure' _) (.pure' _)

theorem plain_storeAt (spot : Place) (value place : Ir.Value) : Plain (storeAt spot value place) :=
  .get_bind fun _ => .ite' (.discard' (plain_emitAt _ _ _)) (.breach' _ trivial)

theorem plain_addressAt (spot : Place) (type : Ir.Ty) (base : Ir.Value) (indices : List Ir.Value)
    (target : Ir.Ty) : Plain (addressAt spot type base indices target) := by
  unfold addressAt
  split
  · exact .breach' _ trivial
  · split
    · exact plain_emitAt _ _ _
    · exact .breach' _ trivial

theorem plain_elementAddress (type : Ir.Ty) (base index : Ir.Value) :
    Plain (elementAddress type base index) := plain_addressAt _ _ _ _ _

theorem plain_fieldAddressAt (spot : Place) (type : Ir.Ty) (base : Ir.Value) (index : Nat) :
    Plain (fieldAddressAt spot type base index) := by
  refine .get_bind fun s => ?_
  split
  · exact plain_addressAt _ _ _ _ _
  · exact .breach' _ trivial

theorem plain_extractData (value : Ir.Value) : Plain (extractData value) := by
  unfold extractData
  split
  · exact plain_emit _ _
  · refine .get_bind fun s => ?_
    split
    · exact plain_emit _ _
    · exact .breach' _ trivial
    · exact .breach' _ trivial

theorem plain_fillArray (spot : Place) (slot : Ir.Value) (type : Ir.Ty) (length data : Ir.Value) :
    Plain (fillArray spot slot type length data) :=
  .bind' (plain_fieldAddressAt _ _ _ _) fun _ => .bind' (plain_storeAt _ _ _) fun _ =>
    .bind' (plain_fieldAddressAt _ _ _ _) fun _ => plain_storeAt _ _ _

/-! ## Instruction types -/

section
variable {store : Store} {named : NamedId → Lower Ir.Ty}

mutual

theorem plain_mapType (hn : ∀ id, Plain (named id)) : ∀ t, Plain (mapType store named t)
  | .missing => .breach' _ trivial
  | .scalar _ => .pure' _
  | .string => .pure' _
  | .array t => .bind' (plain_mapType hn t) fun _ => .pure' _
  | .pointer t => by
    unfold mapType
    exact .ite' (.pure' _) (.bind' (plain_mapType hn t) fun _ => .pure' _)
  | .struct fields => .bind' (plain_mapFields hn fields) fun _ => .pure' _
  | .func params result _ => by
    have rest : ∀ r : Ir.Ty, Plain (do
        let ps ← mapFields store named params
        pure (Ir.Ty.pointer (.func r ps))) :=
      fun _ => .bind' (plain_mapFields hn params) fun _ => .pure' _
    unfold mapType
    split
    · exact .bind' (.pure' _) rest
    · exact .bind' (plain_mapType hn result) rest
  | .named id => hn id

theorem plain_mapFields (hn : ∀ id, Plain (named id)) :
    ∀ fields, Plain (mapFields store named fields)
  | [] => .pure' _
  | (_, t) :: rest =>
    .bind' (plain_mapType hn t) fun _ => .bind' (plain_mapFields hn rest) fun _ => .pure' _

end

end

theorem plain_setFields (t : Ir.Ty) (fields : List Ir.Ty) : Plain (setFields t fields) := by
  unfold setFields
  split
  · exact .modify' fun _ => rfl
  · exact .pure' _

theorem plain_declaredType {store : Store} {map : Ty → Lower Ir.Ty} (hm : ∀ t, Plain (map t))
    (id : NamedId) : Plain (declaredType store map id) := by
  have entered : ∀ name, Plain (addTypeDef name) := fun _ => .of_ok fun _ => ⟨_, _, rfl, rfl⟩
  refine .get_bind fun s => ?_
  split
  · exact .pure' _
  · split
    · split
      · exact .breach' _ trivial
      · exact .bind' (entered _) fun _ => .bind' (.modify' fun _ => rfl) fun _ =>
          .bind' (.mapM' (fun _ => hm _) _) fun _ => .bind' (plain_setFields _ _) fun _ => .pure' _
    · exact .bind' (hm _) fun _ => .bind' (.modify' fun _ => rfl) fun _ => .pure' _

theorem plain_instructionType (c : Context) (t : Ty) : Plain (instructionType c t) := by
  have within : ∀ depth t, Plain (instructionTypeWithin c.analysis.store depth t) := by
    intro depth
    induction depth with
    | zero => exact plain_mapType (plain_declaredType fun _ => .breach' _ trivial)
    | succ depth ih => exact plain_mapType (plain_declaredType ih)
  exact within _ t

theorem plain_instructionSignature (c : Context) (params : List (String × Ty)) (result : Ty) :
    Plain (instructionSignature c params result) := by
  have rest : ∀ r : Ir.Ty, Plain (do
      let ps ← params.mapM fun p => instructionType c p.2
      pure (r, ps)) :=
    fun _ => .bind' (.mapM' (fun _ => plain_instructionType c _) _) fun _ => .pure' _
  unfold instructionSignature
  split
  · exact .bind' (.pure' _) rest
  · exact .bind' (plain_instructionType c _) rest

/-! ## Conversions and operators -/

theorem plain_convert (v : Ir.Value) (unsigned toUnsigned : Bool) (target : Ir.Ty) :
    Plain (convert v unsigned toUnsigned target) := by
  refine .get_bind fun s => ?_
  split
  · exact .pure' _
  · exact .pure' _
  · exact plain_emit _ _

theorem plain_convertTo (c : Context) (e : Expr) (v : Ir.Value) (t : Ty) :
    Plain (convertTo c e v t) :=
  .bind' (plain_instructionType c t) fun _ => plain_convert _ _ _ _

theorem plain_truth (e : Expr) (v : Ir.Value) : Plain (truth e v) := by
  unfold truth
  split
  · exact .ite' (.pure' _) (plain_emit _ _)
  · exact plain_emit _ _
  · exact plain_emit _ _
  · exact .siteOf_reject e _ fun _ => rfl

theorem plain_compareInts (op : Coded BinaryOp) (x y : Ir.Value) (unsigned : Bool) :
    Plain (compareInts op x y unsigned) := by
  unfold compareInts
  split
  · exact .breach' _ trivial
  · split
    · exact plain_emit _ _
    · exact .breach' _ trivial

theorem plain_onIntegers (op : Coded BinaryOp) (x y : Ir.Value) (unsigned : Bool) :
    Plain (onIntegers op x y unsigned) := by
  unfold onIntegers
  split
  · exact plain_emit _ _
  · exact plain_compareInts op x y unsigned

theorem plain_onFloats (site : Site) (op : Coded BinaryOp) (x y : Ir.Value) :
    Plain (onFloats site op x y) := by
  unfold onFloats
  split
  · exact plain_emit _ _
  · split
    · exact plain_emit _ _
    · exact .reject' _ _ rfl

theorem plain_onPointers (site : Site) (op : Coded BinaryOp) (x : Ir.Value) (elem : Ir.Ty)
    (y : Ir.Value) : Plain (onPointers site op x elem y) := by
  unfold onPointers
  split
  · exact plain_elementAddress _ _ _
  · exact .bind' (plain_emit _ _) fun _ => plain_elementAddress _ _ _
  · exact .ite' (.bind' (plain_convert _ _ _ _) fun _ => plain_compareInts _ _ _ _)
      (.reject' _ _ rfl)

theorem plain_stepBy (e : Expr) (site : Site) (v : Ir.Value) (up : Bool) :
    Plain (stepBy e site v up) := by
  unfold stepBy
  cases v.type with
  | int w => exact plain_emit _ _
  | float k => exact plain_emit _ _
  | pointer elem => exact plain_elementAddress _ _ _
  | _ => exact .described_reject e _ _ fun _ => rfl

/-! ## Literals and fields -/

theorem plain_intConstant (c : Context) (site : Site) (value : Int64) :
    Plain (intConstant c site value) := by
  refine .bind' (plain_typeOfExpr c _) fun _ => .bind' (plain_instructionType c _) fun _ => ?_
  split
  · exact .pure' _
  · exact .pure' _
  · exact .ite' (.pure' _) (.reject' _ _ rfl)
  · exact .reject' _ _ rfl

theorem plain_floatConstant (c : Context) (site : Site) (bits : UInt64) :
    Plain (floatConstant c site bits) := by
  refine .bind' (plain_typeOfExpr c _) fun _ => .bind' (plain_instructionType c _) fun _ => ?_
  split
  · exact .pure' _
  · exact .reject' _ _ rfl

theorem plain_addGlobal (name : String) (content : Ir.Ty) : Plain (addGlobal name content) :=
  .of_ok fun _ => ⟨_, _, rfl, rfl⟩

theorem plain_addFunction (f : Ir.Function) : Plain (addFunction f) :=
  .of_ok fun _ => ⟨_, _, rfl, rfl⟩

theorem plain_globalBuffer (spot : Place) (name : String) (elem : Ir.Ty) (length : Nat) :
    Plain (globalBuffer spot name elem length) :=
  .bind' (plain_addGlobal _ _) fun _ => plain_emitAt _ _ _

theorem plain_copyIntrinsic : Plain copyIntrinsic := by
  refine .get_bind fun s => ?_
  split
  · exact .pure' _
  · exact .bind' (plain_addFunction _) fun _ => .bind' (.modify' fun _ => rfl) fun _ => .pure' _

theorem plain_internedData (content : Bytes) : Plain (internedData content) := by
  refine .get_bind fun s => ?_
  split
  · exact .pure' _
  · exact .bind' (plain_addGlobal _ _) fun _ => .bind' (.modify' fun _ => rfl) fun _ =>
      .bind' (.modify' fun _ => rfl) fun _ => .pure' _

theorem plain_stringValue (c : Context) (site : Site) (content : Bytes) :
    Plain (stringValue c site content) := by
  refine .bind' (plain_stackSlot _ _) fun slot => .bind' (plain_isLocal c site) fun isLocal => ?_
  have rest : ∀ buffer, Plain (do
      let copy ← copyIntrinsic
      let data ← internedData content
      discard (callAt .vars copy [buffer, data, .i32 content.length, .bitFalse])
      fillArray .vars slot (arrayStruct (.int 8)) (.i32 content.length) buffer
      emitAt .vars (.load (arrayStruct (.int 8)) slot) (arrayStruct (.int 8))) := fun buffer =>
    .bind' plain_copyIntrinsic fun _ => .bind' (plain_internedData content) fun _ =>
      .bind' (.discard' (plain_emitAt _ _ _)) fun _ => .bind' (plain_fillArray _ _ _ _ _) fun _ =>
        plain_emitAt _ _ _
  split
  · exact .bind' (plain_stackSlot _ _) rest
  · exact .bind' (plain_globalBuffer _ _ _ _) rest

theorem plain_allocateArray (c : Context) (site : Site) (elem : Ir.Ty) (length : Nat) :
    Plain (allocateArray c site elem length) := by
  refine .bind' (plain_stackSlot _ _) fun slot => .bind' (plain_isLocal c site) fun isLocal => ?_
  have rest : ∀ buffer, Plain (do
      fillArray .cursor slot (arrayStruct elem) (.i32 length) buffer
      pure (⟨slot, arrayStruct elem, buffer⟩ : FreshArray)) := fun buffer =>
    .bind' (plain_fillArray _ _ _ _ _) fun _ => .pure' _
  split
  · exact .bind' (plain_stackSlot _ _) rest
  · exact .bind' (plain_globalBuffer _ _ _ _) rest

theorem plain_unfilledArray (c : Context) (site : Site) (length : Int64) (elem : Option TypeRef) :
    Plain (unfilledArray c site length elem) :=
  .ite' (.reject' _ _ rfl) (.bind' (plain_typeOfRef c elem) fun _ =>
    .bind' (plain_instructionType c _) fun _ => .bind' (plain_allocateArray c _ _ _) fun _ =>
      plain_emit _ _)

theorem plain_fieldPlace (c : Context) (site : Site) (field : String) (base : Ir.Value)
    (t : Ty) : Plain (fieldPlace c site field base t) := by
  refine .bind' (plain_instructionType c t) fun _ => ?_
  have address : ∀ type base index, Plain (fieldAddress type base index) := fun _ _ _ =>
    plain_fieldAddressAt _ _ _ _
  split
  · split
    · exact .reject' _ _ rfl
    · exact .bind' (address _ _ _) fun _ => .bind' (plain_instructionType c _) fun _ => .pure' _
  · split
    · refine .ite' (.bind' (address _ _ _) fun _ => .pure' _) (.ite' ?_ (.reject' _ _ rfl))
      exact .bind' (address _ _ _) fun _ => .bind' (plain_instructionType c _) fun _ => .pure' _
    · exact .reject' _ _ rfl

/-! ## Definitions -/

theorem plain_closeBody (c : Context) : Plain (closeBody c) :=
  .get_bind fun _ => .ite' (.ite' (plain_terminate _) (plain_terminate _)) (.pure' _)

theorem plain_enterStruct (c : Context) (d : StructDecl) : Plain (enterStruct c d) := by
  unfold enterStruct
  split
  · exact .pure' _
  · exact .pure' _
  · exact .discard' (plain_instructionType c _)

theorem plain_runEntry (c : Context) (funcs : List (FuncHead × Block)) :
    Plain (runEntry c funcs) := by
  refine .bind' (plain_entryFunc c funcs) fun found => ?_
  split
  · exact .pure' _
  · exact .get_bind fun _ => .ite' (.discard' (plain_emitAt _ _ _)) (.reject' _ _ rfl)

theorem declareSymbol_eq_error {h : FuncHead} {hasBody : Bool} {result : Ir.Ty}
    {params : List Ir.Ty} (hr : declareSymbol h hasBody result params s = .error f s') :
    f = .rejected h.site.position (.redeclared h.symbol) := by
  unfold declareSymbol at hr
  rw [get_bind_apply] at hr
  have taken : ∀ {m : Lower Ir.FuncId} {p : Prop} [Decidable p],
      (if p then reject h.site.position (.redeclared h.symbol) else m) s = .error f s' →
      (∀ f s', m s ≠ .error f s') → f = .rejected h.site.position (.redeclared h.symbol) := by
    intro m p _ hif hm
    split at hif
    · exact (reject_eq_error.mp hif).1.symm
    · exact absurd hif (hm f s')
  cases hl : s.symbols.lookup h.symbol with
  | none =>
    simp only [hl] at hr
    exact taken hr fun _ _ h => nomatch h
  | some id =>
    simp only [hl] at hr
    exact taken hr fun _ _ h => nomatch h

/-- Declaring a function fails where its types do not fit, or if its symbol is taken. -/
theorem enterPrototype_eq_error {c : Context} {h : FuncHead} {body : Block}
    (hr : enterPrototype c h body s = .error f s') :
    f.IsOrdinary ∨ f = .rejected h.site.position (.redeclared h.symbol) := by
  have declare : ∀ {v sig s}, declarePrototype c h body v sig s = .error f s' →
      f.IsOrdinary ∨ f = .rejected h.site.position (.redeclared h.symbol) := by
    intro v sig s hd
    unfold declarePrototype at hd
    split at hd
    · exact .inl (Plain.fault (.reject_bind rfl) hd)
    rcases bind_eq_error.mp hd with hd | ⟨types, s₁, -, hd⟩
    · exact .inl ((plain_instructionSignature c _ _).fault hd)
    rcases bind_eq_error.mp hd with hd | ⟨id, s₂, -, hd⟩
    · exact .inr (declareSymbol_eq_error hd)
    · cases hd
  unfold enterPrototype at hr
  rcases bind_eq_error.mp hr with hr | ⟨sig, s₁, -, hr⟩
  · exact .inl ((plain_signatureOf c h).fault hr)
  split at hr
  · cases hr
  rcases bind_eq_error.mp hr with hr | ⟨v, s₂, -, hr⟩
  · exact .inl ((plain_variableAt c _ _).fault hr)
  split at hr
  · split at hr
    · exact .inl (Plain.fault (.reject_bind rfl) hr)
    · exact declare hr
  · exact declare hr

theorem withBody_eq_error {body : Body} {step : Lower Unit}
    (h : withBody body step s = .error f s') : step (s.setBody body) = .error f s' := by
  unfold withBody at h
  simp only [get_bind_apply, modifyBody_bind_apply] at h
  rcases bind_eq_error.mp h with h | ⟨_, s₁, -, h⟩
  · exact h
  · cases h

end Lower

/-- The fault that a run ended with. -/
def Outcome.fault? {α : Type} (o : Outcome α) : Option Fault :=
  match o.result with
  | .error (.fault f) => some f
  | _ => none

theorem Outcome.result_of_fault? {α : Type} {o : Outcome α} {f : Fault} (h : o.fault? = some f) :
    o.result = .error (.fault f) := by
  unfold fault? at h
  split at h
  · rename_i he
    rw [he, Option.some.inj h]
  · cases h

end TreeLowering
