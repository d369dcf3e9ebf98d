import TreeLowering.Proofs.Parts

/-!
What lowering does to the state, said for any relation between the states before and after.

`Operates c r` says that `r` holds of what most expressions do: instructions at the cursor, stack
slots, types; `Touches c r` adds calls and branches. Calls and string literals may do more, so a
relation may be labelled by what they leave behind, in order: `Composes c g gs R` says what `R`
makes of calls, string literals and short circuits, and then `R (g e)` holds of lowering an
expression `e` (`Composes.valueOf`), for any list `g e` that is made of the lists of its operands,
from left to right. `Records c R` is this for the string literals of expressions.

`Tolerant c r` is for relations that do not look at the body: `r` holds of each single change that
an expression can make, to the body, to the globals for literals, to the types of the module, to the
declaration of the copy intrinsic, and so of every expression (`Tolerant.valueOf`). A fact about all
runs is a choice of `r`.
-/
namespace TreeLowering

namespace Lower

variable {α β : Type}

instance : Lasting (Eq : State → State → Prop) where
  refl _ := rfl
  trans h₁ h₂ := h₁.trans h₂

/-- The step changes nothing. -/
abbrev Asks (m : Lower α) : Prop := Always Eq m

namespace Always

variable {r : State → State → Prop} [Lasting r]

theorem of_asks {m : Lower α} (h : Asks m) : Always r m :=
  h.mono fun he => he ▸ Lasting.refl _

omit [Lasting r] in
theorem breach_bind {b : Breach} {f : α → Lower β} : Always r (breach b >>= f) := by
  intro s a s' h
  simp at h

omit [Lasting r] in
theorem discard' {m : Lower α} (h : Always r m) : Always r (discard m) := by
  intro s u s' hm
  obtain ⟨a, ha⟩ := discard_eq_ok.mp hm
  exact h s a s' ha

theorem whenLive' {m : Lower Unit} (h : Always r m) : Always r (whenLive m) :=
  .get_bind fun _ => .ite' h (.pure' _)

theorem forM_mem {f : α → Lower PUnit} {l : List α} (hf : ∀ a ∈ l, Always r (f a)) :
    Always r (l.forM f) := by
  induction l with
  | nil => exact .pure' _
  | cons a l ih =>
    exact .bind' (hf a List.mem_cons_self) fun _ => ih fun a' ha =>
      hf a' (List.mem_cons_of_mem _ ha)

end Always

/-! ## Questions -/

theorem asks_siteOf (e : Expr) : Asks (siteOf e) := fun _ _ _ h => (siteOf_eq_ok.mp h).2

theorem variableAt_eq_ok {c : Context} {name : String} {site : Site} {v : ObjectId}
    {s s' : State} (h : variableAt c name site s = .ok v s') :
    c.analysis.resolve name (some site) = some v ∧ s' = s := by
  unfold variableAt at h
  cases hw : c.analysis.resolve name (some site) with
  | none => simp [hw] at h
  | some w =>
    simp only [hw, pure_eq_ok] at h
    exact ⟨by rw [h.1], h.2.symm⟩

theorem asks_variableAt (c : Context) (name : String) (site : Site) :
    Asks (variableAt c name site) := fun _ _ _ h => (variableAt_eq_ok h).2.symm

theorem asks_boundTo (c : Context) (v : ObjectId) (site : Site) : Asks (boundTo c v site) := by
  refine .get_bind fun s => ?_
  split
  · exact .pure' _
  · exact .reject' _ _

/-- A variable is looked up and found bound. -/
theorem named_eq_ok {c : Context} {name : String} {site : Site}
    {f : ObjectId → Ir.Value → Lower α} {s s' : State} {a : α} (h : (do
      let v ← variableAt c name site
      let place ← boundTo c v site
      f v place : Lower α) s = .ok a s') :
    ∃ v x, c.analysis.resolve name (some site) = some v ∧ s.values.lookup v = some x ∧
      f v x s = .ok a s' := by
  obtain ⟨v, s₁, hv, h⟩ := bind_eq_ok.mp h
  obtain ⟨x, s₂, hx, h⟩ := bind_eq_ok.mp h
  obtain ⟨hres, rfl⟩ := variableAt_eq_ok hv
  cases asks_boundTo c _ _ _ _ _ hx
  refine ⟨v, x, hres, ?_, h⟩
  unfold boundTo at hx
  rw [get_bind_apply] at hx
  cases hl : s₁.values.lookup v with
  | none => simp [hl] at hx
  | some y =>
    simp only [hl, pure_eq_ok] at hx
    rw [hx.1]

/-- A name stands for the function that it is bound to, or for what is read from its place. -/
theorem valueOf_name_eq_ok {c : Context} {name : String} {site : Site} {s s' : State} {v : Ir.Value}
    (h : valueOf c (.varRef site name (.known .none)) s = .ok v s') :
    ∃ x place, c.analysis.resolve name (some site) = some x ∧ s.values.lookup x = some place ∧
      (place.isFunc = true ∧ v = place ∨
        ∃ type s₁, place.isFunc = false ∧ instructionType c (variableType c x) s = .ok type s₁ ∧
          load type place s₁ = .ok v s') := by
  unfold valueOf readVariable at h
  obtain ⟨x, place, hres, hplace, h⟩ := named_eq_ok h
  refine ⟨x, place, hres, hplace, ?_⟩
  split at h
  · rename_i hf
    cases h
    exact .inl ⟨hf, rfl⟩
  · rename_i hf
    obtain ⟨type, s₁, ht, h⟩ := bind_eq_ok.mp h
    obtain ⟨old, s₂, hload, h⟩ := bind_eq_ok.mp h
    cases h
    exact .inr ⟨type, s₁, Bool.eq_false_iff.mpr hf, ht, hload⟩

theorem asks_knownType (t : Ty) (p : Position) (kind : String) : Asks (knownType t p kind) :=
  .ite' (.reject' _ _) (.pure' _)

theorem asks_typeOfExpr (c : Context) (e : Expr) : Asks (typeOfExpr c e) := by
  unfold typeOfExpr
  split
  · exact .bind' (asks_siteOf e) fun _ => .reject' _ _
  · exact .pure' _

theorem asks_typeOfRef (c : Context) (t : Option TypeRef) : Asks (typeOfRef c t) := by
  unfold typeOfRef
  split
  · exact asks_knownType _ _ _
  · exact .breach' _

theorem asks_isLocal (c : Context) (site : Site) : Asks (isLocal c site) := by
  unfold isLocal
  split
  · exact .pure' _
  · exact .get_bind fun _ => .pure' _

theorem asks_hasPlace (c : Context) (e : Expr) : Asks (hasPlace c e) := by
  unfold hasPlace
  split
  · split
    · exact .pure' _
    · exact .get_bind fun _ => .pure' _
  all_goals exact .pure' _

theorem asks_cursor : Asks cursor := fun _ _ _ h => (cursor_eq_ok.mp h).2

theorem asks_signatureOf (c : Context) (h : FuncHead) : Asks (signatureOf c h) :=
  fun _ _ _ hs => (signatureOf_eq_ok hs).1.symm

theorem calleeParams_eq_ok {c : Context} {site : Site} {name : String} {given : Nat}
    {v : ObjectId} {callee : Ir.Value} {s s' : State} {r : Ir.Value × List (Ir.Ty × Bool)}
    (h : calleeParams c site name given v callee s = .ok r s') :
    s' = s ∧ r.1 = callee ∧ given = r.2.length ∧
      ∃ result, callee.type.signature? = some (result, r.2.map Prod.fst) := by
  unfold calleeParams at h
  cases hs : callee.type.signature? with
  | none => simp [hs] at h
  | some sig =>
    obtain ⟨result, params⟩ := sig
    simp only [hs] at h
    rcases ite_eq_ok.mp h with ⟨-, h⟩ | ⟨hlen, h⟩
    · simp at h
    · obtain ⟨rfl, rfl⟩ := pure_eq_ok.mp h
      refine ⟨rfl, rfl, ?_, result, ?_⟩
      · simpa using hlen
      · simp [Function.comp_def]

theorem asks_calleeParams (c : Context) (site : Site) (name : String) (given : Nat)
    (v : ObjectId) (callee : Ir.Value) : Asks (calleeParams c site name given v callee) :=
  fun _ _ _ h => (calleeParams_eq_ok h).1.symm

namespace Always

variable {r : State → State → Prop}

theorem described_reject (e : Expr) (pos : Position) (cause : Bytes → Cause) :
    Always r (do reject pos (cause (← described e)) : Lower α) := by
  intro s a s' h
  simp at h

theorem described_reject_bind (e : Expr) (pos : Position) (cause : Bytes → Cause)
    {f : α → Lower β} : Always r (described e >>= fun text => reject pos (cause text) >>= f) := by
  intro s a s' h
  simp at h

theorem siteOf_reject (e : Expr) (cause : Bytes → Cause) :
    Always r (do
      let s ← siteOf e
      reject s.position (cause (← described e)) : Lower α) := by
  intro s a s' h
  simp at h

theorem misplaced (n : Node) : Always r (misplaced n) := by
  unfold Lower.misplaced
  split
  · exact .reject' _ _
  · exact .breach' _

end Always

theorem asks_pointeeType (e : Expr) (v : Ir.Value) : Asks (pointeeType e v) := by
  unfold pointeeType
  split
  · exact .pure' _
  · exact .siteOf_reject e _

theorem asks_entryFunc (c : Context) :
    ∀ funcs : List (FuncHead × Block), Asks (entryFunc c funcs)
  | [] => .pure' _
  | (h, _) :: rest => by
    unfold entryFunc
    refine .ite' (.get_bind fun s => ?_) (asks_entryFunc c rest)
    split
    · exact .pure' _
    · exact asks_entryFunc c rest

/-! ## Instructions and blocks -/

section
variable {r : State → State → Prop} (body : ∀ s b, r s (s.setBody b))

include body

theorem always_modifyBody (f : Body → Body) : Always r (modifyBody f) :=
  .modify' fun s => body s (f s.body)

theorem always_moveTo (l : Ir.Label) : Always r (moveTo l) := always_modifyBody body _

theorem always_moveNowhere : Always r moveNowhere := always_modifyBody body _

variable [Lasting r]

theorem always_emitAt (spot : Place) (inst : Ir.Inst) (type : Ir.Ty) :
    Always r (emitAt spot inst type) := by
  refine .get_bind fun s => ?_
  cases spot with
  | vars => exact .bind' (always_modifyBody body _) fun _ => .pure' _
  | cursor =>
    exact .bind' (.of_asks asks_cursor) fun l =>
      .bind' (always_modifyBody body _) fun _ => .pure' _

theorem always_openBlock (name : String) : Always r (openBlock name) :=
  .get_bind fun _ => .bind' (always_modifyBody body _) fun _ => .pure' _

theorem always_terminate (t : Ir.Term) : Always r (terminate t) :=
  .bind' (.of_asks asks_cursor) fun _ => always_modifyBody body _

end

section
variable {r : State → State → Prop} [Lasting r] {spot : Place}
  (emits : ∀ inst type, inst.isOperation = true → Always r (emitAt spot inst type))

include emits

omit [Lasting r] in
theorem always_storeAt (value place : Ir.Value) : Always r (storeAt spot value place) :=
  .get_bind fun _ => .ite' (.discard' (emits _ _ rfl)) (.breach' _)

omit [Lasting r] in
theorem always_addressAt (type : Ir.Ty) (base : Ir.Value) (indices : List Ir.Value)
    (target : Ir.Ty) : Always r (addressAt spot type base indices target) := by
  unfold addressAt
  split
  · exact .breach' _
  · split
    · exact emits _ _ rfl
    · exact .breach' _

omit [Lasting r] in
theorem always_fieldAddressAt (type : Ir.Ty) (base : Ir.Value) (index : Nat) :
    Always r (fieldAddressAt spot type base index) := by
  refine .get_bind fun s => ?_
  split
  · exact always_addressAt emits _ _ _ _
  · exact .breach' _

theorem always_fillArray (slot : Ir.Value) (type : Ir.Ty) (length data : Ir.Value) :
    Always r (fillArray spot slot type length data) :=
  .bind' (always_fieldAddressAt emits _ _ _) fun _ => .bind' (always_storeAt emits _ _) fun _ =>
    .bind' (always_fieldAddressAt emits _ _ _) fun _ => always_storeAt emits _ _

end

/-! ## Instruction types -/

section
variable {r : State → State → Prop} [Lasting r]

section
variable {store : Store} {named : NamedId → Lower Ir.Ty}

mutual

theorem always_mapType (hn : ∀ id, Always r (named id)) :
    ∀ t, Always r (mapType store named t)
  | .missing => .breach' _
  | .scalar _ => .pure' _
  | .string => .pure' _
  | .array t => .bind' (always_mapType hn t) fun _ => .pure' _
  | .pointer t => by
    unfold mapType
    exact .ite' (.pure' _) (.bind' (always_mapType hn t) fun _ => .pure' _)
  | .struct fields => .bind' (always_mapFields hn fields) fun _ => .pure' _
  | .func params result _ => by
    unfold mapType
    have rest : ∀ result : Ir.Ty, Always r (do
        let ps ← mapFields store named params
        pure (Ir.Ty.pointer (.func result ps))) :=
      fun _ => .bind' (always_mapFields hn params) fun _ => .pure' _
    split
    · exact .bind' (.pure' _) rest
    · exact .bind' (always_mapType hn result) rest
  | .named id => hn id

theorem always_mapFields (hn : ∀ id, Always r (named id)) :
    ∀ fields, Always r (mapFields store named fields)
  | [] => .pure' _
  | (_, t) :: rest =>
    .bind' (always_mapType hn t) fun _ => .bind' (always_mapFields hn rest) fun _ => .pure' _

end

end

variable {c : Context} (mapped : ∀ (s : State) mapped, r s { s with mapped })
  (define : ∀ id o, c.analysis.store.declaration id = some o →
    Always r (addTypeDef (c.analysis.store.nameOf o)))
  (fields : ∀ t ts, Always r (setFields t ts))

include mapped define fields

theorem always_declaredType {map : Ty → Lower Ir.Ty} (hm : ∀ t, Always r (map t)) (id : NamedId) :
    Always r (declaredType c.analysis.store map id) := by
  have remember : ∀ type, Always r (Lower.remember id type) := fun type =>
    .modify' fun s => mapped s _
  refine .get_bind fun s => ?_
  split
  · exact .pure' _
  · split
    · split
      · exact .breach' _
      · rename_i o ho
        exact .bind' (define id o ho) fun _ => .bind' (remember _) fun _ =>
          .bind' (.mapM' (fun _ => hm _) _) fun _ => .bind' (fields _ _) fun _ => .pure' _
    · exact .bind' (hm _) fun _ => .bind' (remember _) fun _ => .pure' _

/-- A relation that holds of every single change to the table of types and to the definitions. -/
theorem always_instructionType (type : Ty) : Always r (instructionType c type) := by
  have within : ∀ depth type, Always r (instructionTypeWithin c.analysis.store depth type) := by
    intro depth
    induction depth with
    | zero => exact always_mapType (always_declaredType mapped define fields fun _ => .breach' _)
    | succ depth ih => exact always_mapType (always_declaredType mapped define fields ih)
  exact within _ type

end

/-! ## What all expressions share -/

/-- A relation that holds of what expressions do, apart from calls, string literals and
    branches. -/
structure Operates (c : Context) (r : State → State → Prop) : Prop where
  emit : ∀ inst type, inst.isOperation = true → Always r (emit inst type)
  slot : ∀ type count, Always r (stackSlot type count)
  buffer : ∀ content, Always r (addGlobal Abi.arrayBuffer content)
  instructionType : ∀ type, Always r (instructionType c type)

namespace Operates

variable {r : State → State → Prop} [Lasting r] {c : Context} (t : Operates c r)

include t

omit [Lasting r] in
theorem extractData (value : Ir.Value) : Always r (extractData value) := by
  unfold Lower.extractData
  split
  · exact t.emit _ _ rfl
  · refine .get_bind fun s => ?_
    split
    · exact t.emit _ _ rfl
    · exact .breach' _
    · exact .breach' _

/-! ### Conversions and operators -/

theorem convert (v : Ir.Value) (unsigned toUnsigned : Bool) (target : Ir.Ty) :
    Always r (convert v unsigned toUnsigned target) := by
  refine .get_bind fun s => ?_
  split
  · exact .pure' _
  · exact .pure' _
  · exact t.emit _ _ rfl

theorem convertTo (e : Expr) (v : Ir.Value) (type : Ty) : Always r (convertTo c e v type) :=
  .bind' (t.instructionType type) fun _ => t.convert _ _ _ _

theorem truth (e : Expr) (v : Ir.Value) : Always r (truth e v) := by
  unfold Lower.truth
  split
  · exact .ite' (.pure' _) (t.emit _ _ rfl)
  · exact t.emit _ _ rfl
  · exact t.emit _ _ rfl
  · exact .siteOf_reject e _

omit [Lasting r] in
theorem compareInts (op : Coded BinaryOp) (x y : Ir.Value) (unsigned : Bool) :
    Always r (compareInts op x y unsigned) := by
  unfold Lower.compareInts
  split
  · exact .breach' _
  · split
    · exact t.emit _ _ rfl
    · exact .breach' _

omit [Lasting r] in
theorem onIntegers (op : Coded BinaryOp) (x y : Ir.Value) (unsigned : Bool) :
    Always r (onIntegers op x y unsigned) := by
  unfold Lower.onIntegers
  split
  · exact t.emit _ _ rfl
  · exact t.compareInts op x y unsigned

omit [Lasting r] in
theorem onFloats (site : Site) (op : Coded BinaryOp) (x y : Ir.Value) :
    Always r (onFloats site op x y) := by
  unfold Lower.onFloats
  split
  · exact t.emit _ _ rfl
  · split
    · exact t.emit _ _ rfl
    · exact .reject' _ _

omit [Lasting r] in
theorem elementAddress (type : Ir.Ty) (base index : Ir.Value) :
    Always r (elementAddress type base index) := always_addressAt t.emit _ _ _ _

theorem onPointers (site : Site) (op : Coded BinaryOp) (x : Ir.Value) (elem : Ir.Ty)
    (y : Ir.Value) : Always r (onPointers site op x elem y) := by
  unfold Lower.onPointers
  split
  · exact t.elementAddress _ _ _
  · exact .bind' (t.emit _ _ rfl) fun _ => t.elementAddress _ _ _
  · exact .ite' (.bind' (t.convert _ _ _ _) fun _ => t.compareInts _ _ _ _) (.reject' _ _)

omit [Lasting r] in
theorem stepBy (e : Expr) (site : Site) (v : Ir.Value) (up : Bool) :
    Always r (stepBy e site v up) := by
  unfold Lower.stepBy
  cases v.type with
  | int w => exact t.emit _ _ rfl
  | float k => exact t.emit _ _ rfl
  | pointer elem => exact t.elementAddress _ _ _
  | _ => exact .described_reject e _ _

omit [Lasting r] in
theorem store (value place : Ir.Value) : Always r (store value place) := always_storeAt t.emit _ _

/-! ### Literals -/

theorem intConstant (site : Site) (value : Int64) : Always r (intConstant c site value) := by
  refine .bind' (.of_asks (asks_typeOfExpr c _)) fun _ => .bind' (t.instructionType _) fun _ => ?_
  split
  · exact .pure' _
  · exact .pure' _
  · exact .ite' (.pure' _) (.reject' _ _)
  · exact .reject' _ _

theorem floatConstant (site : Site) (bits : UInt64) : Always r (floatConstant c site bits) := by
  refine .bind' (.of_asks (asks_typeOfExpr c _)) fun _ => .bind' (t.instructionType _) fun _ => ?_
  split
  · exact .pure' _
  · exact .reject' _ _

theorem allocateArray (site : Site) (elem : Ir.Ty) (length : Nat) :
    Always r (allocateArray c site elem length) := by
  refine .bind' (t.slot _ _) fun slot => .bind' (.of_asks (asks_isLocal c site))
    fun isLocal => ?_
  have rest : ∀ buffer, Always r (do
      fillArray .cursor slot (arrayStruct elem) (.i32 length) buffer
      pure (⟨slot, arrayStruct elem, buffer⟩ : FreshArray)) := fun buffer =>
    .bind' (always_fillArray t.emit _ _ _ _) fun _ => .pure' _
  have outside : Always r (globalBuffer .cursor Abi.arrayBuffer elem length) :=
    .bind' (t.buffer _) fun _ => t.emit _ _ rfl
  split
  · exact .bind' (t.slot _ _) rest
  · exact .bind' outside rest

theorem unfilledArray (site : Site) (length : Int64) (elem : Option TypeRef) :
    Always r (unfilledArray c site length elem) :=
  .ite' (.reject' _ _) (.bind' (.of_asks (asks_typeOfRef c elem)) fun _ =>
    .bind' (t.instructionType _) fun _ => .bind' (t.allocateArray _ _ _) fun _ => t.emit _ _ rfl)

theorem instructionSignature (params : List (String × Ty)) (result : Ty) :
    Always r (instructionSignature c params result) := by
  unfold Lower.instructionSignature
  have rest : ∀ result : Ir.Ty, Always r (do
      let ps ← params.mapM fun p => Lower.instructionType c p.2
      pure (result, ps)) :=
    fun _ => .bind' (.mapM' (fun _ => t.instructionType _) _) fun _ => .pure' _
  split
  · exact .bind' (.pure' _) rest
  · exact .bind' (t.instructionType _) rest

/-! ### Variables and fields -/

theorem readVariable (site : Site) (name : String) (step : Coded Step) :
    Always r (readVariable c site name step) := by
  refine .bind' (.of_asks (asks_variableAt c name site)) fun v =>
    .bind' (.of_asks (asks_boundTo c v site)) fun place => ?_
  refine .ite' (.ite' (.pure' _) (.reject' _ _)) ?_
  refine .bind' (t.instructionType _) fun type => .bind' (t.emit _ _ rfl) fun old => ?_
  split
  · exact .breach' _
  · split
    · exact .pure' _
    · exact .bind' (t.stepBy _ _ _ _) fun _ => .bind' (t.store _ _) fun _ => .pure' _

theorem variablePlace (site : Site) (name : String) : Always r (variablePlace c site name) :=
  .bind' (.of_asks (asks_variableAt c name site)) fun v =>
    .bind' (.of_asks (asks_boundTo c v site)) fun _ =>
      .ite' (.reject' _ _) (.bind' (t.instructionType _) fun _ => .pure' _)

theorem callTarget (site : Site) (name : String) (given : Nat) :
    Always r (callTarget c site name given) := by
  refine .bind' (.of_asks (asks_variableAt c name site)) fun v =>
    .bind' (.of_asks (asks_boundTo c v site)) fun place => ?_
  have rest : ∀ callee, Always r (calleeParams c site name given v callee) := fun callee =>
    .of_asks (asks_calleeParams c site name given v callee)
  split
  · exact .bind' (.pure' _) rest
  · exact .bind' (t.instructionType _) fun _ => .bind' (t.emit _ _ rfl) rest

theorem fieldPlace (site : Site) (field : String) (base : Ir.Value) (type : Ty) :
    Always r (fieldPlace c site field base type) := by
  have address : ∀ type base index, Always r (fieldAddress type base index) := fun _ _ _ =>
    always_fieldAddressAt t.emit _ _ _
  refine .bind' (t.instructionType type) fun _ => ?_
  split
  · split
    · exact .reject' _ _
    · exact .bind' (address _ _ _) fun _ => .bind' (t.instructionType _) fun _ => .pure' _
  · split
    · refine .ite' (.bind' (address _ _ _) fun _ => .pure' _) (.ite' ?_ (.reject' _ _))
      exact .bind' (address _ _ _) fun _ => .bind' (t.instructionType _) fun _ => .pure' _
    · exact .reject' _ _

end Operates

/-- A relation that holds of what expressions do, string literals apart. -/
structure Touches (c : Context) (r : State → State → Prop) : Prop extends Operates c r where
  instruction : ∀ inst type, Always r (Lower.emit inst type)
  openBlock : ∀ name, Always r (openBlock name)
  terminate : ∀ t, Always r (terminate t)
  moveTo : ∀ l, Always r (moveTo l)

theorem Touches.mono {r r' : State → State → Prop} {c : Context} (t : Touches c r)
    (h : ∀ {s s'}, r s s' → r' s s') : Touches c r' where
  emit inst type hi := (t.emit inst type hi).mono h
  slot type count := (t.slot type count).mono h
  buffer content := (t.buffer content).mono h
  instructionType type := (t.instructionType type).mono h
  instruction inst type := (t.instruction inst type).mono h
  openBlock name := (t.openBlock name).mono h
  terminate term := (t.terminate term).mono h
  moveTo l := (t.moveTo l).mono h

/-! ## Expressions -/

end Lower

/-- A string literal: where it stands and its bytes. -/
structure Literal where
  site : Site
  content : Bytes
deriving DecidableEq, Repr

mutual

/-- The string literals of an expression, from left to right. -/
def Expr.literals : Expr → List Literal
  | .stringLit site content => [⟨site, content⟩]
  | .structLit _ _ args | .call _ _ args | .arrayLit _ args => Expr.literalsAll args
  | .selector _ x _ _ | .unary _ _ x | .cast _ x _ => x.literals
  | .index _ x y | .assign _ x y | .binary _ _ x y => x.literals ++ y.literals
  | .absent | .varRef _ _ _ | .arrayAlloc _ _ _ | .intLit _ _ | .floatLit _ _ | .boolLit _ _ => []

/-- The string literals of some expressions. -/
def Expr.literalsAll : List Expr → List Literal
  | [] => []
  | e :: es => e.literals ++ Expr.literalsAll es

end

namespace Lower

/-- A relation labelled by what a step leaves behind, in order. -/
class Recording {ε : Type} (R : List ε → State → State → Prop) : Prop where
  refl : ∀ s, R [] s s
  trans : ∀ {l l' s₁ s₂ s₃}, R l s₁ s₂ → R l' s₂ s₃ → R (l ++ l') s₁ s₃

/-- The relation of steps that leave nothing behind. -/
def Quiet {ε : Type} (R : List ε → State → State → Prop) : State → State → Prop := R []

section
variable {ε : Type} {R : List ε → State → State → Prop} [Recording R]

instance : Lasting (Quiet R) where
  refl := Recording.refl
  trans h₁ h₂ := Recording.trans h₁ h₂

instance (r : State → State → Prop) [Lasting r] : Recording fun _ : List ε => r where
  refl := Lasting.refl
  trans := Lasting.trans

namespace Always

variable {l l' : List ε} {m : Lower α} {f : α → Lower β}

theorem append (hm : Always (R l) m) (hf : ∀ a, Always (R l') (f a)) :
    Always (R (l ++ l')) (m >>= f) := by
  intro s b s' h
  obtain ⟨a, s₁, h₁, h₂⟩ := bind_eq_ok.mp h
  exact Recording.trans (hm s a s₁ h₁) (hf a s₁ b s' h₂)

theorem quiet_bind (hm : Always (Quiet R) m) (hf : ∀ a, Always (R l) (f a)) :
    Always (R l) (m >>= f) := append hm hf

theorem bind_quiet (hm : Always (R l) m) (hf : ∀ a, Always (Quiet R) (f a)) :
    Always (R l) (m >>= f) := by
  have both := append hm hf
  rwa [List.append_nil] at both

end Always

end

/-- The list `g e` of an expression is made of the lists of its operands, from left to right; calls
    and string literals may add to it. -/
structure LeftToRight {ε : Type} (g : Expr → List ε) (gs : List Expr → List ε) : Prop where
  nil : gs [] = []
  cons : ∀ e es, gs (e :: es) = g e ++ gs es
  intLit : ∀ site value, g (.intLit site value) = []
  floatLit : ∀ site bits, g (.floatLit site bits) = []
  boolLit : ∀ site value, g (.boolLit site value) = []
  varRef : ∀ site name step, g (.varRef site name step) = []
  arrayAlloc : ∀ site length elem, g (.arrayAlloc site length elem) = []
  structLit : ∀ site name args, g (.structLit site name args) = gs args
  arrayLit : ∀ site elems, g (.arrayLit site elems) = gs elems
  selector : ∀ site x field arrow, g (.selector site x field arrow) = g x
  unary : ∀ site op x, g (.unary site op x) = g x
  cast : ∀ site x target, g (.cast site x target) = g x
  index : ∀ site x i, g (.index site x i) = g x ++ g i
  assign : ∀ site x y, g (.assign site x y) = g x ++ g y
  binary : ∀ site op x y, g (.binary site op x y) = g x ++ g y

/-- A relation that holds of what expressions do, labelled by lists of expressions. -/
structure Composes {ε : Type} (c : Context) (g : Expr → List ε) (gs : List Expr → List ε)
    (R : List ε → State → State → Prop) : Prop extends Operates c (Quiet R) where
  order : LeftToRight g gs
  string : ∀ site content, Always (R (g (.stringLit site content))) (stringValue c site content)
  shortCircuit : ∀ isAnd x y {left right : Lower Ir.Value} {l l' : List ε},
    Always (R l) left → Always (R l') right →
    Always (R (l ++ l')) (shortCircuit isAnd x y left right)
  call : ∀ site name args, (∀ params, Always (R (gs args)) (arguments c params args)) →
    Always (R (g (.call site name args))) (valueOf c (.call site name args))

namespace Composes

variable {ε : Type} {g : Expr → List ε} {gs : List Expr → List ε}
  {R : List ε → State → State → Prop} [Recording R] {c : Context} (t : Composes c g gs R)
  {l l' : List ε}

include t

/-! ### Operands -/

theorem binaryValue (site : Site) (op : Coded BinaryOp) (x y : Expr)
    {left right : Lower Ir.Value} (hl : Always (R l) left) (hr : Always (R l') right) :
    Always (R (l ++ l')) (binaryValue c site op x y left right) := by
  refine .ite' (t.shortCircuit _ x y hl hr) (.append hl fun xv => ?_)
  split
  · exact .bind_quiet hr fun _ => .bind' (t.convert _ _ _ _) fun _ => t.onIntegers _ _ _ _
  · exact .bind_quiet hr fun _ => .bind' (t.convert _ _ _ _) fun _ => t.onFloats _ _ _ _
  · exact .bind_quiet hr fun _ => t.onPointers _ _ _ _ _
  · exact .described_reject x _ _

theorem unaryValue (site : Site) (op : Coded UnaryOp) (x : Expr) {value : Lower Ir.Value}
    {place : Lower (Ir.Value × Ir.Ty)} (hv : Always (R l) value) (hp : Always (R l) place) :
    Always (R l) (unaryValue site op x value place) := by
  unfold Lower.unaryValue
  split
  · exact hv
  · refine .bind_quiet hv fun v => ?_
    split
    · exact t.emit _ _ rfl
    · exact t.emit _ _ rfl
    · exact .described_reject x _ _
  · exact .bind_quiet hv fun v => .bind' (t.truth _ _) fun _ => t.emit _ _ rfl
  · refine .bind_quiet hv fun v => ?_
    split
    · exact t.emit _ _ rfl
    · exact .described_reject x _ _
  · exact .bind_quiet hp fun _ => .pure' _
  · exact .bind_quiet hv fun p => .bind' (.of_asks (asks_pointeeType x p)) fun _ => t.emit _ _ rfl
  · exact .described_reject x _ _

theorem castValue (x : Expr) (target : Option TypeRef) {value : Lower Ir.Value}
    (hv : Always (R l) value) : Always (R l) (castValue c x target value) :=
  .quiet_bind (.of_asks (asks_typeOfRef c target)) fun _ => .bind_quiet hv fun _ =>
    .ite' (t.truth _ _) (t.convertTo _ _ _)

theorem addressOrSlot (e : Expr) {value : Lower Ir.Value} {place : Lower (Ir.Value × Ir.Ty)}
    (hv : Always (R l) value) (hp : Always (R l) place) :
    Always (R l) (addressOrSlot c e value place) :=
  .quiet_bind (.of_asks (asks_hasPlace c e)) fun _ => .ite' (.bind_quiet hp fun _ => .pure' _)
    (.bind_quiet hv fun _ => .bind' (t.slot _ _) fun _ => .bind' (t.store _ _) fun _ => .pure' _)

theorem selectorPlace (site : Site) (x : Expr) (field : String) (arrow : Bool)
    {value : Lower Ir.Value} {place : Lower (Ir.Value × Ir.Ty)} (hv : Always (R l) value)
    (hp : Always (R l) place) :
    Always (R l) (selectorPlace c site x field arrow value place) := by
  refine .ite' (.quiet_bind (.of_asks (asks_typeOfExpr c x)) fun _ => ?_) ?_
  · split
    · exact .bind_quiet hv fun _ => t.fieldPlace _ _ _ _
    · exact .described_reject x _ _
  · exact .bind_quiet (t.addressOrSlot x hv hp) fun _ =>
      .bind' (.of_asks (asks_typeOfExpr c x)) fun _ => t.fieldPlace _ _ _ _

theorem indexPlace (site : Site) (x : Expr) {value index : Lower Ir.Value}
    (hv : Always (R l) value) (hi : Always (R l') index) :
    Always (R (l ++ l')) (indexPlace c site x value index) := by
  have rest : ∀ (data : Ir.Value) (et : Ty), Always (R l') (do
      let elem ← instructionType c et
      let i ← index
      let q ← elementAddress elem data i
      pure (q, elem)) := fun _ et =>
    .quiet_bind (t.instructionType et) fun _ => .bind_quiet hi fun _ =>
      .bind' (t.elementAddress _ _ _) fun _ => .pure' _
  refine .quiet_bind (.of_asks (asks_typeOfExpr c x)) fun type => ?_
  dsimp only
  split
  · exact .append hv fun data => rest data _
  · split
    · exact .append hv fun _ => .quiet_bind (t.extractData _) fun data => rest data _
    · exact .described_reject_bind x _ _

omit t

/-! ### Whole expressions -/

mutual

/-- Lowering an expression lowers its operands, from left to right. -/
theorem valueOf (t : Composes c g gs R) : ∀ e : Expr, Always (R (g e)) (valueOf c e)
  | .absent => .breach' _
  | .intLit site value => by
    rw [t.order.intLit]
    exact t.intConstant site value
  | .floatLit site bits => by
    rw [t.order.floatLit]
    exact t.floatConstant site bits
  | .boolLit _ value => by
    rw [t.order.boolLit]
    exact .pure' (r := Quiet R) _
  | .stringLit site content => t.string site content
  | .varRef site name step => by
    rw [t.order.varRef]
    exact t.readVariable site name step
  | .call site name args => t.call site name args fun params => t.arguments params args
  | .structLit site name args => by
    rw [t.order.structLit]
    unfold Lower.valueOf
    refine .quiet_bind (.of_asks (asks_typeOfExpr c _)) fun _ => ?_
    split
    · exact .reject' _ _
    · rename_i fields _
      split
      · exact .reject' _ _
      · rename_i hlen
        have enough : args.length ≤ (fields.map Prod.snd).length := by
          rw [List.length_map]
          omega
        exact .quiet_bind (t.instructionType _) fun _ => .quiet_bind (t.slot _ _) fun _ =>
          .bind_quiet (t.storeFields _ _ _ _ args enough) fun _ => t.emit _ _ rfl
  | .arrayLit site elems => by
    rw [t.order.arrayLit]
    unfold Lower.valueOf
    refine .quiet_bind (.of_asks (asks_typeOfExpr c _)) fun _ => ?_
    split
    · exact .reject' _ _
    · exact .quiet_bind (t.instructionType _) fun _ => .quiet_bind (t.allocateArray _ _ _) fun _ =>
        .bind_quiet (t.storeElements _ _ _ _ elems) fun _ => t.emit _ _ rfl
  | .arrayAlloc site length elem => by
    rw [t.order.arrayAlloc]
    exact t.unfilledArray site length elem
  | .selector site x field arrow => by
    rw [t.order.selector]
    unfold Lower.valueOf
    exact .bind_quiet (t.selectorPlace site x field arrow (t.valueOf x) (t.placeOf x)) fun _ =>
      t.emit _ _ rfl
  | .index site x i => by
    rw [t.order.index]
    unfold Lower.valueOf
    exact .bind_quiet (t.indexPlace site x (t.valueOf x) (t.valueOf i)) fun _ => t.emit _ _ rfl
  | .assign _ target value => by
    rw [t.order.assign]
    unfold Lower.valueOf
    exact .append (t.placeOf target) fun _ => .bind_quiet (t.valueOf value) fun _ =>
      .bind' (t.convert _ _ _ _) fun _ => .bind' (t.store _ _) fun _ => .pure' _
  | .binary site op x y => by
    rw [t.order.binary]
    unfold Lower.valueOf
    exact t.binaryValue site op x y (t.valueOf x) (t.valueOf y)
  | .unary site op x => by
    rw [t.order.unary]
    unfold Lower.valueOf
    exact t.unaryValue site op x (t.valueOf x) (t.placeOf x)
  | .cast _ x target => by
    rw [t.order.cast]
    unfold Lower.valueOf
    exact t.castValue x target (t.valueOf x)

theorem placeOf (t : Composes c g gs R) : ∀ e : Expr, Always (R (g e)) (placeOf c e)
  | .varRef site name step => by
    rw [t.order.varRef]
    unfold Lower.placeOf
    split
    · exact t.variablePlace _ _
    all_goals first
      | exact .siteOf_reject _ _
      | (rename_i heq; cases heq)
  | .selector site x field arrow => by
    rw [t.order.selector]
    unfold Lower.placeOf
    exact t.selectorPlace site x field arrow (t.valueOf x) (t.placeOf x)
  | .index site x i => by
    rw [t.order.index]
    unfold Lower.placeOf
    exact t.indexPlace site x (t.valueOf x) (t.valueOf i)
  | .unary site op x => by
    have value := t.valueOf x
    rw [t.order.unary]
    unfold Lower.placeOf
    split
    case h_4 heq =>
      cases heq
      exact .bind_quiet value fun p => .bind' (.of_asks (asks_pointeeType x p)) fun _ => .pure' _
    all_goals first
      | exact .siteOf_reject _ _
      | (rename_i heq; cases heq)
  | .absent | .structLit _ _ _ | .call _ _ _ | .arrayLit _ _ | .arrayAlloc _ _ _
  | .assign _ _ _ | .binary _ _ _ _ | .cast _ _ _ | .intLit _ _ | .floatLit _ _
  | .boolLit _ _ | .stringLit _ _ => by
    unfold Lower.placeOf
    exact .siteOf_reject _ _

theorem arguments (t : Composes c g gs R) :
    ∀ (params : List (Ir.Ty × Bool)) (es : List Expr),
      Always (R (gs es)) (arguments c params es)
  | _, [] => by
    rw [t.order.nil]
    unfold Lower.arguments
    exact .pure' (r := Quiet R) _
  | [], e :: es => by
    rw [t.order.cons]
    unfold Lower.arguments
    exact .append (t.valueOf e) fun _ => .bind_quiet (t.arguments [] es) fun _ => .pure' _
  | (_, _) :: ps, e :: es => by
    rw [t.order.cons]
    unfold Lower.arguments
    exact .append (t.valueOf e) fun _ => .quiet_bind (t.convert _ _ _ _) fun _ =>
      .bind_quiet (t.arguments ps es) fun _ => .pure' _

theorem storeElements (t : Composes c g gs R) (et : Ty) (elem : Ir.Ty) (buffer : Ir.Value) :
    ∀ (i : Nat) (es : List Expr),
      Always (R (gs es)) (storeElements c et elem buffer i es)
  | _, [] => by
    rw [t.order.nil]
    unfold Lower.storeElements
    exact .pure' (r := Quiet R) _
  | i, e :: es => by
    rw [t.order.cons]
    unfold Lower.storeElements
    exact .append (t.valueOf e) fun _ => .quiet_bind (t.convertTo _ _ _) fun _ =>
      .quiet_bind (t.elementAddress _ _ _) fun _ => .quiet_bind (t.store _ _) fun _ =>
        t.storeElements et elem buffer (i + 1) es

/-- No field goes without its value. -/
theorem storeFields (t : Composes c g gs R) (type : Ir.Ty) (slot : Ir.Value) :
    ∀ (i : Nat) (ts : List Ty) (es : List Expr), es.length ≤ ts.length →
      Always (R (gs es)) (storeFields c type slot i ts es)
  | _, _, [], _ => by
    rw [t.order.nil]
    unfold Lower.storeFields
    exact .pure' (r := Quiet R) _
  | _, [], _ :: _, h => nomatch h
  | i, _ :: ts, e :: es, h => by
    rw [t.order.cons]
    unfold Lower.storeFields
    exact .append (t.valueOf e) fun _ => .quiet_bind (t.convertTo _ _ _) fun _ =>
      .quiet_bind (always_fieldAddressAt t.emit _ _ _) fun _ => .quiet_bind (t.store _ _) fun _ =>
        t.storeFields type slot (i + 1) ts es (Nat.le_of_succ_le_succ h)

end

include t

theorem condition (e : Expr) : Always (R (g e)) (condition c e) :=
  .bind_quiet (t.valueOf e) fun _ => t.truth _ _

theorem valueAs (e : Expr) (type : Ty) : Always (R (g e)) (valueAs c e type) :=
  .bind_quiet (t.valueOf e) fun _ => t.convertTo _ _ _

end Composes

theorem Expr.literals_leftToRight : LeftToRight Expr.literals Expr.literalsAll := by
  constructor <;> intros <;> simp [Expr.literals, Expr.literalsAll]

/-- A relation that holds of what expressions do, labelled by their string literals. -/
structure Records (c : Context) (R : List Literal → State → State → Prop) : Prop
    extends Touches c (Quiet R) where
  string : ∀ site content, Always (R [⟨site, content⟩]) (stringValue c site content)

namespace Records

variable {R : List Literal → State → State → Prop} [Recording R] {c : Context} (t : Records c R)

include t

theorem composes : Composes c Expr.literals Expr.literalsAll R where
  toOperates := t.toOperates
  order := Expr.literals_leftToRight
  string site content := t.string site content
  shortCircuit isAnd x y left right l l' hl hr := by
    refine .append hl fun _ => ?_
    refine .quiet_bind (t.truth _ _) fun _ => .quiet_bind (.of_asks asks_cursor) fun _ => ?_
    refine .quiet_bind (t.openBlock _) fun _ => .quiet_bind (t.openBlock _) fun _ => ?_
    refine .quiet_bind (t.terminate _) fun _ => .quiet_bind (t.moveTo _) fun _ => ?_
    refine .bind_quiet hr fun _ => .bind' (t.truth _ _) fun _ => ?_
    exact .bind' (.of_asks asks_cursor) fun _ => .bind' (t.terminate _) fun _ =>
      .bind' (t.moveTo _) fun _ => t.instruction _ _
  call site name args hargs := by
    unfold Lower.valueOf Expr.literals
    exact .quiet_bind (t.callTarget _ _ _) fun target =>
      .bind_quiet (hargs target.2) fun _ => t.instruction _ _

/-- Lowering an expression lowers its string literals, from left to right. -/
theorem valueOf (e : Expr) : Always (R e.literals) (valueOf c e) := t.composes.valueOf e

theorem condition (e : Expr) : Always (R e.literals) (condition c e) := t.composes.condition e

theorem valueAs (e : Expr) (type : Ty) : Always (R e.literals) (valueAs c e type) :=
  t.composes.valueAs e type

end Records

/-! ## Relations that do not look at the body -/

/-- Names of globals that literals ask for. -/
def bufferNames : List String := [Abi.stringGlobal, Abi.stringBuffer, Abi.arrayBuffer]

/-- A relation that holds of every single change an expression makes, whatever it does to the
    body. -/
structure Tolerant (c : Context) (r : State → State → Prop) : Prop where
  body : ∀ s b, r s (s.setBody b)
  buffer : ∀ name ∈ bufferNames, ∀ content, Always r (addGlobal name content)
  content : ∀ g (f : Ir.Global → Ir.Global), (∀ x, (f x).name = x.name) →
    Always r (modifyGlobal g f)
  intern : ∀ (s : State) strings, r s { s with strings }
  copy : Always r copyIntrinsic
  instructionType : ∀ type, Always r (instructionType c type)

namespace Tolerant

/-- A relation that holds of all calm steps. -/
theorem of_calm {r : State → State → Prop} {c : Context} (h : ∀ {s s'}, Calm s s' → r s s') :
    Tolerant c r where
  body _ _ := h (.setBody _ _)
  buffer _ _ _ s g s' hr := h (steady_addGlobal _ _ s g s' hr).2
  content _ _ _ s u s' hr := h (steady_modifyGlobal _ _ s u s' hr).2
  intern _ _ := h (.of_funcs_eq rfl rfl rfl rfl rfl)
  copy s v s' hr := h (steady_copyIntrinsic s v s' hr).2
  instructionType t s T s' hr := h (steady_instructionType c t s T s' hr).2

variable {r : State → State → Prop} [Lasting r] {c : Context} (t : Tolerant c r)

include t

theorem touches : Touches c r where
  emit _ _ _ := always_emitAt t.body .cursor _ _
  instruction := always_emitAt t.body .cursor
  slot _ _ := always_emitAt t.body .vars _ _
  openBlock := always_openBlock t.body
  terminate := always_terminate t.body
  moveTo := always_moveTo t.body
  buffer := t.buffer _ (by simp [bufferNames])
  instructionType := t.instructionType

theorem internedData (content : Bytes) : Always r (internedData content) := by
  refine .get_bind fun s => ?_
  split
  · exact .pure' _
  · exact .bind' (t.buffer _ (by simp [bufferNames]) _) fun _ =>
      .bind' (t.content _ _ fun _ => rfl) fun _ =>
        .bind' (.modify' fun s => t.intern s _) fun _ => .pure' _

theorem stringValue (site : Site) (content : Bytes) : Always r (stringValue c site content) := by
  have emits : ∀ inst type, Always r (emitAt .vars inst type) := always_emitAt t.body .vars
  have outside : Always r (globalBuffer .vars Abi.stringBuffer (.int 8) content.length) :=
    .bind' (t.buffer _ (by simp [bufferNames]) _) fun _ => emits _ _
  refine .bind' (emits _ _) fun slot => .bind' (.of_asks (asks_isLocal c site)) fun isLocal => ?_
  have rest : ∀ buffer, Always r (do
      let copy ← copyIntrinsic
      let data ← Lower.internedData content
      discard (callAt .vars copy [buffer, data, .i32 content.length, .bitFalse])
      fillArray .vars slot (arrayStruct (.int 8)) (.i32 content.length) buffer
      emitAt .vars (.load (arrayStruct (.int 8)) slot) (arrayStruct (.int 8))) := fun buffer =>
    .bind' t.copy fun _ => .bind' (t.internedData content) fun _ =>
      .bind' (.discard' (emits _ _)) fun _ =>
        .bind' (always_fillArray (fun _ _ _ => emits _ _) _ _ _ _) fun _ => emits _ _
  split
  · exact .bind' (emits _ _) rest
  · exact .bind' outside rest

theorem records : Records c fun _ => r := { t.touches with string := t.stringValue }

theorem valueOf (e : Expr) : Always r (valueOf c e) := t.records.valueOf e

theorem condition (e : Expr) : Always r (condition c e) := t.records.condition e

theorem valueAs (e : Expr) (type : Ty) : Always r (valueAs c e type) := t.records.valueAs e type

end Tolerant

end Lower

end TreeLowering
