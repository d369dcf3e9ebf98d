import TreeLowering.Proofs.Fragment
import TreeLowering.Proofs.Storage

/-!
Expressions of numbers are lowered to typed instructions.

`Consistent` is what holds between any two steps: variables are bound to places that fit their
types, or to functions with the types of their definitions, and all that was lowered so far is
typed. `Delivers m Q` says that `m` keeps this, and that its result satisfies `Q`. Where a value is
used, its type is known: conversions give exactly the type asked for (`delivers_convert`), as there
is a conversion between any two numbers, and the value of an expression of numbers is a number
(`delivers_valueOf`).
-/
namespace TreeLowering

open Lower

/-! ## States -/

section
variable (c : Context) (F : Definitions)

/-- What a variable may be bound to: a place for numbers of its type, or the function of a
    definition. -/
inductive Bound (s : State) (v : ObjectId) : Ir.Value → Prop where
  | place {x : Ir.Value} {T : Ir.Ty} (func : x.isFunc = false) (type : x.type = .pointer T)
      (number : c.analysis.store.number? (variableType c v) = some T) : Bound s v x
  | func {id : Ir.FuncId} {f : Ir.Function} {h : FuncHead} {body : Block}
      (mem : s.module.funcs[id]? = some f)
      (other : c.analysis.store.number? (variableType c v) = none) (defined : F h body)
      (active : h.Active c) (name : c.analysis.resolve h.name (some h.site) = some v)
      (types : h.HasTypes c f.result (f.params.map Prod.snd)) : Bound s v (f.value id)

/-- The type of what a body returns; the top-level code returns what the init function does. -/
def Body.result? (b : Body) : Option Ir.Ty :=
  if b.head.isNone then some (initFunction c.config).result
  else c.analysis.store.result? b.result

/-- The body belongs to a function that returns what the body does, and is typed. -/
def Body.WellTyped (funcs : Array Ir.Function) (b : Body) : Prop :=
  ∃ f, funcs[b.fn]? = some f ∧ b.result? c = some f.result ∧
    b.All (Ir.Inst.WellTyped funcs) (Ir.Term.WellTyped f.result)

/-- What holds between any two steps. -/
structure Consistent (s : State) : Prop where
  registry : Registry c F s
  bound : ∀ {v x}, s.values.lookup v = some x → Bound c F s v x
  declared : ∀ {key id}, s.prototypes.lookup key = some (some id) →
    ∃ f, s.module.funcs[id]? = some f
  body : s.body.WellTyped c s.module.funcs
  functions : s.module.WellTyped

end

/-- What a step leaves as it was: the types of functions, and the function that the body belongs
    to. -/
structure Evolves (s s' : State) : Prop where
  types : Registry.KeepsTypes s s'
  fn : s'.body.fn = s.body.fn
  head : s'.body.head = s.body.head
  result : s'.body.result = s.body.result

/-- A step that keeps states consistent. -/
def Maintains (c : Context) (F : Definitions) (s s' : State) : Prop :=
  Consistent c F s → Consistent c F s' ∧ Evolves s s'

instance (c : Context) (F : Definitions) : Lasting (Maintains c F) where
  refl s C := ⟨C, .refl s, rfl, rfl, rfl⟩
  trans h₁ h₂ C := by
    obtain ⟨C₁, e₁⟩ := h₁ C
    obtain ⟨C₂, e₂⟩ := h₂ C₁
    exact ⟨C₂, e₁.types.trans e₂.types, e₂.fn.trans e₁.fn, e₂.head.trans e₁.head,
      e₂.result.trans e₁.result⟩

section
variable {c : Context} {F : Definitions} {s s' : State}

theorem Bound.keep {v : ObjectId} {x : Ir.Value} (h : Bound c F s v x)
    (k : Registry.KeepsTypes s s') : Bound c F s' v x := by
  cases h with
  | place func type number => exact .place func type number
  | @func id f h body mem other defined active name types =>
    obtain ⟨f', hf', -, ht⟩ := k id f mem
    obtain ⟨hr, hp⟩ := Ir.Function.type_inj ht
    rw [← Ir.Function.value_congr ht]
    exact .func hf' other defined active name (hr ▸ hp ▸ types)

theorem Body.WellTyped.keep {b : Body} (h : b.WellTyped c s.module.funcs)
    (k : Registry.KeepsTypes s s') : b.WellTyped c s'.module.funcs := by
  obtain ⟨f, hf, hr, all⟩ := h
  obtain ⟨f', hf', -, ht⟩ := k _ f hf
  rw [← (Ir.Function.type_inj ht).1] at hr all
  exact ⟨f', hf', hr, all.mono fun _ hi => hi.keep k⟩

theorem Ir.Module.WellTyped.keep (h : s.module.WellTyped) (k : Registry.KeepsTypes s s')
    (n : FillsNone s s') : s'.module.WellTyped := by
  intro f' hf' block hb
  obtain ⟨i, hi⟩ := Array.mem_iff_getElem?.mp hf'
  obtain ⟨f, hf, he⟩ := n i f' hi (List.ne_nil_of_mem hb)
  obtain ⟨f'', hf'', -, ht⟩ := k i f hf
  cases hi.symm.trans hf''
  have typed := h f (Array.mem_of_getElem? hf) block (he ▸ hb)
  rw [(Ir.Function.type_inj ht).1]
  exact ⟨fun line hl => (typed.lines line hl).keep k, typed.term⟩

namespace Consistent

/-- A step that leaves the body alone and fills no function. -/
theorem carry (C : Consistent c F s) (R : Registry c F s') (k : Registry.KeepsTypes s s')
    (n : FillsNone s s') (hb : s'.body = s.body)
    (hv : ∀ v x, s'.values.lookup v = some x → s.values.lookup v = some x ∨ Bound c F s' v x)
    (hp : ∀ key id, s'.prototypes.lookup key = some (some id) →
      s.prototypes.lookup key = some (some id) ∨ ∃ f, s'.module.funcs[id]? = some f) :
    Consistent c F s' ∧ Evolves s s' := by
  refine ⟨⟨R, ?_, ?_, ?_, C.functions.keep k n⟩, k, by rw [hb], by rw [hb], by rw [hb]⟩
  · intro v x hx
    exact (hv v x hx).elim (fun hx => (C.bound hx).keep k) id
  · intro key id hid
    rcases hp key id hid with hid | hf
    · obtain ⟨f, hf⟩ := C.declared hid
      exact (k id f hf).imp fun _ h => h.1
    · exact hf
  · rw [hb]
    exact C.body.keep k

theorem of_calm (C : Consistent c F s) (R : Registry c F s') (calm : Calm s s')
    (hb : s'.body = s.body) : Consistent c F s' ∧ Evolves s s' :=
  C.carry R (.of_calm calm) (.of_calm calm) hb (fun _ _ h => .inl (calm.values ▸ h))
    fun _ _ h => .inl (calm.prototypes ▸ h)

theorem setBody (C : Consistent c F s) {b : Body} (h : b.WellTyped c s.module.funcs) :
    Consistent c F (s.setBody b) where
  registry := C.registry.keep rfl rfl rfl rfl (.refl s)
  bound h := (C.bound h).keep (.refl s)
  declared := C.declared
  body := h
  functions := C.functions

/-- A change of the body under construction. -/
theorem build (C : Consistent c F s) {b : Body} (hfn : b.fn = s.body.fn)
    (hh : b.head = s.body.head) (hr : b.result = s.body.result)
    (all : ∀ result, s.body.result? c = some result →
      s.body.All (Ir.Inst.WellTyped s.module.funcs) (Ir.Term.WellTyped result) →
      b.All (Ir.Inst.WellTyped s.module.funcs) (Ir.Term.WellTyped result)) :
    Consistent c F (s.setBody b) ∧ Evolves s (s.setBody b) := by
  obtain ⟨f, hf, hres, hall⟩ := C.body
  have same : b.result? c = s.body.result? c := by
    rw [Body.result?, hh, hr, Body.result?]
  exact ⟨C.setBody ⟨f, hfn ▸ hf, same.trans hres, all _ hres hall⟩, .refl s, hfn, hh, hr⟩

theorem bind (C : Consistent c F s) {v : ObjectId} {x : Ir.Value} (h : Bound c F s v x) :
    Consistent c F { s with values := (v, x) :: s.values } ∧
      Evolves s { s with values := (v, x) :: s.values } := by
  refine C.carry (C.registry.keep rfl rfl rfl rfl (.refl s)) (.refl s)
    (fun _ f hf _ => ⟨f, hf, rfl⟩) rfl ?_ fun _ _ => .inl
  intro w y hy
  rcases lookup_cons_cases hy with hy | ⟨rfl, rfl⟩
  · exact .inl hy
  · exact .inr (h.keep (.refl s))

end Consistent

/-! ## Steps -/

namespace Lower

variable {α β : Type}

/-- The step keeps states consistent, and its result satisfies `Q`. -/
def Delivers (c : Context) (F : Definitions) (m : Lower α) (Q : α → Prop) : Prop :=
  ∀ s a s', m s = .ok a s' → Consistent c F s → (Consistent c F s' ∧ Evolves s s') ∧ Q a

namespace Delivers

variable {m : Lower α} {f : α → Lower β} {Q Q' : α → Prop} {P : β → Prop}

theorem always (h : Delivers c F m Q) : Always (Maintains c F) m :=
  fun s a s' hm C => (h s a s' hm C).1

theorem of_always (h : Always (Maintains c F) m) (hq : ∀ s a s', m s = .ok a s' → Q a) :
    Delivers c F m Q := fun s a s' hm C => ⟨h s a s' hm C, hq s a s' hm⟩

theorem of_asks (h : Asks m) (hq : ∀ s a, m s = .ok a s → Q a) : Delivers c F m Q := by
  intro s a s' hm C
  cases h s a s' hm
  exact ⟨Lasting.refl (r := Maintains c F) s C, hq s a hm⟩

theorem pure' {a : α} (h : Q a) : Delivers c F (pure a) Q := by
  intro s b s' hm C
  obtain ⟨rfl, rfl⟩ := pure_eq_ok.mp hm
  exact ⟨Lasting.refl (r := Maintains c F) s C, h⟩

theorem bind' (hm : Delivers c F m Q) (hf : ∀ a, Q a → Delivers c F (f a) P) :
    Delivers c F (m >>= f) P := by
  intro s b s' h C
  obtain ⟨a, s₁, h₁, h₂⟩ := bind_eq_ok.mp h
  obtain ⟨r₁, q⟩ := hm s a s₁ h₁ C
  obtain ⟨r₂, p⟩ := hf a q s₁ b s' h₂ r₁.1
  exact ⟨Lasting.trans (r := Maintains c F) (fun _ => r₁) (fun _ => r₂) C, p⟩

theorem mono (hm : Delivers c F m Q) (hq : ∀ a, Q a → Q' a) : Delivers c F m Q' :=
  fun s a s' h C => (hm s a s' h C).imp_right (hq a)

theorem get_bind {f : State → Lower α} (hf : ∀ s, Delivers c F (f s) Q) :
    Delivers c F (get >>= f) Q := fun s a s' h => hf s s a s' h

theorem reject' (pos : Position) (cause : Cause) : Delivers c F (reject pos cause) Q :=
  fun _ _ _ h => (reject_ne_ok.mp h).elim

theorem breach' (b : Breach) : Delivers c F (breach b) Q :=
  fun _ _ _ h => (breach_ne_ok.mp h).elim

theorem described_reject (e : Expr) (pos : Position) (cause : Bytes → Cause) :
    Delivers c F (do reject pos (cause (← described e)) : Lower α) Q := by
  intro s a s' h
  simp at h

theorem siteOf_reject (e : Expr) (cause : Bytes → Cause) :
    Delivers c F (do
      let s ← siteOf e
      reject s.position (cause (← described e)) : Lower α) Q := by
  intro s a s' h
  simp at h

theorem ite' {p : Prop} [Decidable p] {x y : Lower α} (hx : p → Delivers c F x Q)
    (hy : ¬p → Delivers c F y Q) : Delivers c F (if p then x else y) Q := by
  split
  · exact hx ‹_›
  · exact hy ‹_›

theorem discard' (hm : Delivers c F m Q) : Delivers c F (discard m) fun _ => True := by
  intro s u s' h C
  obtain ⟨a, ha⟩ := discard_eq_ok.mp h
  exact ⟨(hm s a s' ha C).1, trivial⟩

end Delivers

/-! ## Instructions -/

theorem emitAt_maintains {spot : Place} {inst : Ir.Inst} {type : Ir.Ty} {v : Ir.Value}
    (h : emitAt spot inst type s = .ok v s') (C : Consistent c F s)
    (hi : inst.WellTyped s.module.funcs) :
    (Consistent c F s' ∧ Evolves s s') ∧ v.type = type := by
  cases spot with
  | vars =>
    obtain ⟨rfl, rfl⟩ := emitAt_vars_eq_ok.mp h
    exact ⟨C.build rfl rfl rfl fun _ _ all => all.addVarsLine type hi, rfl⟩
  | cursor =>
    obtain ⟨-, rfl, rfl⟩ := emitAt_cursor_eq_ok.mp h
    have kept := Body.Kept.emit s.body inst type
    exact ⟨C.build kept.fn kept.head kept.result fun _ _ all => all.emit type hi, rfl⟩

theorem delivers_emitAt {spot : Place} {inst : Ir.Inst} (type : Ir.Ty)
    (hi : ∀ funcs, inst.WellTyped funcs) :
    Delivers c F (emitAt spot inst type) fun v => v.type = type :=
  fun _ _ _ h C => emitAt_maintains h C (hi _)

theorem delivers_emit {inst : Ir.Inst} (type : Ir.Ty) (hi : ∀ funcs, inst.WellTyped funcs) :
    Delivers c F (emit inst type) fun v => v.type = type := delivers_emitAt type hi

theorem delivers_number {inst : Ir.Inst} {type : Ir.Ty} (hT : type.IsNumber)
    (hi : ∀ funcs, inst.WellTyped funcs) :
    Delivers c F (emit inst type) fun v => v.type.IsNumber :=
  (delivers_emit type hi).mono fun _ hv => hv ▸ hT

theorem delivers_stackSlot (type : Ir.Ty) :
    Delivers c F (stackSlot type none) fun v => v.type = .pointer type ∧ v.isFunc = false := by
  intro s v s' h C
  have slot := emitAt_maintains h C trivial
  obtain ⟨rfl, -⟩ := emitAt_vars_eq_ok.mp h
  exact ⟨slot.1, slot.2, rfl⟩

theorem delivers_load {type : Ir.Ty} {place : Ir.Value} (h : place.type = .pointer type) :
    Delivers c F (load type place) fun v => v.type = type := delivers_emit type fun _ => h

theorem delivers_storeAt {spot : Place} {value place : Ir.Value}
    (h : place.type = .pointer value.type) :
    Delivers c F (storeAt spot value place) fun _ => True :=
  .get_bind fun _ => .ite' (fun _ => .discard' (delivers_emitAt _ fun _ => h)) fun _ => .breach' _

/-- Control flow makes no instruction and returns nothing. -/
theorem maintains_steer {b : Body} (h : s.body.Steers (fun _ => True) b) :
    Maintains c F s (s.setBody b) := by
  intro C
  obtain ⟨hfn, hh, hr⟩ := h.owner
  exact C.build hfn hh hr fun _ _ all =>
    h.all (fun _ ht _ => Ir.Term.wellTyped_of_successors ht) all

/-! ## Types -/

theorem maintains_instructionType (t : Ty) : Always (Maintains c F) (instructionType c t) := by
  intro s T s' h C
  obtain ⟨hb, calm⟩ := steady_instructionType c t s T s' h
  exact C.of_calm (registry_instructionType t s T s' h C.registry) calm hb

theorem delivers_instructionType {t : Ty} {N : Ir.Ty} (hn : c.analysis.store.number? t = some N) :
    Delivers c F (instructionType c t) fun T => T = N := by
  intro s T s' h C
  obtain ⟨hm, -, hread⟩ := answers_instructionTypeWithin _ _ _ t s T s' C.registry.types h
  exact ⟨maintains_instructionType t s T s' h C, hm.number hn hread⟩

/-! ## Conversions and operators -/

/-- What a conversion of a value is converted to a type. -/
def Conversion.Gives (v : Ir.Value) (T : Ir.Ty) : Conversion → Prop
  | .keep => v.type = T
  | .constant v' => v'.type = T
  | .instruction _ => True

theorem gives_intToInt (v : Ir.Value) (unsigned : Bool) (width target : Nat) :
    (intToInt v unsigned width target).Gives v (.int target) := by
  unfold intToInt
  split
  · split
    · split
      · rfl
      · split <;> trivial
    · split <;> trivial
  · trivial

theorem gives_intToFloat (v : Ir.Value) (unsigned : Bool) (target : Ir.FloatKind) :
    (intToFloat v unsigned target).Gives v (.float target) := by
  unfold intToFloat
  split
  · trivial
  · split
    · rfl
    · trivial

theorem gives_floatToFloat (v : Ir.Value) (target : Ir.FloatKind) :
    (floatToFloat v target).Gives v (.float target) := by
  unfold floatToFloat
  split
  · rfl
  · trivial

/-- There is a conversion between any two numbers. -/
theorem gives_conversion {defs : Array Ir.TypeDef} {v : Ir.Value} {unsigned toUnsigned : Bool}
    {T : Ir.Ty} (hv : v.type.IsNumber) (hT : T.IsNumber) :
    (conversion defs v unsigned toUnsigned T).Gives v T := by
  unfold conversion
  split
  · exact Ir.eq_of_sameType ‹_› hT.isScalar
  · cases T with
    | int w =>
      cases hw : v.type with
      | int w' => exact gives_intToInt v unsigned w' w
      | float k => trivial
      | _ => simp [hw, Ir.Ty.IsNumber] at hv
    | float k =>
      cases hw : v.type with
      | int w => exact gives_intToFloat v unsigned k
      | float k' => exact gives_floatToFloat v k
      | _ => simp [hw, Ir.Ty.IsNumber] at hv
    | _ => cases hT

theorem delivers_convert {v : Ir.Value} {unsigned toUnsigned : Bool} {T : Ir.Ty}
    (hv : v.type.IsNumber) (hT : T.IsNumber) :
    Delivers c F (convert v unsigned toUnsigned T) fun v' => v'.type = T := by
  refine .get_bind fun s => ?_
  have gives : (conversion s.module.types v unsigned toUnsigned T).Gives v T :=
    gives_conversion hv hT
  split
  · rename_i hc
    rw [hc] at gives
    exact .pure' gives
  · rename_i v' hc
    rw [hc] at gives
    exact .pure' gives
  · exact delivers_emit T fun _ => trivial

theorem delivers_convertTo {e : Expr} {v : Ir.Value} {t : Ty} {T : Ir.Ty}
    (hv : v.type.IsNumber) (ht : c.analysis.store.number? t = some T) :
    Delivers c F (convertTo c e v t) fun v' => v'.type = T := by
  refine .bind' (delivers_instructionType ht) fun T' he => ?_
  subst he
  exact delivers_convert hv (Store.isNumber_of_number? ht)

theorem delivers_truth {e : Expr} {v : Ir.Value} (hv : v.type.IsNumber) :
    Delivers c F (truth e v) fun v' => v'.type = .int 1 := by
  unfold truth
  split
  · rename_i w hw
    refine .ite' (fun h1 => .pure' ?_) fun _ => delivers_emit _ fun _ => hw
    rw [hw, h1]
  · rename_i k hk
    exact delivers_emit _ fun _ => hk
  · rename_i t ht
    rw [ht] at hv
    exact hv.elim
  · exact .siteOf_reject e _

theorem delivers_compareInts {op : Coded BinaryOp} {x y : Ir.Value} {unsigned : Bool}
    (h : x.type = y.type) :
    Delivers c F (compareInts op x y unsigned) fun v => v.type = .int 1 := by
  unfold compareInts
  split
  · exact .breach' _
  · split
    · exact delivers_emit _ fun _ => h
    · exact .breach' _

theorem delivers_onIntegers {op : Coded BinaryOp} {x y : Ir.Value} {unsigned : Bool}
    (hx : x.type.IsNumber) (h : x.type = y.type) :
    Delivers c F (onIntegers op x y unsigned) fun v => v.type.IsNumber := by
  unfold onIntegers
  split
  · exact delivers_number hx fun _ => h
  · exact (delivers_compareInts h).mono fun v hv => hv ▸ trivial

theorem delivers_onFloats {site : Site} {op : Coded BinaryOp} {x y : Ir.Value}
    (hx : x.type.IsNumber) (h : x.type = y.type) :
    Delivers c F (onFloats site op x y) fun v => v.type.IsNumber := by
  unfold onFloats
  split
  · exact delivers_number hx fun _ => h
  · split
    · exact delivers_number trivial fun _ => h
    · exact .reject' _ _

theorem delivers_stepBy {e : Expr} {site : Site} {v : Ir.Value} {up : Bool}
    (hv : v.type.IsNumber) : Delivers c F (stepBy e site v up) fun v' => v'.type = v.type := by
  unfold stepBy
  cases hT : v.type with
  | int w => exact delivers_emit _ fun _ => hT
  | float k => exact delivers_emit _ fun _ => hT
  | pointer t =>
    rw [hT] at hv
    exact hv.elim
  | _ => exact .described_reject e _ _

/-! ## Literals -/

theorem delivers_typeOfExpr {e : Expr} :
    Delivers c F (typeOfExpr c e) fun t => t = c.analysis.typeOfExpr e :=
  .of_asks (asks_typeOfExpr c e) fun _ _ h => (typeOfExpr_eq_ok h).1.symm

theorem delivers_intConstant {site : Site} {value : Int64}
    (h : (c.analysis.store.number? (c.analysis.typeOfExpr (.intLit site value))).isSome) :
    Delivers c F (intConstant c site value) fun v => v.type.IsNumber := by
  obtain ⟨N, hN⟩ := Option.isSome_iff_exists.mp h
  refine .bind' delivers_typeOfExpr fun t ht => ?_
  subst ht
  refine .bind' (delivers_instructionType hN) fun T hT => ?_
  subst hT
  have number := Store.isNumber_of_number? hN
  split
  · exact .pure' trivial
  · exact .pure' trivial
  · exact number.elim
  · exact .reject' _ _

theorem delivers_floatConstant {site : Site} {bits : UInt64}
    (h : (c.analysis.store.number? (c.analysis.typeOfExpr (.floatLit site bits))).isSome) :
    Delivers c F (floatConstant c site bits) fun v => v.type.IsNumber := by
  obtain ⟨N, hN⟩ := Option.isSome_iff_exists.mp h
  refine .bind' delivers_typeOfExpr fun t ht => ?_
  subst ht
  refine .bind' (delivers_instructionType hN) fun T hT => ?_
  split
  · exact .pure' trivial
  · exact .reject' _ _

/-! ## Variables -/

theorem delivers_variableAt {name : String} {site : Site} :
    Delivers c F (variableAt c name site) fun v => c.analysis.resolve name (some site) = some v :=
  .of_asks (asks_variableAt c name site) fun _ _ h => (variableAt_eq_ok h).1

/-- A variable of numbers is bound to a place for its numbers. -/
theorem delivers_named {name : String} {site : Site} {f : ObjectId → Ir.Value → Lower α}
    {Q : α → Prop} (hn : NamesNumber c name site)
    (hf : ∀ v x T, x.isFunc = false → x.type = .pointer T →
      c.analysis.store.number? (variableType c v) = some T → Delivers c F (f v x) Q) :
    Delivers c F (do
      let v ← variableAt c name site
      let place ← boundTo c v site
      f v place) Q := by
  intro s a s' h C
  obtain ⟨v, x, hv, hx, h⟩ := named_eq_ok h
  cases C.bound hx with
  | place func type number => exact hf v x _ func type number s a s' h C
  | func _ other _ _ _ _ => simpa [other] using hn v hv

theorem delivers_readVariable {site : Site} {name : String} {step : Coded Step}
    (hn : NamesNumber c name site) :
    Delivers c F (readVariable c site name step) fun v => v.type.IsNumber := by
  refine delivers_named hn fun v x T func type number => ?_
  have hT := Store.isNumber_of_number? number
  rw [if_neg (by simp [func])]
  refine .bind' (delivers_instructionType number) fun T' hT' => ?_
  subst hT'
  refine .bind' (delivers_load type) fun old hold => ?_
  split
  · exact .breach' _
  · split
    · exact .pure' (hold ▸ hT)
    · refine .bind' (delivers_stepBy (hold ▸ hT)) fun new hnew => ?_
      rw [hold] at hnew
      refine .bind' (delivers_storeAt (hnew ▸ type)) fun _ _ => .pure' ?_
      split
      · exact hnew ▸ hT
      · exact hold ▸ hT

theorem delivers_variablePlace {site : Site} {name : String} (hn : NamesNumber c name site) :
    Delivers c F (variablePlace c site name) fun r =>
      r.1.type = .pointer r.2 ∧ r.2.IsNumber := by
  refine delivers_named hn fun v x T func type number => ?_
  rw [if_neg (by simp [func])]
  refine .bind' (delivers_instructionType number) fun T' hT' => .pure' ?_
  subst hT'
  exact ⟨type, Store.isNumber_of_number? number⟩

theorem delivers_placeOf {site : Site} {name : String} {step : Coded Step}
    (hn : NamesNumber c name site) :
    Delivers c F (placeOf c (.varRef site name step)) fun r =>
      r.1.type = .pointer r.2 ∧ r.2.IsNumber := by
  unfold placeOf
  split
  · rename_i heq
    cases heq
    exact delivers_variablePlace hn
  all_goals first
    | exact .siteOf_reject _ _
    | (rename_i heq; cases heq)

/-! ## Calls -/

/-- A call reaches the function of a definition: what is no function is not called. -/
theorem callTarget_maintains {site : Site} {name : String} {given : Nat}
    {r : Ir.Value × List (Ir.Ty × Bool)} (h : callTarget c site name given s = .ok r s')
    (C : Consistent c F s) :
    (Consistent c F s' ∧ Evolves s s') ∧ given = r.2.length ∧
      ∃ (id : Ir.FuncId) (f : Ir.Function) (d : FuncHead), s'.module.funcs[id]? = some f ∧
        r.1 = f.value id ∧ r.2.map Prod.fst = f.params.map Prod.snd ∧ Callee c F name site d ∧
        d.HasTypes c f.result (f.params.map Prod.snd) := by
  obtain ⟨v, x, hv, hx, h⟩ := named_eq_ok h
  cases C.bound hx with
  | place func type number =>
    rw [if_neg (by simp [func])] at h
    obtain ⟨T, s₁, h₁, h⟩ := bind_eq_ok.mp h
    obtain ⟨⟨C₁, -⟩, rfl⟩ := delivers_instructionType number _ _ _ h₁ C
    obtain ⟨callee, s₂, h₂, h⟩ := bind_eq_ok.mp h
    obtain ⟨-, hT⟩ := delivers_load type _ _ _ h₂ C₁
    obtain ⟨-, -, -, result, hs⟩ := calleeParams_eq_ok h
    have number := Store.isNumber_of_number? number
    rw [← hT] at number
    cases hc : callee.type with
    | int | float => simp [hc, Ir.Ty.signature?] at hs
    | _ => simp [hc, Ir.Ty.IsNumber] at number
  | @func id f d body mem other defined active hname types =>
    dsimp only at h
    rw [if_pos (show (f.value id).isFunc = true from rfl), pure_bind] at h
    obtain ⟨rfl, hcallee, hgiven, result, hs⟩ := calleeParams_eq_ok h
    have hparams : r.2.map Prod.fst = f.params.map Prod.snd := by
      simp only [Ir.Function.value, Ir.Value.type, Ir.Ty.signature?, Option.some.injEq,
        Prod.mk.injEq] at hs
      exact hs.2.symm
    exact ⟨Lasting.refl (r := Maintains c F) _ C, hgiven, id, f, d, mem, hcallee, hparams,
      ⟨v, body, hv, defined, active, hname⟩, types⟩

theorem delivers_arguments {args : List Expr}
    (ha : ∀ e ∈ args, Delivers c F (valueOf c e) fun v => v.type.IsNumber) :
    ∀ {params : List (Ir.Ty × Bool)}, args.length = params.length →
      (∀ p ∈ params, p.1.IsNumber) →
      Delivers c F (arguments c params args) fun vs =>
        vs.map Ir.Value.type = params.map Prod.fst := by
  induction args with
  | nil =>
    intro params hlen _
    rw [List.eq_nil_of_length_eq_zero hlen.symm]
    unfold arguments
    exact .pure' rfl
  | cons e es ih =>
    intro params hlen hp
    obtain ⟨he, hes⟩ := List.forall_mem_cons.mp ha
    cases params with
    | nil => cases hlen
    | cons p ps =>
      obtain ⟨first, rest⟩ := List.forall_mem_cons.mp hp
      have hrest : es.length = ps.length := by simpa using hlen
      have later := ih hes hrest rest
      unfold arguments
      refine .bind' he fun v hv => .bind' (delivers_convert hv first) fun v' hv' => ?_
      refine .bind' later fun vs hvs => .pure' ?_
      rw [List.map_cons, List.map_cons, hv', hvs]

/-- A call has the type of the result of a definition that it can reach. -/
theorem delivers_call {site : Site} {name : String} {args : List Expr}
    (ha : ∀ e ∈ args, Delivers c F (valueOf c e) fun v => v.type.IsNumber) :
    Delivers c F (valueOf c (.call site name args)) fun v =>
      ∃ d ps, Callee c F name site d ∧ d.HasTypes c v.type ps := by
  intro s v s' h C
  unfold valueOf at h
  obtain ⟨r, s₁, h₁, h⟩ := bind_eq_ok.mp h
  obtain ⟨⟨C₁, e₁⟩, hgiven, id, f, d, hf, hcallee, hparams, hd, types⟩ := callTarget_maintains h₁ C
  have numbers : ∀ p ∈ r.2, p.1.IsNumber := by
    intro p hp
    obtain ⟨qs, _, _, -, -, hqs⟩ := types
    exact Store.isNumber_of_numbers hqs _ (hparams ▸ List.mem_map_of_mem hp)
  obtain ⟨vs, s₂, h₂, h₃⟩ := bind_eq_ok.mp h
  obtain ⟨⟨C₂, e₂⟩, hvs⟩ := delivers_arguments ha hgiven numbers _ _ _ h₂ C₁
  have typed : (Ir.Inst.call r.1 vs).WellTyped s₁.module.funcs :=
    ⟨id, f, hf, hcallee, hvs.trans hparams⟩
  obtain ⟨last, hv⟩ := emitAt_maintains h₃ C₂ (typed.keep e₂.types)
  have hresult : v.type = f.result := by
    rw [hv, hcallee]
    rfl
  refine ⟨?_, d, _, hd, hresult ▸ types⟩
  exact Lasting.trans (r := Maintains c F) (fun _ => ⟨C₁, e₁⟩)
    (Lasting.trans (r := Maintains c F) (fun _ => ⟨C₂, e₂⟩) fun _ => last) C

/-! ## Expressions -/

theorem delivers_shortCircuit {isAnd : Bool} {x y : Expr} {left right : Lower Ir.Value}
    (hl : Delivers c F left fun v => v.type.IsNumber)
    (hr : Delivers c F right fun v => v.type.IsNumber) :
    Delivers c F (shortCircuit isAnd x y left right) fun v => v.type = .int 1 := by
  have opens : ∀ name, Delivers c F (openBlock name) fun _ => True := fun name =>
    .of_always (fun s _ _ h => by cases h; exact maintains_steer (.addBlock name))
      fun _ _ _ _ => trivial
  have goes : ∀ l, Delivers c F (moveTo l) fun _ => True := fun l =>
    .of_always (.modify' fun s => maintains_steer (.goto l)) fun _ _ _ _ => trivial
  have ends : ∀ t : Ir.Term, t.successors ≠ [] → Delivers c F (terminate t) fun _ => True := by
    intro t ht
    refine .of_always (fun s u s' h => ?_) fun _ _ _ _ => trivial
    obtain ⟨-, rfl⟩ := terminate_eq_ok.mp h
    exact maintains_steer (.branch t ht fun _ _ => trivial)
  have here : Delivers c F cursor fun _ => True := .of_asks asks_cursor fun _ _ _ => trivial
  refine .bind' hl fun xv hx => .bind' (delivers_truth hx) fun xt _ => ?_
  refine .bind' here fun start _ => .bind' (opens _) fun rhs _ => .bind' (opens _) fun done _ => ?_
  refine .bind' (ends _ (by cases isAnd <;> simp [Ir.Term.successors])) fun _ _ => ?_
  refine .bind' (goes _) fun _ _ => .bind' hr fun yv hy => ?_
  refine .bind' (delivers_truth hy) fun yt _ => .bind' here fun finish _ => ?_
  refine .bind' (ends _ (List.cons_ne_nil _ _)) fun _ _ => .bind' (goes _) fun _ _ => ?_
  exact delivers_emit _ fun _ => trivial

theorem delivers_binaryValue {site : Site} {op : Coded BinaryOp} {x y : Expr}
    {left right : Lower Ir.Value} (hl : Delivers c F left fun v => v.type.IsNumber)
    (hr : Delivers c F right fun v => v.type.IsNumber) :
    Delivers c F (binaryValue c site op x y left right) fun v => v.type.IsNumber := by
  refine .ite' (fun _ => ?_) fun _ => .bind' hl fun xv hx => ?_
  · exact (delivers_shortCircuit hl hr).mono fun v hv => hv ▸ trivial
  cases hT : xv.type with
  | int w =>
    refine .bind' hr fun yv hy => .bind' (delivers_convert hy trivial) fun yv' hy' => ?_
    exact delivers_onIntegers hx (hT.trans hy'.symm)
  | float k =>
    refine .bind' hr fun yv hy => .bind' (delivers_convert hy trivial) fun yv' hy' => ?_
    exact delivers_onFloats hx (hT.trans hy'.symm)
  | _ => simp [hT, Ir.Ty.IsNumber] at hx

theorem delivers_unaryValue {site : Site} {op : UnaryOp} {x : Expr} {value : Lower Ir.Value}
    {place : Lower (Ir.Value × Ir.Ty)} (ho : op ∈ [UnaryOp.plus, .neg, .not, .complement])
    (hv : Delivers c F value fun v => v.type.IsNumber) :
    Delivers c F (unaryValue site (.known op) x value place) fun v => v.type.IsNumber := by
  cases op with
  | plus => exact hv
  | neg =>
    refine .bind' hv fun v hv => ?_
    cases hT : v.type with
    | int w => exact delivers_number trivial fun _ => hT.symm
    | float k => exact delivers_number trivial fun _ => trivial
    | _ => exact .described_reject x _ _
  | not =>
    refine .bind' hv fun v hv => .bind' (delivers_truth hv) fun t ht => ?_
    exact delivers_number trivial fun _ => ht
  | complement =>
    refine .bind' hv fun v hv => ?_
    cases hT : v.type with
    | int w => exact delivers_number trivial fun _ => hT
    | _ => exact .described_reject x _ _
  | addr | deref => simp at ho

theorem delivers_castValue {x : Expr} {target : Option TypeRef} {value : Lower Ir.Value}
    (ht : ∀ r, target = some r → (c.analysis.store.number? (c.analysis.typeOfRef r)).isSome)
    (hv : Delivers c F value fun v => v.type.IsNumber) :
    Delivers c F (castValue c x target value) fun v => v.type.IsNumber := by
  have type : Delivers c F (typeOfRef c target) fun t =>
      (c.analysis.store.number? t).isSome := by
    refine .of_asks (asks_typeOfRef c target) fun s t h => ?_
    unfold typeOfRef knownType at h
    cases target with
    | none => simp at h
    | some r =>
      rcases ite_eq_ok.mp h with ⟨-, h⟩ | ⟨-, h⟩
      · simp at h
      · rw [← (pure_eq_ok.mp h).1]
        exact ht r rfl
  refine .bind' type fun t hn => .bind' hv fun v hv => .ite' (fun _ => ?_) fun _ => ?_
  · exact (delivers_truth hv).mono fun _ h => h ▸ trivial
  · obtain ⟨N, hN⟩ := Option.isSome_iff_exists.mp hn
    exact (delivers_convertTo hv hN).mono fun _ h => h ▸ Store.isNumber_of_number? hN

/-- The value of an expression of numbers is a number. -/
theorem delivers_valueOf {e : Expr} (h : e.Numeric c F) :
    Delivers c F (valueOf c e) fun v => v.type.IsNumber := by
  induction h with
  | absent => exact .breach' _
  | intLit type => exact delivers_intConstant type
  | floatLit type => exact delivers_floatConstant type
  | @boolLit _ value => exact .pure' (by cases value <;> trivial)
  | varRef number => exact delivers_readVariable number
  | call _ result operands =>
    refine (delivers_call operands).mono ?_
    intro v ⟨d, ps, hd, types⟩
    exact result d v.type ps hd types
  | assign number _ operand =>
    unfold valueOf
    refine .bind' (delivers_placeOf number) fun r hr => .bind' operand fun v hv => ?_
    refine .bind' (delivers_convert hv hr.2) fun v' hv' => ?_
    exact .bind' (delivers_storeAt (hv' ▸ hr.1)) fun _ _ => .pure' (hv' ▸ hr.2)
  | binary _ _ left right =>
    unfold valueOf
    exact delivers_binaryValue left right
  | unary known _ operand =>
    unfold valueOf
    exact delivers_unaryValue known operand
  | cast type _ operand =>
    unfold valueOf
    exact delivers_castValue type operand

theorem delivers_condition {e : Expr} (h : e.Numeric c F) :
    Delivers c F (condition c e) fun v => v.type = .int 1 :=
  .bind' (delivers_valueOf h) fun _ hv => delivers_truth hv

theorem delivers_valueAs {e : Expr} {t : Ty} {T : Ir.Ty} (h : e.Numeric c F)
    (ht : c.analysis.store.number? t = some T) :
    Delivers c F (valueAs c e t) fun v => v.type = T :=
  .bind' (delivers_valueOf h) fun _ hv => delivers_convertTo hv ht

end Lower

end

end TreeLowering
