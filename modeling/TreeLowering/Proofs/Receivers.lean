import TreeLowering.Proofs.Denotation
import TreeLowering.Proofs.Effects
import TreeLowering.Proofs.Statement

/-!
Where the value of an expression gets the type of what receives it.

A cast, the definition of a variable, an assignment, a `return` and a call each lower an expression,
convert its value to a type of their own, and hand the result on. `Receiver` names them with what
surrounds the expression, `Receiver.Asks` says which type they convert to and `Receiver.Takes` what
they do with the result. That they do nothing else with the value is `Receiver.converts`: what holds
of the conversion holds at all of them.
-/
namespace TreeLowering

open Lower

/-- What an expression is converted for. -/
inductive Receiver where
  /-- A cast to a type. -/
  | cast (site : Site) (target : TypeRef)
  /-- The initializer of a variable. -/
  | definition (d : VarDecl)
  /-- The right side of an assignment. -/
  | assignment (site : Site) (target : Expr)
  /-- The result of a function. -/
  | result (site : Site)
  /-- An argument of a call, between others. -/
  | argument (site : Site) (name : String) (before after : List Expr)

namespace Receiver

variable (c : Context) (e : Expr)

/-- Whether a receiver asks for a truth value by a cast, which is a test and no conversion. -/
def isTest : Receiver → Bool
  | .cast _ target => c.analysis.store.isBoolean (c.analysis.typeOfRef target)
  | _ => false

/-- Whether no cast asks for the conversion. -/
def isImplicit : Receiver → Bool
  | .cast _ _ => false
  | _ => true

theorem isTest_of_isImplicit (r : Receiver) (h : r.isImplicit = true) : r.isTest c = false := by
  cases r with
  | cast site target => cases h
  | _ => rfl

/-- Lowers a receiver with an expression; gives its own value if it is an expression. -/
def run : Receiver → Lower (Option Ir.Value)
  | .cast site target => some <$> valueOf c (.cast site e (some target))
  | .definition d => do
    defineVariable c { d with value := e }
    pure none
  | .assignment site target => some <$> valueOf c (.assign site target e)
  | .result site => do
    leave c site e
    pure none
  | .argument site name before after => some <$> valueOf c (.call site name (before ++ e :: after))

/-- The type that a receiver converts to; it is lowered from `s`, and the expression has been
    lowered in `s₁`. -/
def Asks (s s₁ : State) (type : Ir.Ty) : Receiver → Prop
  | .cast _ target => ∃ s₂, instructionType c (c.analysis.typeOfRef target) s₁ = .ok type s₂
  | .definition d => ∃ v s₂, c.analysis.resolve d.name (some d.site) = some v ∧
      instructionType c (variableType c v) s₁ = .ok type s₂
  | .assignment _ target => ∃ place s₀, placeOf c target s = .ok (place, type) s₀
  | .result _ => ∃ s₂, instructionType c s.body.result s₁ = .ok type s₂
  | .argument site name before after => ∃ callee params unsigned s₀,
      callTarget c site name (before ++ e :: after).length s = .ok (callee, params) s₀ ∧
        params[before.length]? = some (type, unsigned)

/-- What a receiver does with the converted value `v`: from the body `b` it comes to the state `s'`
    and gives `out`. A constant may also become the initial value of a global. -/
def Takes (v : Ir.Value) (b : Body) (s' : State) (out : Option Ir.Value) : Receiver → Prop
  | .cast _ _ => out = some v ∧ s'.body = b
  | .definition _ => v.isConstant = true ∨ ∃ b₁ place,
      (b₁ = b ∨ ∃ type, b₁ = b.addVarsLine (.alloca type none) (.pointer type)) ∧
        s'.body = b₁.emit (.store v place) .void
  | .assignment _ _ => out = some v ∧ ∃ place, s'.body = b.emit (.store v place) .void
  | .result _ => s'.body = (b.finish (.ret (some v))).halt
  | .argument _ _ before _ => ∃ b₁ code callee vs type, GrowsBy b code b₁ ∧
      vs[before.length]? = some v ∧ s'.body = b₁.emit (.call callee vs) type

end Receiver

namespace Lower

variable {α : Type} {c : Context} {e : Expr} {s s' : State}

/-! ## Before the expression -/

/-- Code leads from one state to another: what expressions keep is as it was. -/
structure Precedes (s s' : State) : Prop where
  calm : Calm s s'
  code : ∃ code, GrowsBy s.body code s'.body

instance : Lasting Precedes where
  refl s := ⟨.refl s, .nil, .nil _⟩
  trans h₁ h₂ := by
    obtain ⟨c₁, g₁⟩ := h₁.code
    obtain ⟨c₂, g₂⟩ := h₂.code
    exact ⟨h₁.calm.trans h₂.calm, .seq c₁ c₂, .seq g₁ g₂⟩

theorem precedes_of_emits {m : Lower α} {R : Ir.FuncId → α → Prop}
    (h : ∀ fn, Emits (Policy.free fn) m (R fn)) : Always Precedes m := by
  intro s a s' hm
  obtain ⟨-, calm, code⟩ := h s.body.fn s a s' hm rfl (Policy.free_covers _ _)
  exact ⟨calm, code⟩

theorem precedes_of_steady {m : Lower α} (h : Steady m) : Always Precedes m :=
  h.mono fun hs => ⟨hs.2, .nil, hs.1 ▸ .nil _⟩

theorem precedes_valueOf (c : Context) (e : Expr) : Always Precedes (valueOf c e) :=
  precedes_of_emits fun fn => emits_valueOf e (admits_free fn c e)

theorem precedes_placeOf (c : Context) (e : Expr) : Always Precedes (placeOf c e) :=
  precedes_of_emits fun fn => emits_placeOf e (admits_free fn c e)

theorem precedes_arguments (params : List (Ir.Ty × Bool)) (es : List Expr) :
    Always Precedes (arguments c params es) :=
  precedes_of_emits fun _ => emits_arguments params es (Policy.admitsAll_of_names es
    (Expr.namesAll_of_forall (fun _ _ _ _ => trivial) es) fun _ _ _ _ => trivial)

theorem precedes_callTarget (c : Context) (site : Site) (name : String) (given : Nat) :
    Always Precedes (callTarget c site name given) :=
  precedes_of_emits fun _ => emits_callTarget given fun _ _ => trivial

theorem precedes_convert (v : Ir.Value) (unsigned toUnsigned : Bool) (type : Ir.Ty) :
    Always Precedes (convert v unsigned toUnsigned type) :=
  precedes_of_emits (R := fun _ _ => True) fun _ => emits_convert unsigned toUnsigned type trivial

/-! ## The conversion -/

/-- The value `v` of an expression got the type `type`: it became `v'`. The expression was lowered
    from the state `s` to the state `s₁`, and the body is `b` after the conversion. -/
def Converts (c : Context) (e : Expr) (s s₁ : State) (v : Ir.Value) (type : Ir.Ty) (v' : Ir.Value)
    (b : Body) : Prop :=
  valueOf c e s = .ok v s₁ ∧ ∃ s₂ s₃ toUnsigned, s₂.body = s₁.body ∧
    convert v (isUnsignedAt c e) toUnsigned type s₂ = .ok v' s₃ ∧ s₃.body = b

theorem convertTo_eq_ok {v v' : Ir.Value} {t : Ty} {s₁ : State}
    (he : valueOf c e s = .ok v s₁) (h : convertTo c e v t s₁ = .ok v' s') :
    ∃ type s₂, instructionType c t s₁ = .ok type s₂ ∧ Converts c e s s₁ v type v' s'.body := by
  obtain ⟨type, s₂, htype, h⟩ := bind_eq_ok.mp h
  obtain ⟨hbody, -⟩ := steady_instructionType c t _ _ _ htype
  exact ⟨type, s₂, htype, he, s₂, s', _, hbody, h, rfl⟩

theorem valueAs_eq_ok {v' : Ir.Value} {t : Ty} (h : valueAs c e t s = .ok v' s') :
    ∃ s₁ v type s₂, instructionType c t s₁ = .ok type s₂ ∧
      Converts c e s s₁ v type v' s'.body := by
  obtain ⟨v, s₁, he, h⟩ := bind_eq_ok.mp h
  obtain ⟨type, s₂, htype, hconv⟩ := convertTo_eq_ok he h
  exact ⟨s₁, v, type, s₂, htype, hconv⟩

theorem store_eq_ok {v place : Ir.Value} {u : Unit} (h : store v place s = .ok u s') :
    s'.body = s.body.emit (.store v place) .void := by
  unfold store storeAt at h
  rw [get_bind_apply] at h
  split at h
  · obtain ⟨_, h⟩ := discard_eq_ok.mp h
    obtain ⟨-, -, rfl⟩ := emitAt_cursor_eq_ok.mp h
    rfl
  · simp at h

/-! ## Receivers -/

/-- Among the arguments of a call each is converted to its parameter. -/
theorem arguments_converts (before after : List Expr) {params : List (Ir.Ty × Bool)} {type : Ir.Ty}
    {unsigned : Bool} {vs : List Ir.Value} (hparam : params[before.length]? = some (type, unsigned))
    (h : arguments c params (before ++ e :: after) s = .ok vs s') :
    ∃ s₀ s₁ v v' b code, Precedes s s₀ ∧ Converts c e s₀ s₁ v type v' b ∧
      vs[before.length]? = some v' ∧ GrowsBy b code s'.body := by
  induction before generalizing params s vs with
  | nil =>
    cases params with
    | nil => cases hparam
    | cons p ps =>
      cases hparam
      rw [List.nil_append, arguments] at h
      obtain ⟨v, s₁, he, h⟩ := bind_eq_ok.mp h
      obtain ⟨v', s₂, hconv, h⟩ := bind_eq_ok.mp h
      obtain ⟨vs', s₃, hrest, h⟩ := bind_eq_ok.mp h
      obtain ⟨rfl, rfl⟩ := pure_eq_ok.mp h
      obtain ⟨code, grows⟩ := (precedes_arguments _ _ _ _ _ hrest).code
      exact ⟨s, s₁, v, v', s₂.body, code, Lasting.refl s, ⟨he, s₁, s₂, _, rfl, hconv, rfl⟩, rfl,
        grows⟩
  | cons a before ih =>
    cases params with
    | nil => cases hparam
    | cons p ps =>
      rw [List.cons_append, arguments] at h
      obtain ⟨v, s₁, he, h⟩ := bind_eq_ok.mp h
      obtain ⟨v', s₂, hconv, h⟩ := bind_eq_ok.mp h
      obtain ⟨vs', s₃, hrest, h⟩ := bind_eq_ok.mp h
      obtain ⟨rfl, rfl⟩ := pure_eq_ok.mp h
      obtain ⟨s₀, s₄, x, x', b, code, precedes, rest⟩ := ih hparam hrest
      have first := Lasting.trans (precedes_valueOf c a _ _ _ he)
        (precedes_convert _ _ _ _ _ _ _ hconv)
      exact ⟨s₀, s₄, x, x', b, code, Lasting.trans first precedes, rest⟩

/-- A call lowers its arguments and then calls. -/
theorem call_eq_ok {site : Site} {name : String} {args : List Expr} {v : Ir.Value}
    (h : valueOf c (.call site name args) s = .ok v s') :
    ∃ callee params s₀ vs s₁ type, callTarget c site name args.length s = .ok (callee, params) s₀ ∧
      arguments c params args s₀ = .ok vs s₁ ∧ s'.body = s₁.body.emit (.call callee vs) type := by
  rw [valueOf] at h
  obtain ⟨⟨callee, params⟩, s₀, htarget, h⟩ := bind_eq_ok.mp h
  obtain ⟨vs, s₁, hargs, h⟩ := bind_eq_ok.mp h
  obtain ⟨-, -, rfl⟩ := emitAt_cursor_eq_ok.mp h
  exact ⟨callee, params, s₀, vs, s₁, _, htarget, hargs, rfl⟩

/-- The callee of a call has as many parameters as it is given arguments. -/
theorem callTarget_length {site : Site} {name : String} {given : Nat} {callee : Ir.Value}
    {params : List (Ir.Ty × Bool)}
    (h : callTarget c site name given s = .ok (callee, params) s') : params.length = given := by
  unfold callTarget at h
  obtain ⟨v, place, -, -, h⟩ := named_eq_ok h
  cases hf : place.isFunc with
  | true =>
    simp only [hf, if_true, pure_bind] at h
    obtain ⟨-, -, hlength, -⟩ := calleeParams_eq_ok h
    exact hlength.symm
  | false =>
    simp only [hf, Bool.false_eq_true, if_false] at h
    obtain ⟨type, s₁, -, h⟩ := bind_eq_ok.mp h
    obtain ⟨callee', s₂, -, h⟩ := bind_eq_ok.mp h
    obtain ⟨-, -, hlength, -⟩ := calleeParams_eq_ok h
    exact hlength.symm

/-- A local variable is defined with its initializer converted to its type. -/
theorem defineLocal_eq_ok {d : VarDecl} {v : ObjectId} {slotType : Ir.Ty} {u : Unit}
    (hd : d.value.isAbsent = false) (h : defineLocal c d v slotType s = .ok u s') :
    ∃ s₁ x type x' b s₂, instructionType c (variableType c v) s₁ = .ok type s₂ ∧
      Converts c d.value s s₁ x type x' b ∧ (Receiver.definition d).Takes x' b s' none := by
  unfold defineLocal at h
  rw [hd, if_neg Bool.false_ne_true] at h
  obtain ⟨x', s₁, hvalue, h⟩ := bind_eq_ok.mp h
  obtain ⟨slot, s₂, hslot, h⟩ := bind_eq_ok.mp h
  obtain ⟨_, s₃, hstore, h⟩ := bind_eq_ok.mp h
  cases h
  obtain ⟨rfl, rfl⟩ := emitAt_vars_eq_ok.mp hslot
  obtain ⟨s₀, x, type, s₄, htype, hconv⟩ := valueAs_eq_ok hvalue
  exact ⟨s₀, x, type, x', s₁.body, s₄, htype, hconv,
    .inr ⟨_, _, .inr ⟨slotType, rfl⟩, store_eq_ok hstore⟩⟩

/-- A global is defined with its initializer converted to its type. -/
theorem defineGlobal_eq_ok {d : VarDecl} {v : ObjectId} {content : Ir.Ty} {u : Unit}
    (hd : d.value.isAbsent = false) (h : defineGlobal c d v content s = .ok u s') :
    ∃ s₀ s₁ x type x' b s₂, Precedes s s₀ ∧ instructionType c (variableType c v) s₁ = .ok type s₂ ∧
      Converts c d.value s₀ s₁ x type x' b ∧ (Receiver.definition d).Takes x' b s' none := by
  unfold defineGlobal at h
  obtain ⟨g, s₀, hglobal, h⟩ := bind_eq_ok.mp h
  rcases ite_eq_ok.mp h with ⟨habsent, -⟩ | ⟨-, h⟩
  · rw [hd] at habsent
    cases habsent
  obtain ⟨x', s₂, hvalue, h⟩ := bind_eq_ok.mp h
  obtain ⟨s₁, x, type, s₃, htype, hconv⟩ := valueAs_eq_ok hvalue
  have precedes := precedes_of_steady (steady_addGlobal _ _) _ _ _ hglobal
  refine ⟨s₀, s₁, x, type, x', s₂.body, s₃, precedes, htype, hconv, ?_⟩
  rcases ite_eq_ok.mp h with ⟨hconst, -⟩ | ⟨-, h⟩
  · exact .inl hconst
  · obtain ⟨_, s₄, hstore, h⟩ := bind_eq_ok.mp h
    have hbody := store_eq_ok hstore
    cases h
    exact .inr ⟨_, _, .inl rfl, hbody⟩

/-- A variable is defined with its initializer converted to its type. -/
theorem defineVariable_eq_ok {d : VarDecl} {u : Unit} (hd : d.value.isAbsent = false)
    (h : defineVariable c d s = .ok u s') :
    ∃ s₀ s₁ x type x' b, Precedes s s₀ ∧ (Receiver.definition d).Asks c d.value s s₁ type ∧
      Converts c d.value s₀ s₁ x type x' b ∧ (Receiver.definition d).Takes x' b s' none := by
  unfold defineVariable at h
  obtain ⟨v, s₁, hv, h⟩ := bind_eq_ok.mp h
  obtain ⟨hres, hs⟩ := variableAt_eq_ok hv
  rw [hs] at h
  rcases ite_eq_ok.mp h with ⟨-, h⟩ | ⟨-, h⟩
  · exact (reject_ne_ok.mp h).elim
  obtain ⟨slotType, s₂, htype, h⟩ := bind_eq_ok.mp h
  have typed : Precedes s s₂ := precedes_of_steady (steady_instructionType c _) _ _ _ htype
  rcases ite_eq_ok.mp h with ⟨-, h⟩ | ⟨-, h⟩
  · obtain ⟨s₀, s₁, x, type, x', b, s₃, precedes, htype, rest⟩ := defineGlobal_eq_ok hd h
    exact ⟨s₀, s₁, x, type, x', b, Lasting.trans typed precedes, ⟨v, s₃, hres, htype⟩, rest⟩
  obtain ⟨here, s₃, hlocal, h⟩ := bind_eq_ok.mp h
  have typed := Lasting.trans typed (precedes_of_steady (steady_isLocal c _) _ _ _ hlocal)
  rcases ite_eq_ok.mp h with ⟨-, h⟩ | ⟨-, h⟩
  · obtain ⟨s₁, x, type, x', b, s₄, htype, rest⟩ := defineLocal_eq_ok hd h
    exact ⟨s₃, s₁, x, type, x', b, typed, ⟨v, s₄, hres, htype⟩, rest⟩
  · obtain ⟨s₀, s₁, x, type, x', b, s₃, precedes, htype, rest⟩ := defineGlobal_eq_ok hd h
    exact ⟨s₀, s₁, x, type, x', b, Lasting.trans typed precedes, ⟨v, s₃, hres, htype⟩, rest⟩

/-- A function returns its result converted to its result type. -/
theorem leave_eq_ok {site : Site} {u : Unit} (he : e.isAbsent = false)
    (h : leave c site e s = .ok u s') :
    ∃ s₁ v type v' b, (Receiver.result site).Asks c e s s₁ type ∧
      Converts c e s s₁ v type v' b ∧ (Receiver.result site).Takes v' b s' none := by
  unfold leave at h
  rw [get_bind_apply] at h
  cases hh : s.body.head with
  | none => simp [hh] at h
  | some head =>
    simp only [hh, he, Bool.false_eq_true, if_false, ite_eq_ok, bind_eq_ok, terminate_eq_ok,
      reject_ne_ok, moveNowhere_apply, false_and, exists_false, and_false, false_or] at h
    obtain ⟨-, v', s₁, hv, _, _, ⟨-, rfl⟩, h⟩ := h
    cases h
    obtain ⟨s₀, v, type, s₂, htype, hconv⟩ := valueAs_eq_ok hv
    exact ⟨s₀, v, type, v', s₁.body, ⟨s₂, htype⟩, hconv, rfl⟩

theorem typeOfRef_eq_ok {target : TypeRef} {t : Ty} (h : typeOfRef c (some target) s = .ok t s') :
    t = c.analysis.typeOfRef target ∧ s' = s := by
  unfold typeOfRef knownType at h
  simp only [ite_eq_ok, reject_ne_ok, and_false, false_or, pure_eq_ok] at h
  exact ⟨h.2.1.symm, h.2.2.symm⟩

end Lower

/-- Every receiver lowers its expression, converts the value to the type that it asks for, and takes
    the result. -/
theorem Receiver.converts {c : Context} {e : Expr} {r : Receiver} {s s' : State}
    {out : Option Ir.Value} (he : e.isAbsent = false) (hr : r.isTest c = false)
    (h : r.run c e s = .ok out s') :
    ∃ s₀ s₁ v type v' b, Precedes s s₀ ∧ r.Asks c e s s₁ type ∧ Converts c e s₀ s₁ v type v' b ∧
      r.Takes v' b s' out := by
  cases r with
  | cast site target =>
    obtain ⟨v', hv', rfl⟩ := map_eq_ok.mp h
    unfold valueOf castValue at hv'
    obtain ⟨t, s₀, ht, hv'⟩ := bind_eq_ok.mp hv'
    obtain ⟨v, s₁, hv, hv'⟩ := bind_eq_ok.mp hv'
    obtain ⟨ht, hs⟩ := typeOfRef_eq_ok ht
    have hr : c.analysis.store.isBoolean (c.analysis.typeOfRef target) = false := hr
    rw [hs] at hv
    rw [ht, hr, if_neg Bool.false_ne_true] at hv'
    obtain ⟨type, s₂, htype, hconv⟩ := convertTo_eq_ok hv hv'
    exact ⟨s, s₁, v, type, v', s'.body, Lasting.refl s, ⟨s₂, htype⟩, hconv, rfl, rfl⟩
  | definition d =>
    obtain ⟨_, s₁, hdef, hout⟩ := bind_eq_ok.mp h
    obtain ⟨rfl, rfl⟩ := pure_eq_ok.mp hout
    exact defineVariable_eq_ok (d := { d with value := e }) he hdef
  | assignment site target =>
    obtain ⟨out, hout, rfl⟩ := map_eq_ok.mp h
    unfold valueOf at hout
    obtain ⟨⟨place, type⟩, s₀, hplace, hout⟩ := bind_eq_ok.mp hout
    obtain ⟨v, s₁, hv, hout⟩ := bind_eq_ok.mp hout
    obtain ⟨v', s₂, hconv, hout⟩ := bind_eq_ok.mp hout
    obtain ⟨_, s₃, hstore, hout⟩ := bind_eq_ok.mp hout
    obtain ⟨rfl, rfl⟩ := pure_eq_ok.mp hout
    exact ⟨s₀, s₁, v, type, v', s₂.body, precedes_placeOf c target _ _ _ hplace,
      ⟨place, s₀, hplace⟩, ⟨hv, s₁, s₂, _, rfl, hconv, rfl⟩, rfl, place, store_eq_ok hstore⟩
  | result site =>
    obtain ⟨_, s₁, hleave, hout⟩ := bind_eq_ok.mp h
    obtain ⟨rfl, rfl⟩ := pure_eq_ok.mp hout
    obtain ⟨s₁, v, type, v', b, rest⟩ := leave_eq_ok he hleave
    exact ⟨s, s₁, v, type, v', b, Lasting.refl s, rest⟩
  | argument site name before after =>
    obtain ⟨out, hout, rfl⟩ := map_eq_ok.mp h
    obtain ⟨callee, params, s₀, vs, s₁, result, htarget, hargs, hbody⟩ := call_eq_ok hout
    have hlt : before.length < params.length := by
      rw [callTarget_length htarget]
      simp
    obtain ⟨s₂, s₃, v, v', b, code, precedes, hconv, hvs, grows⟩ :=
      arguments_converts before after (List.getElem?_eq_getElem hlt) hargs
    exact ⟨s₂, s₃, v, _, v', b, Lasting.trans (precedes_callTarget c _ _ _ _ _ _ htarget) precedes,
      ⟨callee, params, _, s₀, htarget, List.getElem?_eq_getElem hlt⟩, hconv, s₁.body, code, callee,
      vs, result, grows, hvs, hbody⟩

end TreeLowering
