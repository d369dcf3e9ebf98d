import TreeLowering.Proofs.Receivers

/-!
Floating-point literals in the other floating-point type.

A literal is a constant of its own type that keeps the double as it is (`value_ofBits`). What
receives it in the other type gets a constant again and emits nothing: the number that the first
constant keeps is made into one of the other type. This is the same double, unless the literal is no
number. Then the first constant keeps a mark, which is not carried over (`float_folded`,
`nan_folded`).
-/
namespace TreeLowering

open Lower

/-- Whether a double is no number. -/
def Binary64.isNaN : Binary64 → Bool
  | .nan _ => true
  | _ => false

namespace Ir.FloatConst

variable {bits : UInt64}

/-- The double that a constant is. -/
def value : FloatConst → Binary64
  | .nan negative => .nan negative
  | .number bits => Binary64.ofBits bits

/-- A constant is no number just where a double is none, and else the same number with its sign. -/
structure Keeps (y : FloatConst) (x : Binary64) : Prop where
  isNaN : y.value.isNaN = x.isNaN
  value : x.isNaN = false → y.value = x

@[simp] theorem value_ofBits (bits : UInt64) : (ofBits bits).value = Binary64.ofBits bits := by
  unfold ofBits
  split
  · rename_i h
    exact h.symm
  · rfl

/-- The bits of a number are kept. -/
theorem ofBits_of_isNaN_eq_false (h : (Binary64.ofBits bits).isNaN = false) :
    ofBits bits = .number bits := by
  unfold ofBits
  split
  · rename_i hnan
    rw [hnan] at h
    cases h
  · rfl

theorem ofBits_numberBits_of_isNaN_eq_false (h : (Binary64.ofBits bits).isNaN = false) :
    ofBits (ofBits bits).numberBits = ofBits bits := by
  rw [ofBits_of_isNaN_eq_false h, numberBits, ofBits_of_isNaN_eq_false h]

/-- The number beside the mark is one. -/
theorem ofBits_numberBits_of_nan {negative : Bool} (h : Binary64.ofBits bits = .nan negative) :
    ofBits (ofBits bits).numberBits = .number (if negative then minusOneBits else 0) := by
  have hmark : ofBits bits = .nan negative := by
    unfold ofBits
    rw [h]
  rw [hmark, numberBits]
  cases negative <;> decide

/-- The number that a constant keeps is all of it unless it is the mark. -/
theorem keeps_numberBits_iff (bits : UInt64) :
    (ofBits (ofBits bits).numberBits).Keeps (Binary64.ofBits bits) ↔
      (Binary64.ofBits bits).isNaN = false := by
  constructor
  · intro keeps
    cases h : Binary64.ofBits bits with
    | nan negative =>
      -- Zero and minus one are numbers.
      have hnumber := keeps.isNaN
      rw [ofBits_numberBits_of_nan h, h] at hnumber
      cases negative <;> exact absurd hnumber (by decide)
    | _ => rfl
  · intro h
    rw [ofBits_numberBits_of_isNaN_eq_false h]
    exact ⟨by rw [value_ofBits], fun _ => value_ofBits bits⟩

end Ir.FloatConst

open Ir (FloatKind FloatConst)

namespace Lower

variable {c : Context} {site : Site} {bits : UInt64} {k k' : FloatKind} {s s' : State}

/-- A literal of a floating-point type is the constant for its bits. -/
theorem valueOf_floatLit
    (h : (typeOfExpr c (.floatLit site bits) >>= instructionType c) s = .ok (.float k) s') :
    valueOf c (.floatLit site bits) s = .ok (.float k (.ofBits bits)) s' := by
  obtain ⟨t, s₁, ht, htype⟩ := bind_eq_ok.mp h
  unfold valueOf floatConstant
  exact bind_eq_ok.mpr ⟨t, s₁, ht, bind_eq_ok.mpr ⟨_, s', htype, rfl⟩⟩

/-- A literal that has a value is a constant of a floating-point type. -/
theorem valueOf_floatLit_eq_ok {v : Ir.Value} (h : valueOf c (.floatLit site bits) s = .ok v s') :
    ∃ k, (typeOfExpr c (.floatLit site bits) >>= instructionType c) s = .ok (.float k) s' ∧
      v = .float k (.ofBits bits) := by
  unfold valueOf floatConstant at h
  obtain ⟨t, s₁, ht, h⟩ := bind_eq_ok.mp h
  obtain ⟨type, s₂, htype, h⟩ := bind_eq_ok.mp h
  cases type with
  | float k =>
    obtain ⟨rfl, rfl⟩ := pure_eq_ok.mp h
    exact ⟨k, bind_eq_ok.mpr ⟨t, s₁, ht, htype⟩, rfl⟩
  | _ => exact (reject_ne_ok.mp h).elim

theorem conversion_float_float (defs : Array Ir.TypeDef) (x : FloatConst)
    (unsigned toUnsigned : Bool) (hk : k' ≠ k) :
    conversion defs (.float k x) unsigned toUnsigned (.float k') =
      .constant (.float k' (.ofBits x.numberBits)) := by
  simp [conversion, Ir.Value.type, Ir.sameType, Ir.Ty.expand, Ir.Ty.same, floatToFloat, hk.symm]

/-- A constant of one floating-point type is made into one of the other, and nothing is emitted. -/
theorem convert_float_float (x : FloatConst) (unsigned toUnsigned : Bool) (hk : k' ≠ k)
    (s : State) : convert (.float k x) unsigned toUnsigned (.float k') s =
      .ok (.float k' (.ofBits x.numberBits)) s := by
  unfold convert
  rw [get_bind_apply, conversion_float_float _ x _ _ hk]
  rfl

end Lower

/-- A literal of one floating-point type is a constant with the double of its bits. In the other
    type it becomes a constant as well, wherever it is received, which keeps the double if and only
    if that is a number; from no number it becomes zero, or minus one under a sign. -/
theorem float_folded (c : Context) (site : Site) (bits : UInt64) :
    (∀ (k k' : FloatKind) (s s₁ : State), k' ≠ k →
      (typeOfExpr c (.floatLit site bits) >>= instructionType c) s = .ok (.float k) s₁ →
      ∃ x, valueOf c (.floatLit site bits) s = .ok (.float k x) s₁ ∧
        x.value = Binary64.ofBits bits ∧
        ∀ (unsigned toUnsigned : Bool) (s₂ : State), ∃ y,
          convert (.float k x) unsigned toUnsigned (.float k') s₂ = .ok (.float k' y) s₂ ∧
          (y.Keeps (Binary64.ofBits bits) ↔ (Binary64.ofBits bits).isNaN = false) ∧
          ∀ negative, Binary64.ofBits bits = .nan negative →
            y = .number (if negative then Ir.minusOneBits else 0)) ∧
    ∀ (r : Receiver) (s s' : State) (out : Option Ir.Value), r.isTest c = false →
      r.run c (.floatLit site bits) s = .ok out s' →
      ∃ s₀ s₁ k x type v' b, Precedes s s₀ ∧
        valueOf c (.floatLit site bits) s₀ = .ok (.float k x) s₁ ∧
        r.Asks c (.floatLit site bits) s s₁ type ∧ r.Takes v' b s' out ∧
        ∀ k' ≠ k, type = .float k' → b = s₁.body ∧ ∃ y, v' = .float k' y ∧
          (y.Keeps (Binary64.ofBits bits) ↔ (Binary64.ofBits bits).isNaN = false) := by
  constructor
  · intro k k' s s₁ hk htype
    refine ⟨.ofBits bits, valueOf_floatLit htype, FloatConst.value_ofBits bits, ?_⟩
    intro unsigned toUnsigned s₂
    exact ⟨_, convert_float_float _ unsigned toUnsigned hk s₂, FloatConst.keeps_numberBits_iff bits,
      fun _ => FloatConst.ofBits_numberBits_of_nan⟩
  · intro r s s' out hr run
    obtain ⟨s₀, s₁, v, type, v', b, precedes, hasks, ⟨hvalue, hconv⟩, htakes⟩ :=
      Receiver.converts rfl hr run
    obtain ⟨k, -, rfl⟩ := valueOf_floatLit_eq_ok hvalue
    refine ⟨s₀, s₁, k, _, type, v', b, precedes, hvalue, hasks, htakes, ?_⟩
    rintro k' hk rfl
    obtain ⟨s₂, s₃, toUnsigned, hbody, hfold, rfl⟩ := hconv
    rw [convert_float_float _ _ toUnsigned hk] at hfold
    cases hfold
    exact ⟨hbody, _, rfl, FloatConst.keeps_numberBits_iff bits⟩

/-- Literals have their default type, and a cast goes to `f64`. -/
def plainContext : Context where
  analysis := { store := {}, facts := { types := [(some 2, .scalar .f64)] } }
  config := {}

/-- A cast to `f64`. -/
def asDouble : Receiver := .cast { id := 3 } { site := { id := 2 }, name := "f64" }

/-- The literal for some bits. -/
def plainLiteral (bits : UInt64) : Expr := .floatLit { id := 1 } bits

/-- The double next to a tenth, which is no number of single precision. -/
def tenth : UInt64 := 0x3FB999999999999A

theorem float_folded_tenth : FloatKind.double ≠ .single ∧ asDouble.isTest plainContext = false ∧
    (typeOfExpr plainContext (plainLiteral tenth) >>= instructionType plainContext) {} =
      .ok (.float .single) {} ∧
    (∃ x y, valueOf plainContext (plainLiteral tenth) {} = .ok (.float .single x) {} ∧
      convert (.float .single x) false false (.float .double) {} = .ok (.float .double y) {} ∧
      y.Keeps (Binary64.ofBits tenth)) ∧
    ∃ y s', asDouble.run plainContext (plainLiteral tenth) {} =
        .ok (some (.float .double y)) s' ∧ y.Keeps (Binary64.ofBits tenth) := by
  have number : (Binary64.ofBits tenth).isNaN = false := by decide
  have typed : (typeOfExpr plainContext (plainLiteral tenth) >>= instructionType plainContext) {} =
      .ok (.float .single) {} := rfl
  refine ⟨by decide, rfl, typed, ?_, ?_⟩
  · obtain ⟨x, hvalue, -, folded⟩ := (float_folded plainContext { id := 1 } tenth).1
      .single .double {} {} (by decide) typed
    obtain ⟨y, hconv, keeps, -⟩ := folded false false {}
    exact ⟨x, y, hvalue, hconv, keeps.mpr number⟩
  · obtain ⟨out, s', run⟩ :
        ∃ out s', asDouble.run plainContext (plainLiteral tenth) {} = .ok out s' := ⟨_, _, rfl⟩
    obtain ⟨s₀, s₁, k, x, type, v', b, precedes, hvalue, ⟨s₂, hasks⟩, ⟨rfl, -⟩, folded⟩ :=
      (float_folded plainContext { id := 1 } tenth).2 asDouble {} s' out rfl run
    cases hasks
    have hsingle : k = .single := by
      obtain ⟨k', htype, hk⟩ := valueOf_floatLit_eq_ok hvalue
      cases hk
      cases htype
      rfl
    obtain ⟨-, y, rfl, keeps⟩ := folded .double (by rw [hsingle]; decide) rfl
    exact ⟨y, s', run, keeps.mpr number⟩

/-- No number becomes zero as an `f64`, and one with a sign becomes minus one. -/
theorem nan_folded :
    ((Binary64.ofBits 0x7FF8000000000000).isNaN = true ∧
      valueOf plainContext (plainLiteral 0x7FF8000000000000) {} =
        .ok (.float .single (.nan false)) {} ∧
      asDouble.run plainContext (plainLiteral 0x7FF8000000000000) {} =
        .ok (some (.float .double (.number 0))) {} ∧
      ¬(FloatConst.number 0).Keeps (Binary64.ofBits 0x7FF8000000000000) ∧
      Ir.floatText .double (.number 0) = "0.0") ∧
    (Binary64.ofBits 0xFFF8000000000000).isNaN = true ∧
      asDouble.run plainContext (plainLiteral 0xFFF8000000000000) {} =
        .ok (some (.float .double (.number Ir.minusOneBits))) {} ∧
      ¬(FloatConst.number Ir.minusOneBits).Keeps (Binary64.ofBits 0xFFF8000000000000) := by
  refine ⟨⟨by decide, rfl, rfl, fun keeps => ?_, by decide +kernel⟩, by decide, rfl,
    fun keeps => ?_⟩
  · exact absurd keeps.isNaN (by decide)
  · exact absurd keeps.isNaN (by decide)

end TreeLowering
