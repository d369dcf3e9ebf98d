import TreeLowering.Lower.Expression
import TreeLowering.Proofs.Denotation

/-!
Integer constants that get another type without an instruction.

A conversion from an integer type is decided by the types and by the signedness, and by whether the
operand is a constant: some constants become constants of the target type (`conversion_constant`
lists them). The new constant is made from the number that the old one keeps, which need not lie in
the range of its type, while an instruction sees the bits. `Ir.Ty.Keeps` says where the two agree;
`convert_folds` is the agreement for all literals, and `convert_misfolds` shows that each part of
the condition is needed.
-/
namespace TreeLowering

/-- Whether the constant `x` of `width` bits keeps its value in a type: its number there is what its
    bits say, and cutting a double to single precision is rounding to it. -/
def Ir.Ty.Keeps (width : Nat) (x : Int) : Ir.Ty → Prop
  | .int w => x.bmod (2 ^ w) = x.bmod (2 ^ width)
  | .float .double => x.bmod (2 ^ width) = x
  | .float .single =>
    x.bmod (2 ^ width) = x ∧
      BinaryFormat.single.cut (BinaryFormat.double.nearest x.natAbs) =
        BinaryFormat.single.nearest x.natAbs
  | _ => True

instance (width : Nat) (x : Int) (t : Ir.Ty) : Decidable (t.Keeps width x) :=
  match t with
  | .int _ | .float .double => inferInstanceAs (Decidable (_ = _))
  | .float .single => inferInstanceAs (Decidable (_ ∧ _))
  | .void | .pointer _ | .array _ _ | .struct _ | .func _ _ | .defined _ _ => .isTrue trivial

/-- Whether an expression is an integer literal or a truth value. -/
def Expr.isIntegral : Expr → Bool
  | .intLit _ _ | .boolLit _ _ => true
  | _ => false

/-- The double nearest to a number has no bits that do not fit. -/
theorem BinaryFormat.cut_nearest (n : Nat) :
    BinaryFormat.double.cut (BinaryFormat.double.nearest n) = BinaryFormat.double.nearest n := by
  by_cases hn : n = 0
  · subst hn
    decide
  obtain ⟨top, fraction, hf, -, -, hnumber⟩ := Binary64.exists_significand hn
  have hcut := BinaryFormat.double.cut_mul_eq (by decide) (by decide) (by omega) (by omega) hnumber
  have hone : 53 - BinaryFormat.double.precision = 0 := rfl
  rw [hone, Nat.pow_zero, Nat.div_one, Nat.mul_one, hnumber] at hcut
  exact (Nat.eq_of_mul_eq_mul_right (Nat.two_pow_pos 52) hcut).symm

theorem Ir.Ty.Keeps.float {k : Ir.FloatKind} {w : Nat} {x : Int} (h : (Ir.Ty.float k).Keeps w x) :
    x.bmod (2 ^ w) = x ∧
      k.format.cut (BinaryFormat.double.nearest x.natAbs) = k.format.nearest x.natAbs := by
  cases k with
  | single => exact h
  | double => exact ⟨h, BinaryFormat.cut_nearest _⟩

namespace Ir.Datum

variable {w w' : Nat} {x : Int}

theorem convert_sext (h : w < w') (hx : x.bmod (2 ^ w') = x.bmod (2 ^ w)) :
    (Datum.word ⟨w, BitVec.ofInt w x⟩).convert .sext (.int w') =
      some (.word ⟨w', BitVec.ofInt w' x⟩) := by
  have hbits : (BitVec.ofInt w x).signExtend w' = BitVec.ofInt w' x := by
    apply BitVec.eq_of_toInt_eq
    rw [BitVec.toInt_signExtend_of_le (Nat.le_of_lt h), BitVec.toInt_ofInt, BitVec.toInt_ofInt, hx]
  simp [convert, Conv.apply, h, hbits]

theorem convert_sitofp (k : FloatKind) (hx : x.bmod (2 ^ w) = x) :
    (Datum.word ⟨w, BitVec.ofInt w x⟩).convert .sitofp (.float k) =
      some (.real (x < 0) (k.format.nearest x.natAbs)) := by
  simp [convert, BitVec.toInt_ofInt, hx]

end Ir.Datum

open Ir (Valuation)

namespace Lower

variable {c : Context} {s s' : State} {w : Nat} {x : Int}

/-- The number of a literal fits 64 bits. -/
theorem natAbs_lt_of_isIntegral {e : Expr} (he : e.isIntegral = true)
    (h : valueOf c e s = .ok (.int w x) s') : x.natAbs < 2 ^ 64 := by
  cases e with
  | intLit site n =>
    unfold valueOf intConstant at h
    obtain ⟨t, s₁, -, h⟩ := bind_eq_ok.mp h
    obtain ⟨type, s₂, -, h⟩ := bind_eq_ok.mp h
    have hx : x = n.toInt := by
      cases type with
      | int w => cases h; rfl
      | pointer elem =>
        dsimp only at h
        split at h <;> cases h
      | _ => cases h
    have hlow := n.le_toInt
    have hhigh := n.toInt_lt
    omega
  | boolLit site b =>
    unfold valueOf at h
    cases b <;> (cases h; decide)
  | _ => cases he

section
variable {defs : Array Ir.TypeDef} {v y : Ir.Value} {unsigned toUnsigned : Bool} {target : Ir.Ty}

/-- The conversions of an integer constant that give another constant. For another value of the same
    type each of them is an instruction. -/
theorem conversion_constant
    (h : conversion defs (.int w x) unsigned toUnsigned target = .constant y)
    (hv : v.type = .int w) (hconst : v.isConstant = false) :
    (∃ w', w < w' ∧ target = .int w' ∧ y = .int w' x ∧
      conversion defs v unsigned toUnsigned target = .instruction .sext) ∨
    (∃ k, target = .float k ∧ y = .float k (.ofBits (Binary64.bitsOfInt x)) ∧
      conversion defs v unsigned toUnsigned target = .instruction .sitofp) ∨
    ∃ t, target = .pointer t ∧ x = 0 ∧ y = .null target ∧
      conversion defs v unsigned toUnsigned target = .instruction .inttoptr := by
  cases target with
  | int w' =>
    rw [conversion_int_int defs rfl] at h
    rw [conversion_int_int defs hv, intToInt_of_not_isConstant hconst]
    split at h
    · cases h
    rename_i hne
    simp only [intToInt] at h
    split at h
    · rename_i hlt
      split at h
      · rename_i hwide
        simp only [Bool.and_eq_true, Bool.not_eq_true', decide_eq_true_eq] at hwide
        cases h
        refine .inl ⟨w', hlt, rfl, rfl, ?_⟩
        simp [hne, hlt, hwide.1, Nat.ne_of_gt hwide.2]
      · split at h <;> cases h
    · cases h
  | float k =>
    rw [conversion_int_float defs rfl] at h
    rw [conversion_int_float defs hv, intToFloat_of_not_isConstant hconst]
    cases unsigned with
    | true => cases h
    | false =>
      cases h
      exact .inr (.inl ⟨k, rfl, rfl, rfl⟩)
  | pointer t =>
    rw [conversion_int_pointer defs rfl] at h
    rw [conversion_int_pointer defs hv, intToPointer_of_not_isConstant hconst]
    simp only [intToPointer] at h
    split at h
    · rename_i hx
      cases h
      exact .inr (.inr ⟨t, rfl, hx, rfl, rfl⟩)
    · cases h
  | _ =>
    -- Types of other kinds keep the value, whether they are the same or not.
    have hkeep : ∀ same : Bool, (if same then Conversion.keep else .keep) ≠ .constant y := by
      intro same
      cases same <;> exact Conversion.noConfusion
    exact (hkeep _ h).elim

/-- A conversion of the constant `x` to the constant `y` is like that of any other value of the same
    type, which an instruction converts: where the other value has the bits of `x`, the instruction
    gives what `y` denotes. -/
def FoldsLike (s : State) (w : Nat) (x : Int) (unsigned toUnsigned : Bool) (target : Ir.Ty)
    (y : Ir.Value) : Prop :=
  ∀ v : Ir.Value, v.type = .int w → v.isConstant = false →
    ∃ op, conversion s.module.types v unsigned toUnsigned target = .instruction op ∧
      (s.body.cursor.isSome → ∃ v' s', convert v unsigned toUnsigned target s = .ok v' s' ∧
        Emitted s.body (.conv op v target) v' s'.body ∧ v'.type = target) ∧
      ∀ ν : Valuation, ν.read v = some (.word ⟨w, BitVec.ofInt w x⟩) →
        ∃ d, ν.outcome (.conv op v target) = some d ∧ ν.read y = some d

theorem not_foldsLike (v : Ir.Value) {op : Ir.Conv} (ν : Valuation) (hv : v.type = .int w)
    (hconst : v.isConstant = false)
    (hop : conversion s.module.types v unsigned toUnsigned target = .instruction op)
    (hread : ν.read v = some (.word ⟨w, BitVec.ofInt w x⟩))
    (hne : ν.outcome (.conv op v target) ≠ ν.read y) :
    ¬FoldsLike s w x unsigned toUnsigned target y := by
  intro h
  obtain ⟨op', hop', -, hν⟩ := h v hv hconst
  rw [hop] at hop'
  cases hop'
  obtain ⟨d, hout, hy⟩ := hν ν hread
  exact hne (hout.trans hy.symm)

end

end Lower

open Lower in
/-- Where lowering folds the conversion of a literal to a constant, it emits nothing, and the
    constant denotes what the instruction for another value of the literal's type would give on the
    literal's bits, if the literal keeps its value in the target type. -/
theorem convert_folds (c : Context) (e : Expr) (s s₁ s₂ : State) (w : Nat) (x : Int)
    (unsigned toUnsigned : Bool) (target : Ir.Ty) (y : Ir.Value)
    (literal : e.isIntegral = true) (run : valueOf c e s = .ok (.int w x) s₁)
    (folds : conversion s₂.module.types (.int w x) unsigned toUnsigned target = .constant y)
    (keeps : target.Keeps w x) :
    convert (.int w x) unsigned toUnsigned target s₂ = .ok y s₂ ∧
      FoldsLike s₂ w x unsigned toUnsigned target y := by
  constructor
  · unfold convert
    rw [get_bind_apply, folds]
    rfl
  intro v hv hconst
  have emits : ∀ op, conversion s₂.module.types v unsigned toUnsigned target = .instruction op →
      s₂.body.cursor.isSome → ∃ v' s', convert v unsigned toUnsigned target s₂ = .ok v' s' ∧
        Emitted s₂.body (.conv op v target) v' s'.body ∧ v'.type = target := by
    intro op hop hlive
    rw [convert_of_instruction hop]
    exact exists_emitted hlive _ _
  obtain ⟨w', hlt, rfl, rfl, hop⟩ | ⟨k, rfl, rfl, hop⟩ | ⟨t, rfl, rfl, rfl, hop⟩ :=
    conversion_constant folds hv hconst
  · refine ⟨.sext, hop, emits _ hop, fun ν hread => ⟨_, ?_, rfl⟩⟩
    rw [ν.outcome_conv hread]
    exact Ir.Datum.convert_sext hlt keeps
  · have hbound := natAbs_lt_of_isIntegral literal run
    obtain ⟨hrange, hcut⟩ := keeps.float
    refine ⟨.sitofp, hop, emits _ hop, fun ν hread =>
      ⟨.real (x < 0) (k.format.nearest x.natAbs), ?_, ?_⟩⟩
    · rw [ν.outcome_conv hread]
      exact Ir.Datum.convert_sitofp k hrange
    · rw [Valuation.read, k.reads_bitsOfInt hbound, hcut]
      rfl
  · refine ⟨.inttoptr, hop, emits _ hop, fun ν hread => ⟨.address 0, ?_, rfl⟩⟩
    rw [ν.outcome_conv hread]
    simp [Ir.Datum.convert]

/-- Literals of the types `i8` and `i32`. -/
def foldContext : Context where
  analysis :=
    { store := {}
      facts := { types := [(some 1, .scalar .i8), (some 2, .scalar .i32)] } }
  config := {}

open Lower in
theorem convert_folds_single :
    (Expr.intLit { id := 1 } 127).isIntegral = true ∧
    valueOf foldContext (.intLit { id := 1 } 127) {} = .ok (.int 8 127) {} ∧
    conversion #[] (.int 8 127) false false (.float .single) =
      .constant (.float .single (.number 0x405FC00000000000)) ∧
    (Ir.Ty.float .single).Keeps 8 127 ∧
    convert (.int 8 127) false false (.float .single) {} =
      .ok (.float .single (.number 0x405FC00000000000)) {} ∧
    FoldsLike {} 8 127 false false (.float .single)
      (.float .single (.number 0x405FC00000000000)) := by
  have run : valueOf foldContext (.intLit { id := 1 } 127) {} = .ok (.int 8 127) {} := rfl
  have folds : conversion #[] (.int 8 127) false false (.float .single) =
      .constant (.float .single (.number 0x405FC00000000000)) := rfl
  have keeps : (Ir.Ty.float .single).Keeps 8 127 := by decide
  exact ⟨rfl, run, folds, keeps,
    convert_folds foldContext _ {} {} {} 8 127 false false _ _ rfl run folds keeps⟩

open Lower in
/-- The number 255 as an `i8` is widened as 255 and not as the minus one that its bits are; a truth
    value becomes the floating-point number 1 while the instruction reads its one bit as minus one;
    and 16777219 is cut to single precision and not rounded. -/
theorem convert_misfolds :
    (∃ y, valueOf foldContext (.intLit { id := 1 } 255) {} = .ok (.int 8 255) {} ∧
      conversion #[] (.int 8 255) false false (.int 32) = .constant y ∧
      ¬FoldsLike {} 8 255 false false (.int 32) y) ∧
    (∃ y, valueOf foldContext (.boolLit { id := 3 } true) {} = .ok (.int 1 1) {} ∧
      conversion #[] (.int 1 1) false false (.float .double) = .constant y ∧
      ¬FoldsLike {} 1 1 false false (.float .double) y) ∧
    ∃ y, valueOf foldContext (.intLit { id := 2 } 16777219) {} = .ok (.int 32 16777219) {} ∧
      conversion #[] (.int 32 16777219) false false (.float .single) = .constant y ∧
      ¬FoldsLike {} 32 16777219 false false (.float .single) y := by
  refine ⟨⟨_, rfl, rfl, ?_⟩, ⟨_, rfl, rfl, ?_⟩, ⟨_, rfl, rfl, ?_⟩⟩
  · refine not_foldsLike (.param 0 0 (.int 8)) ⟨fun _ => 0, fun _ => some (.word ⟨8, 255⟩)⟩ rfl rfl
      rfl rfl ?_
    decide
  · refine not_foldsLike (.param 0 0 (.int 1)) ⟨fun _ => 0, fun _ => some (.word ⟨1, 1⟩)⟩ rfl rfl
      rfl rfl ?_
    have hread := Ir.FloatKind.reads_bitsOfInt .double (x := 1) (by decide)
    rw [Valuation.read, hread]
    intro h
    injection h with h
    injection h with hsign
    exact Bool.noConfusion hsign
  · refine not_foldsLike (.param 0 0 (.int 32)) ⟨fun _ => 0, fun _ => some (.word ⟨32, 16777219⟩)⟩
      rfl rfl rfl rfl ?_
    have hread := Ir.FloatKind.reads_bitsOfInt .single (x := 16777219) (by decide)
    rw [Valuation.read, hread]
    intro h
    injection h with h
    injection h with _ hnumber
    have : BinaryFormat.single.nearest 16777219 =
        BinaryFormat.single.cut (BinaryFormat.double.nearest 16777219) := Nat.cast_injective hnumber
    revert this
    decide

end TreeLowering
