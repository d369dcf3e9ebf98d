import Mathlib.Algebra.Order.Ring.Int
import TreeLowering.Lower.Operator

/-!
Arithmetic of the source and of the machine.

In the source a value of an integer type or of `bool` is a number in the range of its type, and an
operator computes with numbers and wraps the result (`Scalar.wrap`, `BinaryOp.value?`). The machine
computes with words, on which the operator chooses between operations with and without a sign
(`Ir.Arith.apply`, `Ir.IntPred.holds`, `Ir.Conv.apply`). What is undefined there has no result. The
word of a number is its residue, and on words of numbers in range the machine computes the word of
what the source computes.
-/
namespace TreeLowering

/-! ## Numbers -/

namespace Scalar

/-- The integer types and `bool`, which is a number of one bit. -/
def isWord (k : Scalar) : Bool := k.isBoolean || k.isInteger

/-- Whether a type is an integer type with a sign. -/
def isSigned (k : Scalar) : Bool := k.isInteger && !k.isUnsigned

/-- The number in the range of a type that another one is congruent to. -/
def wrap (k : Scalar) (n : Int) : Int :=
  if k.isSigned then n.bmod (2 ^ k.bits) else n % (2 ^ k.bits : Nat)

/-- A number lies in the range of a type. -/
def Holds (k : Scalar) (n : Int) : Prop := k.wrap n = n

instance (k : Scalar) (n : Int) : Decidable (k.Holds n) := inferInstanceAs (Decidable (_ = _))

/-- The number that `/`, `%`, `>>` and the orderings see: without a sign only in unsigned types. The
    single bit of `bool` is a sign. -/
def seen (k : Scalar) (n : Int) : Int :=
  if k.isUnsigned then n else n.bmod (2 ^ k.bits)

/-- The bits of a number, as a number without a sign. -/
def pattern (k : Scalar) (n : Int) : Nat := (n % (2 ^ k.bits : Nat)).toNat

/-- A division is defined: the divisor is not zero, and the quotient is in range. -/
def CanDivide (k : Scalar) (a b : Int) : Prop :=
  k.seen b ≠ 0 ∧ (k.isUnsigned = false → ¬(k.seen a = -2 ^ (k.bits - 1) ∧ k.seen b = -1))

instance (k : Scalar) (a b : Int) : Decidable (k.CanDivide a b) :=
  inferInstanceAs (Decidable (_ ∧ _))

/-- A shift is defined: it is by less than the width. -/
def CanShift (k : Scalar) (b : Int) : Prop := k.pattern b < k.bits

instance (k : Scalar) (b : Int) : Decidable (k.CanShift b) := inferInstanceAs (Decidable (_ < _))

end Scalar

/-- The number of a truth value. -/
def bitNumber (b : Bool) : Int := if b then 1 else 0

/-- What an operator computes from two numbers of a type. The operators that may leave their right
    operand unevaluated are none of numbers. -/
def BinaryOp.value? (k : Scalar) (a b : Int) : BinaryOp → Option Int
  | .add => some (k.wrap (a + b))
  | .sub => some (k.wrap (a - b))
  | .mul => some (k.wrap (a * b))
  | .div => if k.CanDivide a b then some (k.wrap ((k.seen a).tdiv (k.seen b))) else none
  | .rem => if k.CanDivide a b then some (k.wrap ((k.seen a).tmod (k.seen b))) else none
  | .shl => if k.CanShift b then some (k.wrap (a * 2 ^ k.pattern b)) else none
  | .shr => if k.CanShift b then some (k.wrap (k.seen a / 2 ^ k.pattern b)) else none
  | .or => some (k.wrap (k.pattern a ||| k.pattern b : Nat))
  | .xor => some (k.wrap (k.pattern a ^^^ k.pattern b : Nat))
  | .and => some (k.wrap (k.pattern a &&& k.pattern b : Nat))
  | .eql => some (bitNumber (a = b))
  | .neq => some (bitNumber (a ≠ b))
  | .gtr => some (bitNumber (k.seen b < k.seen a))
  | .lss => some (bitNumber (k.seen a < k.seen b))
  | .geq => some (bitNumber (k.seen b ≤ k.seen a))
  | .leq => some (bitNumber (k.seen a ≤ k.seen b))
  | .condOr | .condAnd => none

/-! ## Words -/

namespace Ir

/-- The result of an operation on words, unless it is undefined. -/
def Arith.apply {w : Nat} (x y : BitVec w) : Arith → Option (BitVec w)
  | .add => some (x + y)
  | .sub => some (x - y)
  | .mul => some (x * y)
  | .udiv => if y = 0 then none else some (x / y)
  | .urem => if y = 0 then none else some (x % y)
  | .sdiv => if y = 0 ∨ x = .intMin w ∧ y = -1 then none else some (x.sdiv y)
  | .srem => if y = 0 ∨ x = .intMin w ∧ y = -1 then none else some (x.srem y)
  | .shl => if y.toNat < w then some (x <<< y) else none
  | .lshr => if y.toNat < w then some (x >>> y) else none
  | .ashr => if y.toNat < w then some (x.sshiftRight' y) else none
  | .and => some (x &&& y)
  | .or => some (x ||| y)
  | .xor => some (x ^^^ y)
  | .fadd | .fsub | .fmul | .fdiv | .frem => none

/-- Whether a comparison of words holds. -/
def IntPred.holds {w : Nat} (x y : BitVec w) : IntPred → Bool
  | .eq => x = y
  | .ne => x ≠ y
  | .ugt => y.ult x
  | .uge => y.ule x
  | .ult => x.ult y
  | .ule => x.ule y
  | .sgt => y.slt x
  | .sge => y.sle x
  | .slt => x.slt y
  | .sle => x.sle y

/-- The word of another width that a conversion of words gives. -/
def Conv.apply {w : Nat} (x : BitVec w) (target : Nat) : Conv → Option (BitVec target)
  | .trunc => if target < w then some (x.setWidth target) else none
  | .zext => if w < target then some (x.setWidth target) else none
  | .sext => if w < target then some (x.signExtend target) else none
  | _ => none

end Ir

/-! ## Words of numbers -/

namespace Scalar

variable {k : Scalar} {a b n : Int}

/-- The bits of a number in a type. -/
abbrev bitsOf (k : Scalar) (n : Int) : BitVec k.bits := BitVec.ofInt k.bits n

theorem bitsOf_eq_iff : k.bitsOf a = k.bitsOf b ↔ a.bmod (2 ^ k.bits) = b.bmod (2 ^ k.bits) := by
  rw [← BitVec.toInt_inj, BitVec.toInt_ofInt, BitVec.toInt_ofInt]

@[simp] theorem bitsOf_wrap (k : Scalar) (n : Int) : k.bitsOf (k.wrap n) = k.bitsOf n := by
  rw [bitsOf_eq_iff, wrap]
  split
  · exact Int.bmod_bmod
  · exact Int.emod_bmod n _

theorem wrap_wrap (k : Scalar) (n : Int) : k.Holds (k.wrap n) := by
  unfold Holds wrap
  split
  · exact Int.bmod_bmod
  · exact Int.emod_emod n _

/-- Numbers in range are told apart by their bits. -/
theorem Holds.eq_of_bitsOf (ha : k.Holds a) (hb : k.Holds b) (h : k.bitsOf a = k.bitsOf b) :
    a = b := by
  rw [bitsOf_eq_iff] at h
  rw [← ha, ← hb, wrap, wrap]
  split
  · exact h
  · rw [← Int.bmod_emod, h, Int.bmod_emod]

theorem toInt_bitsOf (hk : k.isUnsigned = false) : (k.bitsOf n).toInt = k.seen n := by
  rw [BitVec.toInt_ofInt, seen, hk]
  rfl

theorem toNat_bitsOf (k : Scalar) (n : Int) : (k.bitsOf n).toNat = k.pattern n := by
  rw [BitVec.toNat_ofInt, pattern]

theorem natCast_pattern (k : Scalar) (n : Int) : (k.pattern n : Int) = n % (2 ^ k.bits : Nat) := by
  have hpos := Nat.two_pow_pos k.bits
  exact Int.toNat_of_nonneg (Int.emod_nonneg n (by omega))

/-- A number without a sign is its bits. -/
theorem Holds.toNat_bitsOf (h : k.Holds n) (hk : k.isSigned = false) :
    ((k.bitsOf n).toNat : Int) = n := by
  rw [Scalar.toNat_bitsOf, natCast_pattern]
  simpa [Holds, wrap, hk] using h

/-- A number with a sign is what its bits say. -/
theorem Holds.toInt_bitsOf (h : k.Holds n) (hk : k.isSigned = true) : (k.bitsOf n).toInt = n := by
  rw [BitVec.toInt_ofInt]
  simpa [Holds, wrap, hk] using h

theorem isSigned_of_isUnsigned (h : k.isUnsigned = true) : k.isSigned = false := by
  simp [isSigned, h]

theorem bits_pos (h : k.isWord = true) : 0 < k.bits := by
  cases k <;> first | decide | cases h

/-- Bits that are a number without a sign are the bits of that number. -/
theorem eq_bitsOf_of_toNat {x : BitVec k.bits} (h : (x.toNat : Int) = n) : x = k.bitsOf n := by
  subst h
  rw [bitsOf, BitVec.ofInt_natCast, BitVec.ofNat_toNat, BitVec.setWidth_eq]

/-- Bits that are a number with a sign, up to the range, are the bits of that number. -/
theorem eq_bitsOf_of_toInt {x : BitVec k.bits} (h : x.toInt = n.bmod (2 ^ k.bits)) :
    x = k.bitsOf n :=
  BitVec.eq_of_toInt_eq (by rw [h, BitVec.toInt_ofInt])

theorem toInt_bmod {w : Nat} (x : BitVec w) : x.toInt.bmod (2 ^ w) = x.toInt := by
  rw [← BitVec.toInt_ofInt, BitVec.ofInt_toInt]

/-! ## Operations -/

section
variable (ha : k.Holds a) (hb : k.Holds b)

theorem add_bitsOf (k : Scalar) (a b : Int) : k.bitsOf a + k.bitsOf b = k.bitsOf (a + b) :=
  (BitVec.ofInt_add a b).symm

theorem sub_bitsOf (k : Scalar) (a b : Int) : k.bitsOf a - k.bitsOf b = k.bitsOf (a - b) := by
  rw [BitVec.sub_eq_add_neg, ← BitVec.ofInt_neg, add_bitsOf, Int.sub_eq_add_neg]

theorem mul_bitsOf (k : Scalar) (a b : Int) : k.bitsOf a * k.bitsOf b = k.bitsOf (a * b) :=
  (BitVec.ofInt_mul a b).symm

theorem and_bitsOf (k : Scalar) (a b : Int) :
    k.bitsOf a &&& k.bitsOf b = k.bitsOf (k.pattern a &&& k.pattern b : Nat) :=
  eq_bitsOf_of_toNat (by rw [BitVec.toNat_and, toNat_bitsOf, toNat_bitsOf])

theorem or_bitsOf (k : Scalar) (a b : Int) :
    k.bitsOf a ||| k.bitsOf b = k.bitsOf (k.pattern a ||| k.pattern b : Nat) :=
  eq_bitsOf_of_toNat (by rw [BitVec.toNat_or, toNat_bitsOf, toNat_bitsOf])

theorem xor_bitsOf (k : Scalar) (a b : Int) :
    k.bitsOf a ^^^ k.bitsOf b = k.bitsOf (k.pattern a ^^^ k.pattern b : Nat) :=
  eq_bitsOf_of_toNat (by rw [BitVec.toNat_xor, toNat_bitsOf, toNat_bitsOf])

theorem complement_bitsOf (k : Scalar) (a : Int) :
    k.bitsOf a ^^^ k.bitsOf (-1) = k.bitsOf (-a - 1) := by
  have hone : k.bitsOf (-1) = BitVec.allOnes k.bits := by
    rw [bitsOf, BitVec.ofInt_neg, ← BitVec.neg_one_eq_allOnes]
    rfl
  rw [hone, BitVec.xor_allOnes, BitVec.not_eq_neg_add, ← BitVec.ofInt_neg, ← sub_bitsOf]
  rfl

/-- Divisors that are not zero have bits that are not. -/
theorem bitsOf_ne_zero (hk : k.isUnsigned = true) (hb : k.Holds b) (h : b ≠ 0) :
    k.bitsOf b ≠ 0 := by
  intro he
  have := hb.toNat_bitsOf (isSigned_of_isUnsigned hk)
  rw [he] at this
  simp at this
  omega

include ha hb in
theorem udiv_bitsOf (hk : k.isUnsigned = true) :
    k.bitsOf a / k.bitsOf b = k.bitsOf (a.tdiv b) := by
  have hs := isSigned_of_isUnsigned hk
  apply eq_bitsOf_of_toNat
  rw [BitVec.toNat_udiv, Int.ofNat_tdiv, ha.toNat_bitsOf hs, hb.toNat_bitsOf hs]

include ha hb in
theorem urem_bitsOf (hk : k.isUnsigned = true) :
    k.bitsOf a % k.bitsOf b = k.bitsOf (a.tmod b) := by
  have hs := isSigned_of_isUnsigned hk
  apply eq_bitsOf_of_toNat
  rw [BitVec.toNat_umod, Int.ofNat_tmod, ha.toNat_bitsOf hs, hb.toNat_bitsOf hs]

theorem sdiv_bitsOf (hk : k.isUnsigned = false) :
    (k.bitsOf a).sdiv (k.bitsOf b) = k.bitsOf ((k.seen a).tdiv (k.seen b)) := by
  apply eq_bitsOf_of_toInt
  rw [BitVec.toInt_sdiv, toInt_bitsOf hk, toInt_bitsOf hk]

theorem srem_bitsOf (hk : k.isUnsigned = false) :
    (k.bitsOf a).srem (k.bitsOf b) = k.bitsOf ((k.seen a).tmod (k.seen b)) := by
  apply eq_bitsOf_of_toInt
  rw [← toInt_bmod, BitVec.toInt_srem, toInt_bitsOf hk, toInt_bitsOf hk]

/-- A division that the source defines is defined on words. -/
theorem CanDivide.signed (h : k.CanDivide a b) (hk : k.isUnsigned = false)
    (hw : k.isWord = true) :
    ¬(k.bitsOf b = 0 ∨ k.bitsOf a = .intMin k.bits ∧ k.bitsOf b = -1) := by
  have ha := toInt_bitsOf (n := a) hk
  have hb := toInt_bitsOf (n := b) hk
  rintro (hz | ⟨hmin, hone⟩)
  · rw [hz] at hb
    exact h.1 (by simpa using hb.symm)
  · refine h.2 hk ⟨?_, ?_⟩
    · rw [← ha, hmin, BitVec.toInt_intMin_of_pos (bits_pos hw)]
    · rw [← hb, hone]
      change (-1#k.bits).toInt = -1
      rw [BitVec.neg_one_eq_allOnes, BitVec.toInt_allOnes, if_pos (bits_pos hw)]

theorem shl_bitsOf (k : Scalar) (a b : Int) :
    k.bitsOf a <<< k.bitsOf b = k.bitsOf (a * 2 ^ k.pattern b) := by
  have hpow : BitVec.twoPow k.bits (k.pattern b) = k.bitsOf (2 ^ k.pattern b) := by
    apply BitVec.eq_of_toNat_eq
    rw [BitVec.toNat_twoPow, toNat_bitsOf, pattern]
    norm_cast
  rw [BitVec.shiftLeft_eq', BitVec.shiftLeft_eq_mul_twoPow, toNat_bitsOf, hpow, mul_bitsOf]

include ha in
theorem lshr_bitsOf (hk : k.isUnsigned = true) :
    k.bitsOf a >>> k.bitsOf b = k.bitsOf (a / 2 ^ k.pattern b) := by
  apply eq_bitsOf_of_toNat
  rw [BitVec.ushiftRight_eq', BitVec.toNat_ushiftRight, Nat.shiftRight_eq_div_pow,
    Int.natCast_ediv, ha.toNat_bitsOf (isSigned_of_isUnsigned hk), toNat_bitsOf]
  norm_cast

theorem ashr_bitsOf (hk : k.isUnsigned = false) :
    (k.bitsOf a).sshiftRight' (k.bitsOf b) = k.bitsOf (k.seen a / 2 ^ k.pattern b) := by
  apply eq_bitsOf_of_toInt
  rw [← toInt_bmod, BitVec.toInt_sshiftRight', toInt_bitsOf hk, toNat_bitsOf,
    Int.shiftRight_eq_div_pow]
  norm_cast

end

/-- On the bits of numbers an operation gives the bits of what the operator gives. -/
theorem apply_bitsOf {op : BinaryOp} {i : Ir.Arith} {r : Int} (hw : k.isWord = true)
    (ha : k.Holds a) (hb : k.Holds b) (hi : op.intArith? k.isUnsigned = some i)
    (hr : op.value? k a b = some r) :
    i.apply (k.bitsOf a) (k.bitsOf b) = some (k.bitsOf r) ∧ k.Holds r := by
  have wrapped : ∀ {x : BitVec k.bits} {n : Int}, x = k.bitsOf n →
      some x = some (k.bitsOf (k.wrap n)) ∧ k.Holds (k.wrap n) := by
    rintro x n rfl
    exact ⟨by rw [bitsOf_wrap], wrap_wrap k n⟩
  have seen_eq : ∀ n, k.isUnsigned = true → k.seen n = n := fun n hk => by simp [seen, hk]
  cases op with
  | add =>
    cases hi
    cases hr
    exact wrapped (add_bitsOf k a b)
  | sub =>
    cases hi
    cases hr
    exact wrapped (sub_bitsOf k a b)
  | mul =>
    cases hi
    cases hr
    exact wrapped (mul_bitsOf k a b)
  | div =>
    cases hi
    obtain ⟨hd, ⟨⟩⟩ := Option.ite_none_right_eq_some.mp hr
    cases hk : k.isUnsigned with
    | true =>
      have hne := bitsOf_ne_zero hk hb (seen_eq b hk ▸ hd.1)
      rw [seen_eq a hk, seen_eq b hk, if_pos rfl, Ir.Arith.apply, if_neg hne]
      exact wrapped (udiv_bitsOf ha hb hk)
    | false =>
      rw [if_neg Bool.false_ne_true, Ir.Arith.apply, if_neg (hd.signed hk hw)]
      exact wrapped (sdiv_bitsOf hk)
  | rem =>
    cases hi
    obtain ⟨hd, ⟨⟩⟩ := Option.ite_none_right_eq_some.mp hr
    cases hk : k.isUnsigned with
    | true =>
      have hne := bitsOf_ne_zero hk hb (seen_eq b hk ▸ hd.1)
      rw [seen_eq a hk, seen_eq b hk, if_pos rfl, Ir.Arith.apply, if_neg hne]
      exact wrapped (urem_bitsOf ha hb hk)
    | false =>
      rw [if_neg Bool.false_ne_true, Ir.Arith.apply, if_neg (hd.signed hk hw)]
      exact wrapped (srem_bitsOf hk)
  | shl =>
    cases hi
    obtain ⟨hs, ⟨⟩⟩ := Option.ite_none_right_eq_some.mp hr
    have hs : k.pattern b < k.bits := hs
    rw [Ir.Arith.apply, toNat_bitsOf, if_pos hs]
    exact wrapped (shl_bitsOf k a b)
  | shr =>
    cases hi
    obtain ⟨hs, ⟨⟩⟩ := Option.ite_none_right_eq_some.mp hr
    have hs : k.pattern b < k.bits := hs
    cases hk : k.isUnsigned with
    | true =>
      rw [seen_eq a hk, if_pos rfl, Ir.Arith.apply, toNat_bitsOf, if_pos hs]
      exact wrapped (lshr_bitsOf ha hk)
    | false =>
      rw [if_neg Bool.false_ne_true, Ir.Arith.apply, toNat_bitsOf, if_pos hs]
      exact wrapped (ashr_bitsOf hk)
  | or =>
    cases hi
    cases hr
    exact wrapped (or_bitsOf k a b)
  | xor =>
    cases hi
    cases hr
    exact wrapped (xor_bitsOf k a b)
  | and =>
    cases hi
    cases hr
    exact wrapped (and_bitsOf k a b)
  | condOr | condAnd | eql | neq | gtr | lss | geq | leq => cases hi

/-! ## Comparisons -/

theorem bitsOf_inj (ha : k.Holds a) (hb : k.Holds b) : k.bitsOf a = k.bitsOf b ↔ a = b :=
  ⟨ha.eq_of_bitsOf hb, congrArg _⟩

theorem ult_bitsOf (hk : k.isUnsigned = true) (ha : k.Holds a) (hb : k.Holds b) :
    (k.bitsOf a).ult (k.bitsOf b) = decide (k.seen a < k.seen b) := by
  have hs := isSigned_of_isUnsigned hk
  have hA := ha.toNat_bitsOf hs
  have hB := hb.toNat_bitsOf hs
  rw [BitVec.ult_eq_decide, decide_eq_decide, seen, seen, if_pos hk, if_pos hk]
  omega

theorem ule_bitsOf (hk : k.isUnsigned = true) (ha : k.Holds a) (hb : k.Holds b) :
    (k.bitsOf a).ule (k.bitsOf b) = decide (k.seen a ≤ k.seen b) := by
  have hs := isSigned_of_isUnsigned hk
  have hA := ha.toNat_bitsOf hs
  have hB := hb.toNat_bitsOf hs
  rw [BitVec.ule_eq_decide, decide_eq_decide, seen, seen, if_pos hk, if_pos hk]
  omega

theorem slt_bitsOf (hk : k.isUnsigned = false) :
    (k.bitsOf a).slt (k.bitsOf b) = decide (k.seen a < k.seen b) := by
  rw [BitVec.slt_eq_decide, toInt_bitsOf hk, toInt_bitsOf hk]

theorem sle_bitsOf (hk : k.isUnsigned = false) :
    (k.bitsOf a).sle (k.bitsOf b) = decide (k.seen a ≤ k.seen b) := by
  rw [BitVec.sle_eq_decide, toInt_bitsOf hk, toInt_bitsOf hk]

/-- On the bits of numbers a comparison holds if the operator says so. -/
theorem holds_bitsOf {op : BinaryOp} {p : Ir.IntPred} {r : Int} (ha : k.Holds a)
    (hb : k.Holds b) (hp : op.intComparison? k.isUnsigned = some p)
    (hr : op.value? k a b = some r) : r = bitNumber (p.holds (k.bitsOf a) (k.bitsOf b)) := by
  cases op with
  | eql =>
    cases hp
    cases hr
    simp only [Ir.IntPred.holds, bitsOf_inj ha hb]
  | neq =>
    cases hp
    cases hr
    simp only [Ir.IntPred.holds, ne_eq, bitsOf_inj ha hb]
  | gtr | lss | geq | leq =>
    cases hp
    cases hr
    cases hk : k.isUnsigned
    · simp [Ir.IntPred.holds, slt_bitsOf hk, sle_bitsOf hk]
    · simp [Ir.IntPred.holds, ult_bitsOf hk, ule_bitsOf hk, ha, hb]
  | add | sub | mul | div | rem | shl | shr | or | xor | and | condOr | condAnd => cases hp

/-! ## Conversions -/

/-- Fewer bits of a number are its bits. -/
theorem trunc_bitsOf {k' : Scalar} (h : k'.bits ≤ k.bits) :
    (k.bitsOf n).setWidth k'.bits = k'.bitsOf n := by
  have hdvd : ((2 ^ k'.bits : Nat) : Int) ∣ (2 ^ k.bits : Nat) :=
    Int.natCast_dvd_natCast.mpr (Nat.pow_dvd_pow 2 h)
  apply BitVec.eq_of_toNat_eq
  rw [BitVec.toNat_setWidth, toNat_bitsOf, toNat_bitsOf, ← Int.natCast_inj, Int.natCast_emod,
    natCast_pattern, natCast_pattern, Int.emod_emod_of_dvd n hdvd]

/-- A number without a sign keeps its bits in more of them. -/
theorem zext_bitsOf {k' : Scalar} (hn : k.Holds n) (hk : k.isSigned = false)
    (h : k.bits ≤ k'.bits) : (k.bitsOf n).setWidth k'.bits = k'.bitsOf n := by
  apply eq_bitsOf_of_toNat
  rw [BitVec.toNat_setWidth_of_le h, hn.toNat_bitsOf hk]

/-- A number with a sign keeps its bits if the sign is repeated. -/
theorem sext_bitsOf {k' : Scalar} (hn : k.Holds n) (hk : k.isSigned = true)
    (h : k.bits ≤ k'.bits) : (k.bitsOf n).signExtend k'.bits = k'.bitsOf n := by
  apply eq_bitsOf_of_toInt
  rw [← toInt_bmod, BitVec.toInt_signExtend_of_le h, hn.toInt_bitsOf hk]

end Scalar

end TreeLowering
