import Mathlib.Algebra.Field.Rat
import Mathlib.Tactic.FieldSimp
import Mathlib.Tactic.Ring
import TreeLowering.Ir.Constant

/-!
Integers as binary floating-point numbers.

`BinaryFormat.nearest` rounds a natural number to the precision of a format, `BinaryFormat.cut`
leaves out the bits that do not fit. The constant for an integer is made from the nearest double
(`Binary64.bitsOfInt`) and written with the bits that its own format has, so what is read is the
nearest double, cut to that format (`reads_bitsOfInt`). For a double that is the double itself; in
single precision it need not be the nearest number.
-/
namespace TreeLowering

/-! ## Rounding -/

namespace BinaryFormat

variable (f : BinaryFormat) (n : Nat)

/-- How many of the last bits of a number do not fit the precision. -/
def excess : Nat := n.log2 + 1 - f.precision

/-- The number of a format nearest to a natural number; a half goes to the even one. -/
def nearest : Nat := roundHalfEven n (2 ^ f.excess n) * 2 ^ f.excess n

/-- A natural number without the last bits that do not fit. -/
def cut : Nat := n / 2 ^ f.excess n * 2 ^ f.excess n

end BinaryFormat

theorem roundHalfEven_one (n : Nat) : roundHalfEven n 1 = n := by
  simp [roundHalfEven, Nat.mod_one]

theorem le_roundHalfEven (num den : Nat) : num / den ≤ roundHalfEven num den := by
  unfold roundHalfEven
  dsimp only
  repeat' split
  all_goals omega

theorem roundHalfEven_le (num den : Nat) : roundHalfEven num den ≤ num / den + 1 := by
  unfold roundHalfEven
  dsimp only
  repeat' split
  all_goals omega

/-! ## Doubles -/

namespace Binary64

/-- The number that a finite double is: whether it has a sign, and what it is without. -/
def real? : Binary64 → Option (Bool × ℚ)
  | .finite negative mantissa exponent => some (negative, mantissa * 2 ^ exponent)
  | .infinite _ | .nan _ => none

/-- The bits of a normal double with a sign, an exponent and a fraction. -/
def assemble (negative : Bool) (top fraction : Nat) : Nat :=
  negative.toNat * 2 ^ 63 + (1023 + top) * 2 ^ 52 + fraction

theorem ofBits_assemble (negative : Bool) {top fraction : Nat} (ht : top < 1024)
    (hf : fraction < 2 ^ 52) :
    ofBits (UInt64.ofNat (assemble negative top fraction)) =
      .finite negative (2 ^ 52 + fraction) ((top : Int) - 52) := by
  have hbits : (UInt64.ofNat (assemble negative top fraction)).toNat =
      assemble negative top fraction := by
    have hbit := negative.toNat_le
    rw [UInt64.toNat_ofNat', Nat.mod_eq_of_lt]
    unfold assemble
    omega
  have hbit := negative.toNat_le
  have hsign : assemble negative top fraction / 2 ^ 63 = negative.toNat := by
    unfold assemble
    omega
  have hfield : assemble negative top fraction / 2 ^ 52 % 2048 = 1023 + top := by
    unfold assemble
    omega
  have hfraction : assemble negative top fraction % 2 ^ 52 = fraction := by
    unfold assemble
    omega
  unfold ofBits
  simp only [hbits, Nat.pow_eq, hsign, hfield, hfraction]
  rw [if_neg (by omega), if_neg (by omega)]
  congr 1
  · cases negative <;> rfl
  · omega

/-- The significand and the exponent of the double nearest to a positive integer. Where rounding
    carries over into one more bit, the exponent is one higher than that of the integer. -/
theorem exists_significand {n : Nat} (hn : n ≠ 0) :
    ∃ top fraction, fraction < 2 ^ 52 ∧ top ≤ n.log2 + 1 ∧
      bitsOfPositive n = (1023 + top) * 2 ^ 52 + fraction ∧
      (2 ^ 52 + fraction) * 2 ^ top = BinaryFormat.double.nearest n * 2 ^ 52 := by
  have hlow : 2 ^ n.log2 ≤ n := Nat.log2_self_le hn
  have hhigh : n < 2 ^ (n.log2 + 1) := Nat.lt_log2_self
  have hexcess : BinaryFormat.double.excess n = n.log2 - 52 := by
    simp only [BinaryFormat.excess, BinaryFormat.double]
    omega
  unfold bitsOfPositive BinaryFormat.nearest
  simp only [hexcess, Nat.pow_eq]
  generalize n.log2 = top at hlow hhigh ⊢
  by_cases htop : top ≤ 52
  · -- The integer fits: it is shifted to the first place.
    have hsum : 2 ^ (52 - top) * 2 ^ top = 2 ^ 52 := by rw [← Nat.pow_add, Nat.sub_add_cancel htop]
    have hshift : n * 2 ^ (52 - top) * 2 ^ top = n * 2 ^ 52 := by rw [Nat.mul_assoc, hsum]
    have hmin : 2 ^ 52 ≤ n * 2 ^ (52 - top) := by
      calc 2 ^ 52 = 2 ^ top * 2 ^ (52 - top) := by rw [Nat.mul_comm, hsum]
        _ ≤ n * 2 ^ (52 - top) := Nat.mul_le_mul_right _ hlow
    have hmax : n * 2 ^ (52 - top) < 2 ^ 53 := by
      calc n * 2 ^ (52 - top) < 2 ^ (top + 1) * 2 ^ (52 - top) :=
            Nat.mul_lt_mul_of_pos_right hhigh (Nat.two_pow_pos _)
        _ = 2 ^ 53 := by rw [← Nat.pow_add, show top + 1 + (52 - top) = 53 by omega]
    refine ⟨top, n * 2 ^ (52 - top) - 2 ^ 52, by omega, by omega, ?_, ?_⟩
    · rw [if_pos htop]
    · rw [Nat.sub_eq_zero_of_le htop, Nat.pow_zero, roundHalfEven_one, Nat.mul_one, ← hshift,
        Nat.add_sub_cancel' hmin]
  · have hsum : 2 ^ top = 2 ^ (top - 52) * 2 ^ 52 := by
      rw [← Nat.pow_add, Nat.sub_add_cancel (by omega)]
    have hpos : 0 < 2 ^ (top - 52) := Nat.two_pow_pos _
    have hquot : 2 ^ 52 ≤ n / 2 ^ (top - 52) := by
      rw [Nat.le_div_iff_mul_le hpos, Nat.mul_comm, ← hsum]
      exact hlow
    have hquot' : n / 2 ^ (top - 52) < 2 ^ 53 := by
      rw [Nat.div_lt_iff_lt_mul hpos, Nat.mul_comm]
      calc n < 2 ^ (top + 1) := hhigh
        _ = 2 ^ (top - 52) * 2 ^ 53 := by rw [← Nat.pow_add, show top - 52 + 53 = top + 1 by omega]
    have hmin := le_roundHalfEven n (2 ^ (top - 52))
    have hmax := roundHalfEven_le n (2 ^ (top - 52))
    rw [if_neg htop]
    generalize roundHalfEven n (2 ^ (top - 52)) = m at hmin hmax ⊢
    by_cases hcarry : m = 2 ^ 53
    · refine ⟨top + 1, 0, by omega, by omega, by omega, ?_⟩
      rw [hcarry, Nat.pow_succ 2 top, hsum]
      ring
    · refine ⟨top, m - 2 ^ 52, by omega, by omega, rfl, ?_⟩
      rw [hsum, show 2 ^ 52 + (m - 2 ^ 52) = m by omega]
      ring

end Binary64

/-! ## Constants for integers -/

/-- Cutting a significand cuts the number. -/
theorem BinaryFormat.cut_mul_eq (f : BinaryFormat) {significand top n : Nat}
    (hpos : 0 < f.precision) (hprec : f.precision ≤ 53) (hlow : 2 ^ 52 ≤ significand)
    (hhigh : significand < 2 ^ 53) (h : significand * 2 ^ top = n * 2 ^ 52) :
    significand / 2 ^ (53 - f.precision) * 2 ^ (53 - f.precision) * 2 ^ top =
      f.cut n * 2 ^ 52 := by
  have hlog : n.log2 = top := by
    have hmin : 2 ^ top ≤ n := by
      refine Nat.le_of_mul_le_mul_right ?_ (Nat.two_pow_pos 52)
      rw [← h, Nat.mul_comm]
      exact Nat.mul_le_mul_right _ hlow
    have hmax : n < 2 ^ (top + 1) := by
      refine Nat.lt_of_mul_lt_mul_right (a := 2 ^ 52) ?_
      calc n * 2 ^ 52 = significand * 2 ^ top := h.symm
        _ < 2 ^ 53 * 2 ^ top := Nat.mul_lt_mul_of_pos_right hhigh (Nat.two_pow_pos _)
        _ = 2 ^ (top + 1) * 2 ^ 52 := by ring
    have hn : n ≠ 0 := by have := Nat.two_pow_pos top; omega
    exact (Nat.log2_eq_iff hn).mpr ⟨hmin, hmax⟩
  unfold cut excess
  rw [hlog]
  by_cases htop : top + 1 ≤ f.precision
  · -- Nothing is cut: the bits that would be left out are zero.
    have hdvd : 2 ^ (53 - f.precision) ∣ significand := by
      refine Dvd.dvd.trans (Nat.pow_dvd_pow 2 (show 53 - f.precision ≤ 52 - top by omega)) ⟨n, ?_⟩
      refine Nat.eq_of_mul_eq_mul_right (Nat.two_pow_pos top) ?_
      rw [h, Nat.mul_right_comm, ← Nat.pow_add, Nat.sub_add_cancel (by omega), Nat.mul_comm]
    rw [Nat.div_mul_cancel hdvd, Nat.sub_eq_zero_of_le htop, Nat.pow_zero, Nat.div_one,
      Nat.mul_one, h]
  · obtain ⟨e, he⟩ : ∃ e, top + 1 - f.precision = e := ⟨_, rfl⟩
    obtain ⟨d, hd⟩ : ∃ d, 53 - f.precision = d := ⟨_, rfl⟩
    rw [he, hd]
    have hscaled : significand * 2 ^ e = n * 2 ^ d := by
      refine Nat.eq_of_mul_eq_mul_right (Nat.two_pow_pos (f.precision - 1)) ?_
      rw [Nat.mul_assoc, Nat.mul_assoc, ← Nat.pow_add, ← Nat.pow_add,
        show e + (f.precision - 1) = top by omega, show d + (f.precision - 1) = 52 by omega, h]
    have hquot : significand / 2 ^ d = n / 2 ^ e := by
      calc significand / 2 ^ d = significand * 2 ^ e / (2 ^ d * 2 ^ e) :=
            (Nat.mul_div_mul_right _ _ (Nat.two_pow_pos e)).symm
        _ = n * 2 ^ d / (2 ^ e * 2 ^ d) := by rw [hscaled, Nat.mul_comm (2 ^ d)]
        _ = n / 2 ^ e := Nat.mul_div_mul_right _ _ (Nat.two_pow_pos d)
    rw [hquot, Nat.mul_assoc, Nat.mul_assoc, ← Nat.pow_add, ← Nat.pow_add,
      show d + top = e + 52 by omega]

/-- The bits that a floating-point type keeps. -/
theorem Ir.FloatKind.writtenBits_eq (k : Ir.FloatKind) (bits : UInt64) :
    k.writtenBits bits =
      bits.toNat / 2 ^ (53 - k.format.precision) * 2 ^ (53 - k.format.precision) := by
  cases k with
  | single => rfl
  | double => simp [writtenBits, format, BinaryFormat.double]

/-- What a format holds has zeros where its precision ends. -/
theorem BinaryFormat.dvd_of_place? {f : BinaryFormat} {m n : Nat} {e : Int} {r : Nat × Int}
    (h : f.place? m e = some r) (hn : 0 < n)
    (hlast : e + n ≤ max f.least (e + m.log2 - (f.precision - 1))) : 2 ^ n ∣ m := by
  unfold place? at h
  dsimp only at h
  split at h
  · cases h
  split at h
  · omega
  split at h
  · rename_i hmod
    refine (Nat.pow_dvd_pow 2 ?_).trans (Nat.dvd_of_mod_eq_zero hmod)
    omega
  · cases h

/-- The mantissa of a double ends in its fraction. Only that of a subnormal one is small. -/
theorem Binary64.mantissa_eq {bits : UInt64} {negative : Bool} {m : Nat} {e : Int}
    (h : ofBits bits = .finite negative m e) :
    bits.toNat % 2 ^ 52 = m % 2 ^ 52 ∧ (2 ^ 52 ≤ m ∨ e = -1074) := by
  unfold ofBits at h
  dsimp only at h
  split at h
  · split at h <;> cases h
  split at h
  · cases h
    simp
  · cases h
    simp

/-- A number that is written in decimal is written exactly: nothing of it would be cut. -/
theorem Ir.FloatKind.writtenBits_of_exactText? {k : Ir.FloatKind} {bits : UInt64} {negative : Bool}
    {m : Nat} {e : Int} {text : String} (hbits : Binary64.ofBits bits = .finite negative m e)
    (htext : k.format.exactText? m e = some text) : k.writtenBits bits = bits.toNat := by
  cases k with
  | double => rfl
  | single =>
    obtain ⟨hmod, hsize⟩ := Binary64.mantissa_eq hbits
    have hdvd : 2 ^ 29 ∣ m := by
      unfold BinaryFormat.exactText? at htext
      split at htext
      · simp_all
      split at htext
      · cases htext
      rename_i hm _ _ _ hplace
      refine BinaryFormat.dvd_of_place? hplace (by decide) ?_
      have hlog : 2 ^ 52 ≤ m → 52 ≤ m.log2 := (Nat.le_log2 hm).mpr
      simp only [format, BinaryFormat.single]
      omega
    change bits.toNat / 2 ^ 29 * 2 ^ 29 = bits.toNat
    omega
/-- The number that a constant of a floating-point type is read as: the one with the bits that are
    written. A decimal text says the same (`writtenBits_of_exactText?`). -/
def Ir.FloatKind.reads (k : Ir.FloatKind) : Ir.FloatConst → Option (Bool × ℚ)
  | .number bits => (Binary64.ofBits (UInt64.ofNat (k.writtenBits bits))).real?
  | .nan _ => none

theorem Binary64.toNat_assemble (negative : Bool) {top fraction : Nat} (ht : top < 1024)
    (hf : fraction < 2 ^ 52) :
    (UInt64.ofNat (assemble negative top fraction)).toNat = assemble negative top fraction := by
  have hbit := negative.toNat_le
  rw [UInt64.toNat_ofNat', Nat.mod_eq_of_lt]
  unfold assemble
  omega

/-- An integer other than zero is a sign and a positive integer. -/
theorem Binary64.bitsOfInt_eq {x : Int} (hx : x ≠ 0) :
    bitsOfInt x =
      UInt64.ofNat ((decide (x < 0)).toNat * 2 ^ 63 + bitsOfPositive x.natAbs) := by
  cases x with
  | ofNat n =>
    cases n with
    | zero => exact absurd rfl hx
    | succ n =>
      have hsign : decide (Int.ofNat (n + 1) < 0) = false :=
        decide_eq_false (Int.not_lt.mpr (Int.natCast_nonneg (n + 1)))
      rw [hsign, Bool.toNat_false, Nat.zero_mul, Nat.zero_add]
      rfl
  | negSucc n =>
    rw [decide_eq_true (Int.negSucc_lt_zero n), Bool.toNat_true, Nat.one_mul]
    rfl

/-- The bits for an integer other than zero, with the number that they are. -/
theorem Binary64.exists_bitsOfInt {x : Int} (hx : x ≠ 0) :
    ∃ top fraction, fraction < 2 ^ 52 ∧ top ≤ x.natAbs.log2 + 1 ∧
      bitsOfInt x = UInt64.ofNat (assemble (x < 0) top fraction) ∧
      (2 ^ 52 + fraction) * 2 ^ top = BinaryFormat.double.nearest x.natAbs * 2 ^ 52 := by
  obtain ⟨top, fraction, hf, htop, hbits, hnumber⟩ :=
    exists_significand (Int.natAbs_ne_zero.mpr hx)
  refine ⟨top, fraction, hf, htop, ?_, hnumber⟩
  rw [bitsOfInt_eq hx, hbits, assemble, Nat.add_assoc]

/-- Written with the bits of its type, the constant for an integer is the nearest double, cut. -/
theorem Ir.FloatKind.reads_bitsOfInt (k : Ir.FloatKind) {x : Int} (hx : x.natAbs < 2 ^ 64) :
    k.reads (.ofBits (Binary64.bitsOfInt x)) =
      some (decide (x < 0), (k.format.cut (BinaryFormat.double.nearest x.natAbs) : ℚ)) := by
  by_cases hzero : x = 0
  · have hbits : Binary64.ofBits (UInt64.ofNat (k.writtenBits 0)) = .finite false 0 (-1074) := by
      cases k <;> decide
    have hconst : FloatConst.ofBits (Binary64.bitsOfInt 0) = .number 0 := by decide
    have hcut : k.format.cut (BinaryFormat.double.nearest 0) = 0 := by cases k <;> decide
    rw [hzero, hconst, reads, hbits, Binary64.real?, Int.natAbs_zero, hcut]
    simp
  obtain ⟨top, fraction, hf, htop, hbits, hnumber⟩ := Binary64.exists_bitsOfInt hzero
  have htop : top < 1024 := by
    have := (Nat.log2_lt (Int.natAbs_ne_zero.mpr hzero)).mpr hx
    omega
  have hkept : ∃ kept, kept < 2 ^ 52 ∧
      k.writtenBits (UInt64.ofNat (Binary64.assemble (x < 0) top fraction)) =
        Binary64.assemble (x < 0) top kept ∧
      (2 ^ 52 + fraction) / 2 ^ (53 - k.format.precision) * 2 ^ (53 - k.format.precision) =
        2 ^ 52 + kept := by
    refine ⟨fraction / 2 ^ (53 - k.format.precision) * 2 ^ (53 - k.format.precision),
      (Nat.div_mul_le_self _ _).trans_lt hf, ?_, ?_⟩
    · rw [writtenBits_eq, Binary64.toNat_assemble _ htop hf]
      unfold Binary64.assemble
      cases k <;> simp only [format, BinaryFormat.single, BinaryFormat.double] <;> omega
    · cases k <;> simp only [format, BinaryFormat.single, BinaryFormat.double] <;> omega
  obtain ⟨kept, hlt, hwritten, hcut⟩ := hkept
  have hnumber : (2 ^ 52 + kept) * 2 ^ top =
      k.format.cut (BinaryFormat.double.nearest x.natAbs) * 2 ^ 52 := by
    rw [← hcut]
    apply BinaryFormat.cut_mul_eq _ _ _ (by omega) (by omega) hnumber
    all_goals cases k <;> decide
  have hconst : Ir.FloatConst.ofBits (Binary64.bitsOfInt x) = .number (Binary64.bitsOfInt x) := by
    rw [Ir.FloatConst.ofBits, hbits, Binary64.ofBits_assemble _ htop hf]
  have hreal : ((2 ^ 52 + kept : Nat) : ℚ) * 2 ^ ((top : Int) - 52) =
      (k.format.cut (BinaryFormat.double.nearest x.natAbs) : ℚ) := by
    have hcast := congrArg (fun n : Nat => (n : ℚ)) hnumber
    push_cast at hcast
    rw [zpow_sub₀ two_ne_zero, zpow_natCast, mul_div_assoc', div_eq_iff (by positivity)]
    push_cast
    exact_mod_cast hcast
  rw [hconst, reads, hbits, hwritten, Binary64.ofBits_assemble _ htop hlt, Binary64.real?, hreal]

end TreeLowering
