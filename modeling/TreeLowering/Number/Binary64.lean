/-!
Binary floating-point numbers, exactly. A value is read from its 64 bits as a sign, a mantissa and a
power of two; everything after that is arithmetic on natural numbers.
-/
namespace TreeLowering

/-- What the 64 bits of a number denote. -/
inductive Binary64 where
  /-- The number `± mantissa * 2 ^ exponent`. -/
  | finite (negative : Bool) (mantissa : Nat) (exponent : Int)
  | infinite (negative : Bool)
  | nan (negative : Bool)
deriving DecidableEq, Repr, Inhabited

/-- The quotient `num / den`, rounded to the nearest integer; a half goes to the even one. -/
def roundHalfEven (num den : Nat) : Nat :=
  let q := num / den
  let twice := 2 * (num % den)
  if twice < den then q
  else if den < twice then q + 1
  else if q % 2 = 0 then q else q + 1

namespace Binary64

/-- Reads the bits: one of sign, eleven of exponent, fifty-two of fraction. -/
def ofBits (bits : UInt64) : Binary64 :=
  let n := bits.toNat
  let negative := n / Nat.pow 2 63 = 1
  let field : Nat := n / Nat.pow 2 52 % 2048
  let fraction : Nat := n % Nat.pow 2 52
  if field = 2047 then
    if fraction = 0 then .infinite negative else .nan negative
  else if field = 0 then .finite negative fraction (-1074)
  else .finite negative (Nat.pow 2 52 + fraction) ((field : Int) - 1075)

/-- The bits of the double nearest to a positive integer; a half goes to the even mantissa. -/
def bitsOfPositive (n : Nat) : Nat :=
  let top := n.log2
  let mantissa := if top ≤ 52 then n * Nat.pow 2 (52 - top)
    else roundHalfEven n (Nat.pow 2 (top - 52))
  (1023 + top) * Nat.pow 2 52 + (mantissa - Nat.pow 2 52)

/-- The bits of the double nearest to an integer. -/
def bitsOfInt (x : Int) : UInt64 :=
  match x with
  | .ofNat 0 => 0
  | .ofNat n => UInt64.ofNat (bitsOfPositive n)
  | .negSucc n => UInt64.ofNat (Nat.pow 2 63 + bitsOfPositive (n + 1))

/-- The sign as it is written. -/
def signText (negative : Bool) : String := if negative then "-" else ""

/-- A number in hundredths, with a point and two places. -/
def hundredthsText (n : Nat) : String :=
  let cents := toString (n % 100)
  toString (n / 100) ++ "." ++ (if cents.length < 2 then "0" ++ cents else cents)

/-- The number with two places, rounded exactly; a half goes to the even neighbour. -/
def fixed2 : Binary64 → String
  | .nan _ => "NaN"
  | .infinite negative => if negative then "-Inf" else "+Inf"
  | .finite negative mantissa exponent =>
    let hundredths := match exponent with
      | .ofNat e => mantissa * Nat.pow 2 e * 100
      | .negSucc e => roundHalfEven (mantissa * 100) (Nat.pow 2 (e + 1))
    signText negative ++ hundredthsText hundredths

end Binary64

end TreeLowering
