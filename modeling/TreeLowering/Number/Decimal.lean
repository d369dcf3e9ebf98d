import TreeLowering.Number.Binary64

/-!
Exact decimal expansions of binary numbers.

Every finite binary number has a finite decimal expansion. `Binary.shortestIsExact` says when that
expansion is also the shortest decimal that reads back as the number, that is, when no decimal with
fewer digits lies in the interval of numbers that round to it.
-/
namespace TreeLowering

/-- A binary floating-point format: bits of precision, least exponent of the last place, greatest
    exponent of the first place. -/
structure BinaryFormat where
  precision : Nat
  least : Int
  greatest : Int
deriving DecidableEq, Repr

/-- Single precision. -/
def BinaryFormat.single : BinaryFormat := ⟨24, -149, 127⟩

/-- Double precision. -/
def BinaryFormat.double : BinaryFormat := ⟨53, -1074, 1023⟩

/-- The number `digits * 10 ^ exponent`; `digits` has no trailing zero unless it is zero. -/
structure Decimal where
  digits : Nat
  exponent : Int
deriving DecidableEq, Repr

namespace Decimal

/-- Moves at most `fuel` trailing zeros of the digits into the exponent. -/
def strip : Nat → Decimal → Decimal
  | 0, d => d
  | fuel + 1, d =>
    if d.digits ≠ 0 ∧ d.digits % 10 = 0 then strip fuel ⟨d.digits / 10, d.exponent + 1⟩ else d

/-- The expansion of `mantissa * 2 ^ exponent`: a negative power of two is a power of five over a
    power of ten. -/
def ofBinary (mantissa : Nat) (exponent : Int) : Decimal :=
  let d : Decimal := match exponent with
    | .ofNat e => ⟨mantissa * Nat.pow 2 e, 0⟩
    | .negSucc e => ⟨mantissa * Nat.pow 5 (e + 1), .negSucc e⟩
  strip (d.digits.log2 + 1) d

/-- The decimal digits, first to last. -/
def text (d : Decimal) : List Char := Nat.toDigits 10 d.digits

/-- The exponent of the first digit. -/
def leading (d : Decimal) : Int := d.exponent + d.text.length - 1

/-- The exponent as it is written: a sign and at least two digits. -/
def exponentText (x : Int) : List Char :=
  let ds := Nat.toDigits 10 x.natAbs
  (if x < 0 then '-' else '+') :: (if ds.length < 2 then '0' :: ds else ds)

/-- The number as text: with an exponent if the first digit stands below `10 ^ -4` or from `10 ^ 6`
    on, else positional; always with a point. -/
def render (d : Decimal) : String :=
  let ds := d.text
  let x := d.leading
  if x < -4 ∨ 6 ≤ x then
    let fraction := if ds.length ≤ 1 then ['0'] else ds.drop 1
    String.ofList (ds.take 1 ++ '.' :: fraction ++ 'e' :: exponentText x)
  else if x < 0 then
    String.ofList ('0' :: '.' :: (List.replicate (x.natAbs - 1) '0' ++ ds))
  else
    let whole := ds.take (x.natAbs + 1)
    let padded := whole ++ List.replicate (x.natAbs + 1 - whole.length) '0'
    let fraction := ds.drop (x.natAbs + 1)
    String.ofList (padded ++ '.' :: (if fraction.isEmpty then ['0'] else fraction))

end Decimal

/-- The pair `(a, b)` of natural numbers with `a / b = base ^ x`. -/
def powerRatio (base : Nat) (x : Int) : Nat × Nat :=
  match x with
  | .ofNat e => (Nat.pow base e, 1)
  | .negSucc e => (1, Nat.pow base (e + 1))

/-- How `m * 2 ^ e` compares with `d * 10 ^ k`. -/
def compareBinaryDecimal (m : Nat) (e : Int) (d : Nat) (k : Int) : Ordering :=
  let (a, b) := powerRatio 2 e
  let (p, q) := powerRatio 10 k
  compare (m * a * q) (d * p * b)

namespace BinaryFormat

/-- The mantissa and exponent that a format gives to the positive number `m * 2 ^ e`, if it holds
    that number exactly. -/
def place? (f : BinaryFormat) (m : Nat) (e : Int) : Option (Nat × Int) :=
  let top := e + m.log2
  let last := max f.least (top - (f.precision - 1))
  if f.greatest < top then none
  else if last ≤ e then some (m * Nat.pow 2 (e - last).natAbs, last)
  else
    let unit := Nat.pow 2 (last - e).natAbs
    if m % unit = 0 then some (m / unit, last) else none

/-- Whether the decimal `d * 10 ^ k` rounds to the number with mantissa `m` and exponent `e` in this
    format: it lies between the midpoints to the neighbours, which belong to an even mantissa. -/
def readsAs (f : BinaryFormat) (m : Nat) (e : Int) (d : Nat) (k : Int) : Bool :=
  let below := if m = Nat.pow 2 (f.precision - 1) ∧ f.least < e then 1 else 2
  let low := compareBinaryDecimal (4 * m - below) (e - 2) d k
  let high := compareBinaryDecimal (4 * m + 2) (e - 2) d k
  if m % 2 = 0 then low != .gt && high != .lt else low == .lt && high == .gt

/-- Whether the exact expansion of a number is the shortest decimal that reads back as it: it has
    one digit, or neither neighbour with one digit less reads back. -/
def shortestIsExact (f : BinaryFormat) (m : Nat) (e : Int) (d : Decimal) : Bool :=
  d.digits < 10 ||
    !(f.readsAs m e (d.digits / 10) (d.exponent + 1) ||
      f.readsAs m e (d.digits / 10 + 1) (d.exponent + 1))

/-- The decimal text of the number `m * 2 ^ e` if this format holds it and its exact expansion is
    the shortest decimal that reads back. -/
def exactText? (f : BinaryFormat) (m : Nat) (e : Int) : Option String :=
  if m = 0 then some "0.0"
  else
    match f.place? m e with
    | none => none
    | some (m', e') =>
      let d := Decimal.ofBinary m' e'
      if f.shortestIsExact m' e' d then some d.render else none

end BinaryFormat

end TreeLowering
