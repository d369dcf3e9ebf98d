import TreeLowering.Ir.Module
import TreeLowering.Number.Decimal
import TreeLowering.Breach

/-!
How constants are written: integers in decimal unless their hexadecimal digits are much more
uniform, floating-point numbers in decimal if that is both exact and shortest, else by their bits.
-/
namespace TreeLowering.Ir

/-- How varied digits are: distinct ones over as many as there could be. -/
def variety (base : Nat) (digits : List Char) : Float :=
  digits.eraseDups.length.toFloat / (min digits.length base).toFloat

/-- How varied hexadecimal digits may be for the hexadecimal form. -/
def varietyBound (length : Nat) : Float :=
  let n := min length 16
  if n < 4 then 0
  else if n ≤ 6 then 2 / n.toFloat
  else if n ≤ 10 then 3 / n.toFloat
  else 4 / n.toFloat

/-- Whether a number is written in base sixteen. -/
def prefersHex (n : Nat) : Bool :=
  let hex := variety 16 (hexDigits n)
  4096 ≤ n && hex ≤ varietyBound (hexDigits n).length + 0.01 &&
    variety 10 (Nat.toDigits 10 n) ≥ hex + 0.2

/-- An integer wider than one bit. -/
def integerText (x : Int) : String :=
  if 0 ≤ x ∧ prefersHex x.toNat then "u0x" ++ String.ofList (upperHexDigits x.toNat)
  else toString x

/-- An integer constant of a width; one bit is written as a truth value. -/
def intText (width : Nat) (x : Int) : Except Breach String :=
  if width = 1 then
    if x = 0 then .ok "false"
    else if x = 1 then .ok "true"
    else .error (.bitConstant x)
  else .ok (integerText x)

/-- The format of a floating-point type. -/
def FloatKind.format : FloatKind → BinaryFormat
  | .single => .single
  | .double => .double

/-- The bits that a floating-point type writes: those of the double, cut to the places that single
    precision has. -/
def FloatKind.writtenBits (k : FloatKind) (bits : UInt64) : Nat :=
  match k with
  | .single => bits.toNat / Nat.pow 2 29 * Nat.pow 2 29
  | .double => bits.toNat

/-- A number by its bits. -/
def FloatKind.bitsText (k : FloatKind) (bits : UInt64) : String :=
  "0x" ++ String.ofList (upperHexDigits (k.writtenBits bits))

/-- A floating-point constant of a type. -/
def floatText (k : FloatKind) : FloatConst → String
  | .nan negative => if negative then "0xFFF8000000000000" else "0x7FF8000000000000"
  | .number bits =>
    match Binary64.ofBits bits with
    | .finite negative mantissa exponent =>
      match k.format.exactText? mantissa exponent with
      | some text => Binary64.signText negative ++ text
      | none => k.bitsText bits
    | _ => k.bitsText bits

end TreeLowering.Ir
