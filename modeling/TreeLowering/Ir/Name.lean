import TreeLowering.Text.Bytes

/-!
How names and texts are written in a module: plain if every byte is a letter, digit or one of
`$ . _ -`, else in double quotes with escapes.
-/
namespace TreeLowering.Ir

/-- Whether a byte can stand in a name without quotes. -/
def isPlainByte (b : UInt8) : Bool :=
  (0x61 ≤ b && b ≤ 0x7A) || (0x41 ≤ b && b ≤ 0x5A) || (0x30 ≤ b && b ≤ 0x39) ||
    b = 0x24 || b = 0x2E || b = 0x5F || b = 0x2D

/-- A byte in a quoted text: unprintable ones, quotes and backslashes as two hexadecimal digits. -/
def escapeByte (b : UInt8) : List Char :=
  if b < 0x20 ∨ 0x7E < b ∨ b = 0x22 ∨ b = 0x5C then
    '\\' :: (hexPadded 2 b.toNat).map Char.toUpper
  else [Char.ofNat b.toNat]

/-- A text in double quotes. -/
def quotedBytes (t : Bytes) : String := "\"" ++ String.ofList (t.flatMap escapeByte) ++ "\""

/-- A name, in quotes if it needs them. -/
def nameText (name : String) : String :=
  if (utf8 name).all isPlainByte then name else quotedBytes name

/-- The number that a text of decimal digits denotes. -/
def digitsValue? (cs : List Char) : Option Nat :=
  if !cs.isEmpty && cs.all Char.isDigit then
    some (cs.foldl (fun n c => 10 * n + (c.toNat - '0'.toNat)) 0)
  else none

/-- Whether a name reads as an unsigned number of 64 bits; it would be taken for an identity. -/
def readsAsIdentity (name : String) : Bool :=
  (digitsValue? name.toList).any (· < 18446744073709551616)

/-- The name of a global, local or label, in quotes if it could be taken for an identity. -/
def identText (name : String) : String :=
  if readsAsIdentity name then "\"" ++ name ++ "\"" else nameText name

/-- The number that a name denotes as a signed decimal of 64 bits. -/
def signedValue? (name : String) : Option Int :=
  let value := match name.toList with
    | '-' :: cs => (digitsValue? cs).map fun n => -(n : Int)
    | '+' :: cs => (digitsValue? cs).map Int.ofNat
    | cs => (digitsValue? cs).map Int.ofNat
  value.filter fun x => -9223372036854775808 ≤ x ∧ x < 9223372036854775808

/-- The name of a function in a message: an empty one shows its identity, one that reads as a
    number that number in quotes. -/
def messageName (name : String) : String :=
  if name = "" then "0"
  else match signedValue? name with
    | some x => "\"" ++ toString x ++ "\""
    | none => name

end TreeLowering.Ir
