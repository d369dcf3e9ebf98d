/-!
Texts as bytes.

A string literal of a program may hold any bytes, so every rendering that can quote one is a list of
bytes. `Bytes.decode` reads such a text as UTF-8 and marks each byte that starts no well-formed
sequence.
-/
namespace TreeLowering

/-- A text as its bytes. -/
abbrev Bytes := List UInt8

/-- The UTF-8 encoding of a string. -/
def utf8 (s : String) : Bytes := s.toUTF8.data.toList

instance : Coe String Bytes := ⟨utf8⟩

namespace Bytes

/-- The six bits that a continuation byte `10xxxxxx` carries. -/
def continuation? (b : UInt8) : Option Nat :=
  if 0x80 ≤ b ∧ b < 0xC0 then some (b.toNat - 0x80) else none

/-- The scalar value that starts the text, and how many bytes after the first one belong to it.
    Overlong forms, surrogates and values above `10FFFF` are not well formed. -/
def sequence? : Bytes → Option (Nat × Nat)
  | [] => none
  | a :: rest =>
    if a < 0x80 then some (a.toNat, 0)
    else if 0xC2 ≤ a ∧ a < 0xE0 then
      match (rest.take 3).map continuation? with
      | some b :: _ => some ((a.toNat - 0xC0) * 64 + b, 1)
      | _ => none
    else if 0xE0 ≤ a ∧ a < 0xF0 then
      match (rest.take 3).map continuation? with
      | some b :: some c :: _ =>
        let v := (a.toNat - 0xE0) * 4096 + b * 64 + c
        if 0x800 ≤ v ∧ ¬(0xD800 ≤ v ∧ v < 0xE000) then some (v, 2) else none
      | _ => none
    else if 0xF0 ≤ a ∧ a < 0xF5 then
      match (rest.take 3).map continuation? with
      | some b :: some c :: some d :: _ =>
        let v := (a.toNat - 0xF0) * 262144 + b * 4096 + c * 64 + d
        if 0x10000 ≤ v ∧ v < 0x110000 then some (v, 3) else none
      | _ => none
    else none

/-- Reads a text after the first `skip` bytes: scalar values, with `none` for a byte that starts no
    well-formed sequence. -/
def decodeFrom : Nat → Bytes → List (Option Nat)
  | _, [] => []
  | skip + 1, _ :: rest => decodeFrom skip rest
  | 0, a :: rest =>
    match sequence? (a :: rest) with
    | some (v, more) => some v :: decodeFrom more rest
    | none => none :: decodeFrom 0 rest

/-- The scalar values of a text, with `none` for each malformed byte. -/
def decode (t : Bytes) : List (Option Nat) := decodeFrom 0 t

/-- The string that a text encodes, if it is well-formed UTF-8. -/
def toString? (t : Bytes) : Option String :=
  (t.decode.mapM id).map fun vs => String.ofList (vs.map Char.ofNat)

end Bytes

/-! ## Hexadecimal digits -/

/-- The digits of `n` in base sixteen, in lower case. -/
def hexDigits (n : Nat) : List Char := Nat.toDigits 16 n

/-- The digits of `n` in base sixteen, padded with zeros to `width`. -/
def hexPadded (width n : Nat) : List Char :=
  let ds := hexDigits n
  List.replicate (width - ds.length) '0' ++ ds

/-- The digits of `n` in base sixteen, in upper case. -/
def upperHexDigits (n : Nat) : List Char := (hexDigits n).map Char.toUpper

end TreeLowering
