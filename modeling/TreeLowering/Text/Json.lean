import TreeLowering.Text.Bytes

/-!
JSON strings as the tree dump writes them: short escapes where they exist, characters that matter to
HTML and the two line separators by number, malformed bytes as the replacement character.
-/
namespace TreeLowering.Json

/-- The written form of one scalar value inside a JSON string. -/
def escapeScalar (v : Nat) : List Char :=
  match Char.ofNat v with
  | '"' => ['\\', '"']
  | '\\' => ['\\', '\\']
  | '\n' => ['\\', 'n']
  | '\r' => ['\\', 'r']
  | '\t' => ['\\', 't']
  | c =>
    if v = 8 then ['\\', 'b']
    else if v = 12 then ['\\', 'f']
    else if v < 0x20 ∨ c = '<' ∨ c = '>' ∨ c = '&' ∨ v = 0x2028 ∨ v = 0x2029 then
      '\\' :: 'u' :: hexPadded 4 v
    else [c]

/-- The written form of one decoded position: a malformed byte becomes the replacement character. -/
def escapeUnit : Option Nat → List Char
  | some v => escapeScalar v
  | none => ['\uFFFD']

/-- A text as a JSON string. -/
def quote (t : Bytes) : String :=
  "\"" ++ String.ofList (t.decode.flatMap escapeUnit) ++ "\""

end TreeLowering.Json
