import TreeLowering.Text.Bytes
import TreeLowering.Text.Printable

/-!
Quoted texts in messages: double quotes around the text, printable characters as themselves, all
others as escapes.
-/
namespace TreeLowering.Text

/-- The written form of one character inside a quoted text. -/
def quoteChar (c : Char) : List Char :=
  match c with
  | '"' => ['\\', '"']
  | '\\' => ['\\', '\\']
  | '\n' => ['\\', 'n']
  | '\r' => ['\\', 'r']
  | '\t' => ['\\', 't']
  | c =>
    if isPrintable c.toNat then [c]
    else match c.toNat with
      | 7 => ['\\', 'a']
      | 8 => ['\\', 'b']
      | 11 => ['\\', 'v']
      | 12 => ['\\', 'f']
      | v =>
        if v < 0x20 ∨ v = 0x7F then '\\' :: 'x' :: hexPadded 2 v
        else if v < 0x10000 then '\\' :: 'u' :: hexPadded 4 v
        else '\\' :: 'U' :: hexPadded 8 v

/-- A string in double quotes with its unprintable characters escaped. -/
def quoted (s : String) : String :=
  "\"" ++ String.ofList (s.toList.flatMap quoteChar) ++ "\""

end TreeLowering.Text
