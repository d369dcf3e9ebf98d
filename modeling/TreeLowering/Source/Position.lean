/-!
Source positions. Line and column count from one; line zero marks a node that stands nowhere in
the source.
-/
namespace TreeLowering

/-- A place in a source file. -/
structure Position where
  /-- Name of the file, empty if unknown. -/
  file : String := ""
  /-- Line, from one; zero if the position is not valid. -/
  line : Nat := 0
  /-- Byte offset in the line, from one. -/
  column : Nat := 0
deriving DecidableEq, Repr, Inhabited

namespace Position

/-- The position of synthesized nodes. -/
def none : Position := {}

/-- A position is valid iff it has a line. -/
def isValid (p : Position) : Bool := 0 < p.line

/-- The written form: `file:line:column`, without the file if it has no name, `-` if not valid. -/
def render (p : Position) : String :=
  if p.isValid then
    let place := toString p.line ++ ":" ++ toString p.column
    if p.file = "" then place else p.file ++ ":" ++ place
  else "-"

/-- Whether `p` comes strictly before `q` in the same file. Positions of different files are
    unordered. -/
def before (p q : Position) : Bool :=
  p.file = q.file && (if p.line = q.line then p.column < q.column else p.line < q.line)

end Position

end TreeLowering
