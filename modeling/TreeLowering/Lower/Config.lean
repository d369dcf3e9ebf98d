import TreeLowering.Source.Coded
import TreeLowering.Source.Position
import TreeLowering.Abi

/-!
What controls lowering, and what it reports while it runs.
-/
namespace TreeLowering

/-- The shape of the init function, in the order of the numbers. -/
inductive Mode where
  /-- It takes and returns nothing and is the program's entry. -/
  | executable
  /-- It is the load entry of a shared library. -/
  | library
deriving DecidableEq, Repr, Inhabited

/-- Every mode, in the order of the numbers. -/
def Mode.all : List Mode := [.executable, .library]

/-- The name of a mode; a number outside the enumeration is shown. -/
def Mode.codedText : Coded Mode → String
  | .known .executable => "executable"
  | .known .library => "library"
  | .unknown code => "Mode(" ++ toString code ++ ")"

/-- What controls lowering. -/
structure Config where
  /-- An unknown mode counts as executable. -/
  mode : Coded Mode := .known .executable
  /-- The function to call after top-level code; empty for the default. -/
  entryName : String := ""
  /-- The target of the module, if set. -/
  triple : String := ""
  /-- Reject functions without a return type instead of warning. -/
  strictReturnTypes : Bool := false
  /-- Check the finished module. -/
  verify : Bool := false
deriving DecidableEq, Repr, Inhabited

/-- Whether the module is a shared library. -/
def Config.isLibrary (c : Config) : Bool := c.mode = .known .library

/-- The function to call after top-level code. -/
def Config.entry (c : Config) : String :=
  if c.entryName = "" then Abi.defaultEntry else c.entryName

/-! ## Reports -/

/-- What lowering reports. -/
inductive Event where
  | partitioned (consts globals funcs other : Nat)
  | enteredSpace (name : String) (decls : Nat)
  | withoutPrototype (function : String) (inactive : Bool)
  | prototype (function symbol : String) (params : Nat)
  | loweredBody (function : String) (blocks : Nat)
  | loweredModule (funcs globals types : Nat)
  /-- A function without a return type, taken to return nothing. -/
  | noReturnType (position : Position) (function : String)
deriving DecidableEq, Repr, Inhabited

/-- How grave a report is. -/
inductive Level where
  | debug | warn
deriving DecidableEq, Repr

/-- A report as it is logged. -/
structure Record where
  level : Level
  message : String
  fields : List (String × String)
deriving DecidableEq, Repr

namespace Event

/-- The text of a warning. -/
def noReturnTypeText (function : String) : String :=
  "function " ++ function ++ " has no return type, assuming void"

/-- How a report is logged. -/
def record : Event → Record
  | .partitioned consts globals funcs other =>
    ⟨.debug, "partitioned declarations", [("consts", toString consts),
      ("globals", toString globals), ("funcs", toString funcs), ("other", toString other)]⟩
  | .enteredSpace name decls =>
    ⟨.debug, "lowering namespace", [("name", name), ("decls", toString decls)]⟩
  | .withoutPrototype function inactive =>
    ⟨.debug, "no prototype", [("func", function), ("inactive", toString inactive)]⟩
  | .prototype function symbol params =>
    ⟨.debug, "prototype", [("func", function), ("symbol", symbol), ("params", toString params)]⟩
  | .loweredBody function blocks =>
    ⟨.debug, "lowered body", [("func", function), ("blocks", toString blocks)]⟩
  | .loweredModule funcs globals types =>
    ⟨.debug, "module lowered", [("funcs", toString funcs), ("globals", toString globals),
      ("types", toString types)]⟩
  | .noReturnType position function =>
    ⟨.warn, noReturnTypeText function, [("pos", position.render)]⟩

/-- The position and text of a warning. -/
def warning? : Event → Option (Position × String)
  | .noReturnType position function => some (position, noReturnTypeText function)
  | _ => none

end Event

end TreeLowering
