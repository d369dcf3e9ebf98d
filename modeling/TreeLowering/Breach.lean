/-!
Breaches: an input that no well-formed tree brings, or an instruction that the module under
construction does not admit. A breach is not a diagnostic of the program being lowered; it stops the
operation at once.
-/
namespace TreeLowering

/-- What was broken. -/
inductive Breach where
  /-- A part that the operation needs is not there. -/
  | missingPart
  /-- The types refer to each other in a circle that no struct closes. -/
  | endlessType
  /-- A binary operator number outside the enumeration. -/
  | binaryOperator (code : Nat)
  /-- A unary operator number outside the enumeration. -/
  | unaryOperator (code : Nat)
  /-- An increment tag outside the enumeration, met while describing a node. -/
  | describedTag (code : Nat) (name : String)
  /-- An increment tag outside the enumeration, met while lowering a node. -/
  | loweredTag (code : Nat) (name : String)
  /-- An empty slot was to be described. -/
  | emptySlot
  /-- A type reference with a negative pointer depth. -/
  | negativeDepth
  /-- A missing type was to be mapped to an instruction type. -/
  | missingType
  /-- An operator on integers that neither computes nor compares. -/
  | notComparison (op : String)
  /-- The body of a function was met twice. -/
  | bodyTwice (name : String)
  /-- The stored value does not have the type of the place. -/
  | storeMismatch (source target : String)
  /-- An address step by a constant that is not an integer. -/
  | stepIndex (kind : String)
  /-- An address step from a value that is not a pointer. -/
  | stepSource (kind : String)
  /-- An element taken from a value that has none. -/
  | aggregate (kind : String)
  /-- A one-bit constant that is neither zero nor one. -/
  | bitConstant (value : Int)
deriving DecidableEq, Repr, Inhabited

/-- The text of a breach; the first two have none. -/
def Breach.message? : Breach → Option String
  | missingPart => none
  | endlessType => none
  | binaryOperator code => some ("syntax: invalid binary operator " ++ toString code)
  | unaryOperator code => some ("syntax: invalid unary operator " ++ toString code)
  | describedTag code name =>
    some ("syntax: invalid increment tag " ++ toString code ++ " on " ++ name)
  | loweredTag code name =>
    some ("codegen.varRef: invalid increment tag " ++ toString code ++ " on " ++ name)
  | emptySlot => some "syntax.Describe: unhandled <nil>"
  | negativeDepth => some "strings: negative Repeat count"
  | missingType => some "codegen.irType: unhandled <nil>"
  | notComparison op => some ("codegen.intPred: not a comparison: " ++ op)
  | bodyTwice name => some ("codegen.funcBody: body of " ++ name ++ " lowered twice")
  | storeMismatch source target =>
    some ("store operands are not compatible: src=" ++ source ++ "; dst=" ++ target)
  | stepIndex kind => some ("support for gep index type " ++ kind ++ " not yet implemented")
  | stepSource kind =>
    some ("invalid gep source type; expected pointer or vector of pointers type, got " ++ kind)
  | aggregate kind => some ("support for aggregate type " ++ kind ++ " not yet implemented")
  | bitConstant value =>
    some ("invalid integer value of boolean type; expected 0 or 1, got " ++ toString value)

/-- How a message shows a value whose own rendering breaks with `b`. -/
def Breach.shownInMessage (b : Breach) : String :=
  "%!s(PANIC=String method: " ++
    b.message?.getD "runtime error: invalid memory address or nil pointer dereference" ++ ")"

/-- A rendering as a text shows it that goes on in any case, also where the rendering breaks. -/
def shownInMessage : Except Breach String → String
  | .ok text => text
  | .error b => b.shownInMessage

theorem eq_ok_of_mem_toOption {ε α : Type} {r : Except ε α} {a : α} (h : a ∈ r.toOption) :
    r = .ok a := by
  cases r with
  | error e => cases h
  | ok b =>
    cases h
    rfl

end TreeLowering
