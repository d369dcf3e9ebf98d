import TreeLowering.Breach
import TreeLowering.Source.Position
import TreeLowering.Source.Token
import TreeLowering.Text.Quoted

/-!
Operators of expressions, how they are written, and which token stands for which operator.
-/
namespace TreeLowering

/-- The operators with two operands, in the order of their numbers. -/
inductive BinaryOp where
  | add | sub | mul | div | rem | shl | shr | condOr | condAnd
  | or | xor | and | eql | neq | gtr | lss | geq | leq
deriving DecidableEq, Repr, Inhabited

namespace BinaryOp

/-- Every operator, in the order of the numbers. -/
def all : List BinaryOp := [
  .add, .sub, .mul, .div, .rem, .shl, .shr, .condOr, .condAnd,
  .or, .xor, .and, .eql, .neq, .gtr, .lss, .geq, .leq]

/-- The token of an operator. -/
def token : BinaryOp → TokenKind
  | .add => .add | .sub => .sub | .mul => .mul | .div => .div | .rem => .rem
  | .shl => .shl | .shr => .shr | .condOr => .orOr | .condAnd => .andAnd
  | .or => .or | .xor => .xor | .and => .and
  | .eql => .eql | .neq => .neq | .gtr => .gtr | .lss => .lss | .geq => .geq | .leq => .leq

/-- How an operator is written. -/
def text (op : BinaryOp) : String := op.token.text

/-- Whether an operator compares its operands. -/
def isComparison : BinaryOp → Bool
  | .eql | .neq | .gtr | .lss | .geq | .leq => true
  | _ => false

/-- Whether an operator may leave its right operand unevaluated. -/
def isLogical : BinaryOp → Bool
  | .condOr | .condAnd => true
  | _ => false

/-- The operator that a token stands for. -/
def ofToken? (t : Token) : Option BinaryOp :=
  all.find? fun op => t = .known op.token

end BinaryOp

/-- The operators with one operand, in the order of their numbers. -/
inductive UnaryOp where
  | plus | neg | not | complement | addr | deref
deriving DecidableEq, Repr, Inhabited

namespace UnaryOp

/-- Every operator, in the order of the numbers. -/
def all : List UnaryOp := [.plus, .neg, .not, .complement, .addr, .deref]

/-- A readable name of an operator. -/
def text : UnaryOp → String
  | .plus => "unary +"
  | .neg => "unary -"
  | .not => "!"
  | .complement => "~"
  | .addr => "address of &"
  | .deref => "dereference *"

/-- The token of an operator. -/
def token : UnaryOp → TokenKind
  | .plus => .add
  | .neg => .sub
  | .not => .not
  | .complement => .tilde
  | .addr => .and
  | .deref => .mul

/-- The operator that a token stands for. -/
def ofToken? (t : Token) : Option UnaryOp :=
  all.find? fun op => t = .known op.token

end UnaryOp

/-- A step before or after a variable is read, in the order of the numbers. -/
inductive Step where
  | none | preInc | preDec | postInc | postDec
deriving DecidableEq, Repr, Inhabited

/-- Every step, in the order of the numbers. -/
def Step.all : List Step := [.none, .preInc, .preDec, .postInc, .postDec]

/-! ## Operators as stored in a tree -/

/-- Whether a stored operator compares; an unknown number does not. -/
def BinaryOp.codedIsComparison (op : Coded BinaryOp) : Bool := op.get?.any isComparison

/-- Whether a stored operator is a short-circuit one; an unknown number is not. -/
def BinaryOp.codedIsLogical (op : Coded BinaryOp) : Bool := op.get?.any isLogical

/-- The text of a stored binary operator. -/
def BinaryOp.codedText : Coded BinaryOp → Except Breach String
  | .known op => .ok op.text
  | .unknown code => .error (.binaryOperator code)

/-- The text of a stored unary operator. -/
def UnaryOp.codedText : Coded UnaryOp → Except Breach String
  | .known op => .ok op.text
  | .unknown code => .error (.unaryOperator code)

/-! ## Tokens that are no operator -/

/-- The place where an operator was expected. -/
inductive OperatorPlace where
  | binary | unary
deriving DecidableEq, Repr

/-- A token that is no operator where one was expected. -/
structure OperatorError where
  position : Position
  token : Token
  place : OperatorPlace
deriving DecidableEq, Repr

/-- The text of an operator error. -/
def OperatorError.message (e : OperatorError) : String :=
  let what := match e.place with
    | .binary => "invalid token type for binary operation"
    | .unary => "invalid token type for unary operator"
  e.position.render ++ ": " ++ what ++ ": " ++ Text.quoted (Token.text e.token)

/-- The binary operator of a token found at a position. -/
def BinaryOp.ofToken (t : Token) (p : Position) : Except OperatorError BinaryOp :=
  match ofToken? t with
  | some op => .ok op
  | none => .error ⟨p, t, .binary⟩

/-- The unary operator of a token found at a position. -/
def UnaryOp.ofToken (t : Token) (p : Position) : Except OperatorError UnaryOp :=
  match ofToken? t with
  | some op => .ok op
  | none => .error ⟨p, t, .unary⟩

/-- Whether a token can start a unary operation. -/
def UnaryOp.startsWith (t : Token) : Bool := (ofToken? t).isSome

end TreeLowering
