import TreeLowering.Breach
import TreeLowering.Source.Position
import TreeLowering.Text.Bytes
import TreeLowering.Abi

/-!
Why lowering stops: the program was rejected at a position for a cause, or a breach occurred. Texts
that describe a node are bytes, because they may quote a string literal.
-/
namespace TreeLowering

/-- Why a program is rejected. -/
inductive Cause where
  | undefinedName (name : String)
  | usedBeforeDefinition (name : String)
  | unknownType (kind : String)
  | notFunction (name : String)
  | noReturnType (name : String)
  | parameterCount (name : String) (declared typed : Nat)
  | redeclared (symbol : String)
  | noPrototype (name : String)
  | entryWithParameters (name : String)
  | noFallThrough
  | misplaced (kind : String)
  | untypedVariable (name : String)
  | outsideLoop (token : String)
  | returnOutsideFunction
  | missingReturnValue (function : String)
  | unwantedReturnValue (function : String)
  | assignToFunction (name : String)
  | notAddressable (node : Bytes)
  | notPointer (node : Bytes)
  | incrementFunction (name : String)
  | notSteppable (node : Bytes)
  | argumentCount (name : String) (wanted given : Nat)
  | arrowOnNonPointer (node : Bytes)
  | noField (type field : String)
  | notIndexable (node : Bytes)
  | undefinedOperator (op : String) (node : Bytes)
  | undefinedFloatOperator (op : String)
  | undefinedPointerOperator (op : String)
  | notCondition (node : Bytes)
  | intLiteralType (value : Int) (type : String)
  | floatLiteralType (type : String)
  | arrayLiteralType (type : String)
  | negativeLength (length : Int)
  | notStruct (name : String)
  | fieldCount (name : String) (wanted given : Nat)
deriving DecidableEq, Repr, Inhabited

/-- The text of a cause. -/
def Cause.message : Cause → Bytes
  | .undefinedName name => utf8 ("undefined: " ++ name)
  | .usedBeforeDefinition name => utf8 (name ++ " used before its definition")
  | .unknownType kind => utf8 ("cannot determine type of " ++ kind)
  | .notFunction name => utf8 (name ++ " is not a function")
  | .noReturnType name => utf8 ("function " ++ name ++ " has no return type")
  | .parameterCount name declared typed =>
    utf8 ("function " ++ name ++ " declares " ++ toString declared ++
      " parameters, its type has " ++ toString typed)
  | .redeclared symbol => utf8 ("function " ++ symbol ++ " redeclared")
  | .noPrototype name => utf8 ("function " ++ name ++ " has no prototype")
  | .entryWithParameters name => utf8 ("entry function " ++ name ++ " must not take parameters")
  | .noFallThrough =>
    utf8 ("top-level code does not fall through to the end of " ++ Abi.initFunction)
  | .misplaced kind => utf8 ("unexpected " ++ kind ++ " in statement position")
  | .untypedVariable name => utf8 ("variable " ++ name ++ " has no type")
  | .outsideLoop token => utf8 (token ++ " is not in a loop")
  | .returnOutsideFunction => utf8 "return outside function"
  | .missingReturnValue function => utf8 ("missing return value in " ++ function)
  | .unwantedReturnValue function => utf8 (function ++ " does not return a value")
  | .assignToFunction name => utf8 ("cannot assign to function " ++ name)
  | .notAddressable node => node ++ utf8 " is not addressable"
  | .notPointer node => utf8 "cannot dereference " ++ node
  | .incrementFunction name => utf8 ("cannot increment function " ++ name)
  | .notSteppable node => utf8 "cannot increment or decrement " ++ node
  | .argumentCount name wanted given =>
    utf8 (name ++ " takes " ++ toString wanted ++ " arguments, " ++ toString given ++ " given")
  | .arrowOnNonPointer node => utf8 "-> on non-pointer " ++ node
  | .noField type field => utf8 (type ++ " has no field " ++ field)
  | .notIndexable node => utf8 "cannot index " ++ node
  | .undefinedOperator op node => utf8 ("operator " ++ op ++ " not defined on ") ++ node
  | .undefinedFloatOperator op =>
    utf8 ("operator " ++ op ++ " not defined on floating-point operands")
  | .undefinedPointerOperator op => utf8 ("operator " ++ op ++ " not defined on pointers")
  | .notCondition node => node ++ utf8 " cannot be used as a condition"
  | .intLiteralType value type =>
    utf8 ("integer literal " ++ toString value ++ " cannot have type " ++ type)
  | .floatLiteralType type => utf8 ("float literal cannot have type " ++ type)
  | .arrayLiteralType type => utf8 ("array literal cannot have type " ++ type)
  | .negativeLength length => utf8 ("negative array length " ++ toString length)
  | .notStruct name => utf8 (name ++ " is not a struct type")
  | .fieldCount name wanted given =>
    utf8 (name ++ " has " ++ toString wanted ++ " fields, " ++ toString given ++ " given")

/-- Why lowering stopped. -/
inductive Fault where
  /-- The program was rejected. -/
  | rejected (position : Position) (cause : Cause)
  | breach (b : Breach)
deriving DecidableEq, Repr, Inhabited

/-- The text of a rejection: its position and its cause. -/
def rejectionMessage (position : Position) (cause : Cause) : Bytes :=
  utf8 (position.render ++ ": ") ++ cause.message

end TreeLowering
