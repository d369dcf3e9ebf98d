import TreeLowering.Ir.Ty
import TreeLowering.Number.Binary64

/-!
Values: constants, the addresses of globals and functions, parameters, and the results of
instructions.
-/
namespace TreeLowering.Ir

/-- Index of a global in its module. -/
abbrev GlobalId := Nat

/-- Index of a function in its module. -/
abbrev FuncId := Nat

/-- A floating-point constant: the double with these bits, or a mark for no number. -/
inductive FloatConst where
  | nan (negative : Bool)
  | number (bits : UInt64)
deriving DecidableEq, Repr, Inhabited

/-- The bits of the double `-1`. -/
def minusOneBits : UInt64 := 0xBFF0000000000000

/-- The bits of the double `1`. -/
def oneBits : UInt64 := 0x3FF0000000000000

namespace FloatConst

/-- The constant for the double with these bits. -/
def ofBits (bits : UInt64) : FloatConst :=
  match Binary64.ofBits bits with
  | .nan negative => .nan negative
  | _ => .number bits

/-- The number that a constant keeps; beside the mark for no number that is zero, or minus one under
    a sign. -/
def numberBits : FloatConst → UInt64
  | .nan negative => if negative then minusOneBits else 0
  | .number bits => bits

end FloatConst

/-- Values. -/
inductive Value where
  /-- An integer constant; the number is kept as given, also where it does not fit the width. -/
  | int (width : Nat) (x : Int)
  | float (kind : FloatKind) (c : FloatConst)
  /-- The null pointer of a pointer type. -/
  | null (type : Ty)
  /-- The zero of any type. -/
  | zero (type : Ty)
  /-- Character data. -/
  | chars (bytes : Bytes)
  /-- The address of the first of `length` characters of a global. -/
  | firstChar (global : GlobalId) (length : Nat)
  /-- The address of a global. -/
  | global (id : GlobalId) (content : Ty)
  /-- The address of a function. -/
  | func (id : FuncId) (result : Ty) (params : List Ty)
  /-- A parameter of a function. -/
  | param (fn : FuncId) (index : Nat) (type : Ty)
  /-- The result of an instruction of a function. -/
  | computed (fn : FuncId) (id : Nat) (type : Ty)
deriving Repr, Inhabited

namespace Value

/-- The type of a value. -/
def type : Value → Ty
  | .int w _ => .int w
  | .float k _ => .float k
  | .null t | .zero t => t
  | .chars bytes => .array bytes.length (.int 8)
  | .firstChar _ _ => Ty.bytePointer
  | .global _ content => .pointer content
  | .func _ result params => .pointer (.func result params)
  | .param _ _ t | .computed _ _ t => t

/-- Whether a value is known before the module runs. -/
def isConstant : Value → Bool
  | .param _ _ _ | .computed _ _ _ => false
  | _ => true

/-- Whether a value is the address of a function. -/
def isFunc : Value → Bool
  | .func _ _ _ => true
  | _ => false

/-- The constant true of type `i1`. -/
def bitTrue : Value := .int 1 1

/-- The constant false of type `i1`. -/
def bitFalse : Value := .int 1 0

/-- An `i32` constant. -/
def i32 (x : Int) : Value := .int 32 x

end Value

end TreeLowering.Ir
