import TreeLowering.Ir.Value

/-!
Modules: type definitions, globals, and functions made of blocks of instructions.
-/
namespace TreeLowering.Ir

/-- Operations on two numbers of one type. -/
inductive Arith where
  | add | sub | mul | udiv | sdiv | urem | srem | shl | lshr | ashr | and | or | xor
  | fadd | fsub | fmul | fdiv | frem
deriving DecidableEq, Repr, Inhabited

/-- Comparisons of integers and pointers. -/
inductive IntPred where
  | eq | ne | ugt | uge | ult | ule | sgt | sge | slt | sle
deriving DecidableEq, Repr, Inhabited

/-- Comparisons of floating-point numbers. -/
inductive FloatPred where
  | oeq | une | ogt | olt | oge | ole
deriving DecidableEq, Repr, Inhabited

/-- Conversions between types. -/
inductive Conv where
  | trunc | zext | sext | fptoui | fptosi | uitofp | sitofp | fptrunc | fpext
  | ptrtoint | inttoptr | bitcast
deriving DecidableEq, Repr, Inhabited

/-- A block by its identity in its function and its name. -/
structure Label where
  id : Nat
  name : String
deriving DecidableEq, Repr, Inhabited

/-- Instructions. -/
inductive Inst where
  /-- A stack slot, for `count` elements if given. -/
  | alloca (type : Ty) (count : Option Value)
  | load (type : Ty) (place : Value)
  | store (value place : Value)
  /-- The address reached from `base` by steps of `type`. -/
  | address (type : Ty) (base : Value) (indices : List Value)
  /-- The data pointer of an array value. -/
  | extractData (value : Value)
  | arith (op : Arith) (x y : Value)
  | fneg (x : Value)
  | icmp (pred : IntPred) (x y : Value)
  | fcmp (pred : FloatPred) (x y : Value)
  | conv (op : Conv) (x : Value) (target : Ty)
  | phi (incoming : List (Value × Label))
  | call (callee : Value) (args : List Value)
deriving Repr, Inhabited

/-- An instruction in a block, with its identity in the function and the type of its result. -/
structure Line where
  id : Nat
  inst : Inst
  type : Ty
deriving Repr, Inhabited

/-- What ends a block. -/
inductive Term where
  | ret (value : Option Value)
  | br (target : Label)
  | condBr (cond : Value) (yes no : Label)
  | unreachable
deriving Repr, Inhabited

/-- The blocks that a terminator leads to. -/
def Term.successors : Term → List Label
  | .ret _ => []
  | .br target => [target]
  | .condBr _ yes no => [yes, no]
  | .unreachable => []

/-- A block of instructions. -/
structure Block where
  label : Label
  lines : List Line := []
  term : Option Term := none
deriving Repr, Inhabited

/-- A function; without blocks it is a declaration. -/
structure Function where
  name : String
  result : Ty
  params : List (String × Ty) := []
  /-- Exported from a shared library. -/
  isExported : Bool := false
  blocks : List Block := []
deriving Repr, Inhabited

/-- A global variable. -/
structure Global where
  name : String
  content : Ty
  init : Value
  isImmutable : Bool := false
  isPrivate : Bool := false
deriving Repr, Inhabited

/-- A module. -/
structure Module where
  triple : String := ""
  types : Array TypeDef := #[]
  globals : Array Global := #[]
  funcs : Array Function := #[]
deriving Repr, Inhabited

/-- The address of a function of the module. -/
def Function.value (f : Function) (id : FuncId) : Value := .func id f.result (f.params.map Prod.snd)

end TreeLowering.Ir
