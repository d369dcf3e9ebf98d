import TreeLowering.Ir.Name

/-!
Instruction types. A struct can be given a name by a type definition of the module; a reference to
the definition keeps its index and its name. A definition whose name is empty stands for its body
wherever it is printed or compared.
-/
namespace TreeLowering.Ir

/-- The two floating-point types. -/
inductive FloatKind where
  | single | double
deriving DecidableEq, Repr, Inhabited

/-- Instruction types. -/
inductive Ty where
  | int (width : Nat)
  | float (kind : FloatKind)
  | void
  | pointer (elem : Ty)
  | array (length : Nat) (elem : Ty)
  | struct (fields : List Ty)
  | func (result : Ty) (params : List Ty)
  /-- The type definition with this index and name. -/
  | defined (index : Nat) (name : String)
deriving Repr, Inhabited

/-- A named struct of a module. -/
structure TypeDef where
  name : String
  fields : List Ty := []
deriving Repr, Inhabited

namespace Ty

/-- A pointer to bytes. -/
def bytePointer : Ty := .pointer (.int 8)

/-- Whether a type is `void`. -/
def isVoid : Ty → Bool
  | .void => true
  | _ => false

/-- The type that a pointer points to. -/
def pointee? : Ty → Option Ty
  | .pointer t => some t
  | _ => none

/-- The result and parameters of a pointer to a function. -/
def signature? : Ty → Option (Ty × List Ty)
  | .pointer (.func result params) => some (result, params)
  | _ => none

/-- The fields of a struct or of the definition it refers to. -/
def fields? (defs : Array TypeDef) : Ty → Option (List Ty)
  | .struct fields => some fields
  | .defined index _ => defs[index]?.map TypeDef.fields
  | _ => none

mutual

/-- Replaces references to the definition without a name by the struct that it stands for. -/
def expand (unnamed : List Ty) : Ty → Ty
  | .pointer t => .pointer (expand unnamed t)
  | .array n t => .array n (expand unnamed t)
  | .struct fields => .struct (expandAll unnamed fields)
  | .func result params => .func (expand unnamed result) (expandAll unnamed params)
  | .defined index name => if name = "" then .struct unnamed else .defined index name
  | t => t

/-- Replaces the references in a list of types. -/
def expandAll (unnamed : List Ty) : List Ty → List Ty
  | [] => []
  | t :: ts => expand unnamed t :: expandAll unnamed ts

end

mutual

/-- Whether two types are the same: definitions by name, all else by structure. -/
def same : Ty → Ty → Bool
  | .int w, t => match t with | .int w' => w = w' | _ => false
  | .float k, t => match t with | .float k' => k = k' | _ => false
  | .void, t => match t with | .void => true | _ => false
  | .pointer a, t => match t with | .pointer b => same a b | _ => false
  | .array n a, t => match t with | .array m b => n = m && same a b | _ => false
  | .struct as, t => match t with | .struct bs => sameAll as bs | _ => false
  | .func r as, t => match t with | .func r' bs => same r r' && sameAll as bs | _ => false
  | .defined _ name, t => match t with | .defined _ name' => name = name' | _ => false

/-- Whether two lists of types are the same, one by one. -/
def sameAll : List Ty → List Ty → Bool
  | [], ts => ts.isEmpty
  | a :: as, ts => match ts with | b :: bs => same a b && sameAll as bs | [] => false

end

mutual

/-- The written form of a type. -/
def text : Ty → String
  | .int w => "i" ++ toString w
  | .float .single => "float"
  | .float .double => "double"
  | .void => "void"
  | .pointer t => text t ++ "*"
  | .array n t => "[" ++ toString n ++ " x " ++ text t ++ "]"
  | .struct [] => "\x7b\x7d"
  | .struct (t :: ts) => "\x7b " ++ text t ++ textRest ts ++ " \x7d"
  | .func r [] => text r ++ " ()"
  | .func r (t :: ts) => text r ++ " (" ++ text t ++ textRest ts ++ ")"
  | .defined _ name => "%" ++ nameText name

/-- The written forms of the types after the first of a list. -/
def textRest : List Ty → String
  | [] => ""
  | t :: ts => ", " ++ text t ++ textRest ts

end

end Ty

/-- The fields of the definition without a name, if there is one. -/
def unnamedFields (defs : Array TypeDef) : List Ty :=
  ((defs.find? fun d => d.name = "").map TypeDef.fields).getD []

/-- Whether two types are the same in a module with these definitions. -/
def sameType (defs : Array TypeDef) (a b : Ty) : Bool :=
  (a.expand (unnamedFields defs)).same (b.expand (unnamedFields defs))

/-- The written form of a type in a module with these definitions. -/
def typeText (defs : Array TypeDef) (t : Ty) : String := (t.expand (unnamedFields defs)).text

end TreeLowering.Ir
