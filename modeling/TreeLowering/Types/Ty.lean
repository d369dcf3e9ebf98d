import TreeLowering.Breach
import TreeLowering.Types.Scalar

/-!
Types of the source language: how they print and when two of them are identical.

A named type is a number into a table that holds its declaration, so types that refer to themselves
are finite terms. `Ty.missing` stands where no type is known.
-/
namespace TreeLowering

/-- Identity of a named type. -/
abbrev NamedId := Nat

/-- Types. -/
inductive Ty where
  /-- No type. -/
  | missing
  | scalar (kind : Scalar)
  /-- The predeclared string type: an array of `i8` with a name of its own. -/
  | string
  /-- A length with a pointer to the elements. -/
  | array (elem : Ty)
  | pointer (base : Ty)
  | struct (fields : List (String × Ty))
  /-- A function; inactive ones were compiled out. -/
  | func (params : List (String × Ty)) (result : Ty) (inactive : Bool)
  /-- A declared type. -/
  | named (id : NamedId)
deriving Repr, Inhabited

namespace Ty

/-- Whether no type is there. -/
def isMissing : Ty → Bool
  | .missing => true
  | _ => false

/-- The type of the elements, for an array or the string type. -/
def elem? : Ty → Option Ty
  | .array t => some t
  | .string => some (.scalar .i8)
  | _ => none

/-- The index of the first field with a name. -/
def fieldIndex? (fields : List (String × Ty)) (name : String) : Option Nat :=
  fields.findIdx? fun f => f.1 = name

/-- A function type with its activity set; other types have none. -/
def setInactive (inactive : Bool) : Ty → Option Ty
  | .func params result _ => some (.func params result inactive)
  | _ => none

/-! ## Printing -/

mutual

/-- The written form of a type, given the names of declared types. A missing part has none. -/
def render (nameOf : NamedId → String) : Ty → Except Breach String
  | .missing => .error .missingPart
  | .scalar k => .ok k.name
  | .string => .ok "string"
  | .array t => (render nameOf t).map (· ++ "[]")
  | .pointer t => (render nameOf t).map (· ++ "*")
  | .struct fields =>
    (renderFields nameOf fields).map fun fs =>
      "struct\x7b" ++ String.intercalate "; " fs ++ "\x7d"
  | .func params result _ => do
    let ps ← renderParams nameOf params
    let r ← if result.isMissing then .ok "?" else render nameOf result
    .ok ("(" ++ String.intercalate ", " ps ++ ") => " ++ r)
  | .named id => .ok (nameOf id)

/-- The written forms of struct fields. -/
def renderFields (nameOf : NamedId → String) : List (String × Ty) → Except Breach (List String)
  | [] => .ok []
  | (name, t) :: rest => do
    let first ← render nameOf t
    let others ← renderFields nameOf rest
    .ok ((name ++ ": " ++ first) :: others)

/-- The written forms of parameters; one without a name shows only its type. -/
def renderParams (nameOf : NamedId → String) : List (String × Ty) → Except Breach (List String)
  | [] => .ok []
  | (name, t) :: rest => do
    let first ← render nameOf t
    let others ← renderParams nameOf rest
    .ok ((if name = "" then first else name ++ ": " ++ first) :: others)

end

/-! ## Identity -/

mutual

/-- Whether two types are identical: declared types by their declaration, all others by structure.
    Parameter names and activity do not count. -/
def identical (declaration : NamedId → Option Nat) : Ty → Ty → Bool
  | .missing, y => y.isMissing
  | .scalar k, y =>
    match y with
    | .scalar k' => k = k'
    | _ => false
  | .string, y =>
    match y with
    | .string => true
    | .array (.scalar .i8) => true
    | _ => false
  | .array t, y =>
    match y with
    | .array t' => identical declaration t t'
    | .string => identical declaration t (.scalar .i8)
    | _ => false
  | .pointer t, y =>
    match y with
    | .pointer t' => identical declaration t t'
    | _ => false
  | .struct fields, y =>
    match y with
    | .struct fields' => identicalFields declaration fields fields'
    | _ => false
  | .func params result _, y =>
    match y with
    | .func params' result' _ =>
      identicalParams declaration params params' && identical declaration result result'
    | _ => false
  | .named id, y =>
    match y with
    | .named id' => declaration id = declaration id'
    | _ => false

/-- Whether two lists of fields agree in names and types. -/
def identicalFields (declaration : NamedId → Option Nat) :
    List (String × Ty) → List (String × Ty) → Bool
  | [], ys => ys.isEmpty
  | (name, t) :: xs, ys =>
    match ys with
    | [] => false
    | (name', t') :: ys =>
      name = name' && identical declaration t t' && identicalFields declaration xs ys

/-- Whether two lists of parameters agree in types. -/
def identicalParams (declaration : NamedId → Option Nat) :
    List (String × Ty) → List (String × Ty) → Bool
  | [], ys => ys.isEmpty
  | (_, t) :: xs, ys =>
    match ys with
    | [] => false
    | (_, t') :: ys => identical declaration t t' && identicalParams declaration xs ys

end

end Ty

end TreeLowering
