import TreeLowering.Lower.State

/-!
Instruction types of source types.

An array is a struct of its length and a pointer to its elements. A declared struct becomes a type
definition of the module, entered before its fields are mapped so that it may refer to itself. Every
other declared type is mapped like what it stands for.
-/
namespace TreeLowering.Lower

/-- The instruction type of a scalar type. -/
def scalarType : Scalar → Ir.Ty
  | .bool => .int 1
  | .i8 | .u8 => .int 8
  | .i16 | .u16 => .int 16
  | .i32 | .u32 => .int 32
  | .i64 | .u64 | .mm => .int 64
  | .f32 => .float .single
  | .f64 => .float .double
  | .void => .void

/-- The struct that an array of some elements is. -/
def arrayStruct (elem : Ir.Ty) : Ir.Ty := .struct [.int 32, .pointer elem]

mutual

/-- The instruction type of a source type, given that of declared types. -/
def mapType (store : Store) (named : NamedId → Lower Ir.Ty) : Ty → Lower Ir.Ty
  | .missing => breach .missingType
  | .scalar k => pure (scalarType k)
  | .string => pure (arrayStruct (.int 8))
  | .array t => do
    let elem ← mapType store named t
    pure (arrayStruct elem)
  | .pointer t =>
    if store.isVoid t then pure Ir.Ty.bytePointer
    else do
      let base ← mapType store named t
      pure (.pointer base)
  | .struct fields => do
    let ts ← mapFields store named fields
    pure (.struct ts)
  | .func params result _ => do
    let r ← if result.isMissing then pure .void else mapType store named result
    let ps ← mapFields store named params
    pure (.pointer (.func r ps))
  | .named id => named id

/-- The instruction types of fields or parameters. -/
def mapFields (store : Store) (named : NamedId → Lower Ir.Ty) :
    List (String × Ty) → Lower (List Ir.Ty)
  | [] => pure []
  | (_, t) :: rest => do
    let first ← mapType store named t
    let others ← mapFields store named rest
    pure (first :: others)

end

/-- Remembers the instruction type of a declared type. -/
def remember (id : NamedId) (t : Ir.Ty) : Lower Unit :=
  modify fun s => { s with mapped := (id, t) :: s.mapped }

/-- Enters a type definition without fields under a fresh name. -/
def addTypeDef (name : String) : Lower Ir.Ty := do
  let s ← get
  let (unique, used) := uniqueName s.typeNames name
  set { s with
    typeNames := used
    module := { s.module with types := s.module.types.push { name := unique } } }
  pure (.defined s.module.types.size unique)

/-- Sets the fields of a type definition. -/
def setFields (t : Ir.Ty) (fields : List Ir.Ty) : Lower Unit :=
  match t with
  | .defined index _ =>
    modify fun s => { s with
      module := { s.module with
        types := s.module.types.modify index fun d => { d with fields } } }
  | _ => pure ()

/-- The instruction type of a declared type, given how to map what lies below it. -/
def declaredType (store : Store) (map : Ty → Lower Ir.Ty) (id : NamedId) : Lower Ir.Ty := do
  match (← get).mapped.lookup id with
  | some t => pure t
  | none =>
    match store.underlying (.named id) with
    | .struct fields =>
      match store.declaration id with
      | none => breach .missingPart
      | some o =>
        let t ← addTypeDef (store.nameOf o)
        remember id t
        let ts ← fields.mapM fun f => map f.2
        setFields t ts
        pure t
    | below =>
      let t ← map below
      remember id t
      pure t

/-- The instruction type of a source type, through at most `depth` declared types that are not
    mapped yet. -/
def instructionTypeWithin (store : Store) : Nat → Ty → Lower Ir.Ty
  | 0, t => mapType store (declaredType store fun _ => breach .endlessType) t
  | depth + 1, t => mapType store (declaredType store (instructionTypeWithin store depth)) t

/-- How many declared types can be met one below the other before they are mapped, unless that never
    ends: a declared struct is met once, and between two of them no declared type is met twice. -/
def declaredDepth (store : Store) : Nat := (store.named.size + 1) * (store.named.size + 1)

/-- The instruction type of a source type. -/
def instructionType (c : Context) (t : Ty) : Lower Ir.Ty :=
  instructionTypeWithin c.analysis.store (declaredDepth c.analysis.store) t

/-- The result and parameter types of a function; a missing result is void. -/
def instructionSignature (c : Context) (params : List (String × Ty)) (result : Ty) :
    Lower (Ir.Ty × List Ir.Ty) := do
  let r ← if result.isMissing then pure .void else instructionType c result
  let ps ← params.mapM fun p => instructionType c p.2
  pure (r, ps)

end TreeLowering.Lower
