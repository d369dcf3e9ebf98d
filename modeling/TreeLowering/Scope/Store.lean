import TreeLowering.Tree.Node
import TreeLowering.Types.Ty

/-!
The store of scopes, objects and named types.

Scopes form trees under scopes without a parent; the first scope of every store is the universe,
which binds the predeclared types. A parent is created before its children, so identities go down
along every chain of parents. A scope never rebinds a name.
-/
namespace TreeLowering

/-- Identity of an object. -/
abbrev ObjectId := Nat

/-- How a variable is stored. -/
structure VariableFlags where
  isConstant : Bool := false
  isGlobal : Bool := false
  isField : Bool := false
  isParam : Bool := false
deriving DecidableEq, Repr, Inhabited

/-- What an object is. -/
inductive ObjectKind where
  /-- A variable, parameter, field or function. -/
  | variable (flags : VariableFlags)
  | typeName
deriving DecidableEq, Repr, Inhabited

/-- A declared entity. -/
structure Object where
  name : String
  type : Ty := .missing
  position : Position := {}
  /-- The scope it was last inserted into. -/
  parent : Option ScopeId := none
  kind : ObjectKind
deriving Repr, Inhabited

/-- Whether an object is a variable of function type. -/
def Object.isFunction (o : Object) : Bool :=
  match o.kind, o.type with
  | .variable _, .func _ _ _ => true
  | _, _ => false

/-- The flags of a variable; a type name has none. -/
def Object.flags? (o : Object) : Option VariableFlags :=
  match o.kind with
  | .variable flags => some flags
  | .typeName => none

/-- A lexical scope. -/
structure Scope where
  parent : Option ScopeId := none
  /-- The scopes opened in this one, in the order of creation. -/
  children : List ScopeId := []
  /-- The bound names, in the order of insertion. -/
  bindings : List (String × ObjectId) := []
  /-- The function whose body the scope opens. -/
  function : Option NodeId := none
  /-- A description for display. -/
  comment : String := ""
deriving Repr, Inhabited

/-- The declaration of a named type. -/
structure NamedType where
  /-- The type name, if it has one. -/
  object : Option ObjectId := none
  /-- What the name stands for, once known. -/
  underlying : Ty := .missing
deriving Repr, Inhabited

/-- All scopes, objects and named types. -/
structure Store where
  scopes : Array Scope := #[]
  objects : Array Object := #[]
  named : Array NamedType := #[]
deriving Repr, Inhabited

namespace Store

/-- The universe: the first scope of a store. -/
def root : ScopeId := 0

/-! ## Objects and types -/

/-- Adds an object that no scope binds yet. -/
def addObject (st : Store) (o : Object) : Store × ObjectId :=
  ({ st with objects := st.objects.push o }, st.objects.size)

/-- The name of an object. -/
def nameOf (st : Store) (o : ObjectId) : String := (st.objects[o]?.map Object.name).getD ""

/-- Sets the type of an object. -/
def setType (st : Store) (o : ObjectId) (t : Ty) : Store :=
  { st with objects := st.objects.modify o fun obj => { obj with type := t } }

/-- Adds a named type without an underlying type. With a name it gets a type name of its own. -/
def addNamed (st : Store) (name? : Option (String × Position)) : Store × NamedId :=
  let id := st.named.size
  match name? with
  | none => ({ st with named := st.named.push {} }, id)
  | some (name, position) =>
    let (st, o) := st.addObject { name, position, type := .named id, kind := .typeName }
    ({ st with named := st.named.push { object := some o } }, id)

/-- Sets what a named type stands for. -/
def setUnderlying (st : Store) (id : NamedId) (t : Ty) : Store :=
  { st with named := st.named.modify id fun n => { n with underlying := t } }

/-- The type name of a named type. -/
def declaration (st : Store) (id : NamedId) : Option ObjectId := st.named[id]?.bind NamedType.object

/-- The printed name of a named type. -/
def namedText (st : Store) (id : NamedId) : String :=
  match st.declaration id with
  | some o => st.nameOf o
  | none => "unnamed"

/-! ## Scopes -/

/-- Opens a scope below a parent, for the body of a function if one is given. -/
def newScope (st : Store) (parent : Option ScopeId) (function : Option NodeId)
    (comment : String) : Store × ScopeId :=
  let id := st.scopes.size
  let scopes := match parent with
    | some p => st.scopes.modify p fun s => { s with children := s.children ++ [id] }
    | none => st.scopes
  ({ st with scopes := scopes.push { parent, function, comment } }, id)

/-- What a scope itself binds a name to. -/
def lookup (st : Store) (s : ScopeId) (name : String) : Option ObjectId :=
  st.scopes[s]?.bind fun scope => scope.bindings.lookup name

/-- A scope with its parents, nearest first. -/
def chain (st : Store) (s : ScopeId) : List ScopeId :=
  match st.scopes[s]? with
  | none => []
  | some scope =>
    s :: match scope.parent with
      | some p => if p < s then st.chain p else []
      | none => []
termination_by s

/-- The nearest binding of a name on the chain of a scope, with the scope that binds it. -/
def lookupChain (st : Store) (s : ScopeId) (name : String) : Option (ObjectId × ScopeId) :=
  (st.chain s).findSome? fun t => (st.lookup t name).map fun o => (o, t)

/-- The innermost function whose body encloses a scope. -/
def enclosingFunction (st : Store) (s : ScopeId) : Option NodeId :=
  (st.chain s).findSome? fun t => st.scopes[t]?.bind Scope.function

/-- Inserts an object under its name. A name that is taken stays as it is, and the object it is
    bound to comes back. -/
def insert (st : Store) (s : ScopeId) (o : ObjectId) : Store × Option ObjectId :=
  match st.lookup s (st.nameOf o) with
  | some existing => (st, some existing)
  | none =>
    ({ st with
        scopes := st.scopes.modify s fun scope =>
          { scope with bindings := scope.bindings ++ [(st.nameOf o, o)] },
        objects := st.objects.modify o fun obj => { obj with parent := some s } },
      none)

/-- Defines a global variable in a scope: the new variable, or the object that has the name. -/
def define (st : Store) (s : ScopeId) (position : Position) (name : String) (t : Ty)
    (isConstant : Bool) : Store × Except ObjectId ObjectId :=
  let (st', v) := st.addObject
    { name, type := t, position, kind := .variable { isConstant, isGlobal := true } }
  match st'.insert s v with
  | (_, some existing) => (st, .error existing)
  | (st'', none) => (st'', .ok v)

/-- The names that a scope binds, in ascending order. -/
def names (st : Store) (s : ScopeId) : List String :=
  ((st.scopes[s]?.map fun scope => scope.bindings.map Prod.fst).getD []).mergeSort
    fun a b => !(b < a)

/-- The type that a name denotes from a scope, or from the universe if the scope sees no object of
    that name. -/
def lookupType (st : Store) (s : Option ScopeId) (name : String) : Ty :=
  let found := ((st.lookupChain (s.getD root) name).map Prod.fst).orElse fun _ =>
    st.lookup root name
  match found.bind fun o => st.objects[o]? with
  | some obj => if obj.kind = .typeName then obj.type else .missing
  | none => .missing

/-! ## The initial store -/

/-- Declares a type name in the universe. -/
def predeclare (st : Store) (name : String) (t : Ty) : Store :=
  let (st, o) := st.addObject { name, type := t, kind := .typeName }
  (st.insert root o).1

/-- The store that holds only the universe. -/
def initial : Store :=
  let empty : Store := { scopes := #[{ comment := "universe" }] }
  let scalars := Scalar.all.foldl (fun st k => st.predeclare k.name (.scalar k)) empty
  scalars.predeclare "string" .string

/-- Opens the scope of a package below the universe. -/
def openPackage (st : Store) (name : String) : Store × ScopeId :=
  st.newScope (some root) none ("package " ++ name)

end Store

end TreeLowering
