import TreeLowering.Scope.Types
import TreeLowering.Tree.Node

/-!
What an analysis recorded about a tree, and the questions that lowering asks: the type of a node,
the variable that a name denotes, the attributes of a declaration. Where nothing is recorded, type
references resolve by name, literals have their default type and variables the type of what they
denote.
-/
namespace TreeLowering

/-- A type reference that names no type. -/
structure UndefinedType where
  position : Position
  name : String
deriving DecidableEq, Repr

/-- The text of a type error. -/
def UndefinedType.message (e : UndefinedType) : String :=
  e.position.render ++ ": undefined type " ++ e.name

/-- Resolves a type reference from a scope: the name, then the array, then the pointer levels. -/
def Store.resolveTypeRef (st : Store) (t : TypeRef) (s : Option ScopeId) :
    Except UndefinedType Ty :=
  let base := st.lookupType s t.name
  if base.isMissing then .error ⟨t.site.position, t.name⟩
  else
    let whole := if t.isArray then .array base else base
    .ok (Nat.repeat .pointer t.depth.toNat whole)

/-- Recorded facts, newest first. A key without an identity is the empty slot. -/
structure Facts where
  types : List (Option NodeId × Ty) := []
  definitions : List (Option NodeId × ObjectId) := []
  attributes : List (Option NodeId × String) := []
  /-- The scope of nodes that have none of their own; the universe if there is none. -/
  scope : Option ScopeId := none
deriving Repr, Inhabited

namespace Facts

/-- Records the type of a node. -/
def recordType (f : Facts) (key : Option NodeId) (t : Ty) : Facts :=
  { f with types := (key, t) :: f.types }

/-- Records the variable that a declaration defines. -/
def recordDefinition (f : Facts) (key : Option NodeId) (v : ObjectId) : Facts :=
  { f with definitions := (key, v) :: f.definitions }

/-- Attaches an attribute to a node. -/
def recordAttribute (f : Facts) (key : Option NodeId) (name : String) : Facts :=
  { f with attributes := (key, name) :: f.attributes }

end Facts

/-- A store with the facts recorded against it. -/
structure Analysis where
  store : Store
  facts : Facts
deriving Inhabited

namespace Analysis

/-- The scope in which names at a site are looked up. -/
def scopeAt (a : Analysis) (site : Option Site) : ScopeId :=
  ((site.bind Site.scope).orElse fun _ => a.facts.scope).getD Store.root

/-- The variable that a name denotes at a site: the one recorded for the site if it has the name,
    else the one that the scope sees. -/
def resolve (a : Analysis) (name : String) (site : Option Site) : Option ObjectId :=
  let recorded := (a.facts.definitions.lookup (site.map Site.id)).filter
    fun v => a.store.nameOf v = name
  recorded.orElse fun _ =>
    ((a.store.lookupChain (a.scopeAt site) name).map Prod.fst).filter
      fun v => (a.store.objects[v]?.bind Object.flags?).isSome

/-- The type of the variable that a name denotes at a site. -/
def variableType (a : Analysis) (name : String) (site : Site) : Ty :=
  (((a.resolve name (some site)).bind fun v => a.store.objects[v]?).map Object.type).getD .missing

/-- The type recorded at a site. -/
def recordedType? (a : Analysis) (site : Option Site) : Option Ty :=
  a.facts.types.lookup (site.map Site.id)

/-- The type of a type reference. -/
def typeOfRef (a : Analysis) (t : TypeRef) : Ty :=
  (a.recordedType? (some t.site)).getD
    ((a.store.resolveTypeRef t (some (a.scopeAt (some t.site)))).toOption.getD .missing)

/-- The type of an expression for which none is recorded. -/
def defaultType (a : Analysis) : Expr → Ty
  | .intLit _ _ => .scalar .i32
  | .floatLit _ _ => .scalar .f32
  | .boolLit _ _ => .scalar .bool
  | .stringLit _ _ => .string
  | .varRef site name _ => a.variableType name site
  | _ => .missing

/-- The type of an expression. -/
def typeOfExpr (a : Analysis) (e : Expr) : Ty :=
  (a.recordedType? e.site?).getD (a.defaultType e)

/-- The type of a function definition. -/
def typeOfFunc (a : Analysis) (h : FuncHead) : Ty :=
  (a.recordedType? (some h.site)).getD (a.variableType h.name h.site)

/-- The type of a node; labels are looked through. -/
def typeOf (a : Analysis) (n : Node) : Ty :=
  match n.unwrap with
  | .expr e => a.typeOfExpr e
  | .typeRef (some t) => a.typeOfRef t
  | .funcDecl h _ => a.typeOfFunc h
  | .varDecl d => (a.recordedType? (some d.site)).getD (a.variableType d.name d.site)
  | m => (a.recordedType? m.site?).getD .missing

/-- Whether a site carries a recorded attribute, or `written` names it. -/
def hasAttribute (a : Analysis) (site : Option Site) (written : List String) (name : String) :
    Bool :=
  a.facts.attributes.contains (site.map Site.id, name) || written.contains name

/-- Whether a node carries an attribute, in source or recorded; labels are looked through. -/
def nodeHasAttribute (a : Analysis) (n : Node) (name : String) : Bool :=
  match n.unwrap with
  | .funcDecl h _ => a.hasAttribute (some h.site) h.attributes name
  | m => a.hasAttribute m.site? [] name

end Analysis

end TreeLowering
