import TreeLowering.Scope.Facts

/-!
The emission order of declarations: constants, globals, functions for their prototypes, and
everything else, function bodies included. Source order is kept within each group.
-/
namespace TreeLowering

/-- Where a declaration belongs. -/
inductive DeclClass where
  /-- A definition of a constant variable. -/
  | const (d : VarDecl)
  /-- A definition of a global variable. -/
  | global (d : VarDecl)
  /-- A function; its body, unless it is external, counts as one of the others. -/
  | func (head : FuncHead) (body : Block)
  /-- Anything else. -/
  | other (n : Node)

/-- Where a variable definition belongs. In a namespace every variable that is not constant is
    global; a variable that cannot be resolved is left to its turn. -/
def classifyVariable (a : Analysis) (inSpace : Bool) (d : VarDecl) : DeclClass :=
  match (a.resolve d.name (some d.site)).bind fun v => a.store.objects[v]?.bind Object.flags? with
  | none => .other (.varDecl d)
  | some flags =>
    if flags.isConstant then .const d
    else if flags.isGlobal || inSpace then .global d
    else .other (.varDecl d)

/-- Where a declaration belongs; labels are removed. -/
def classify (a : Analysis) (inSpace : Bool) (n : Node) : DeclClass :=
  match n.unwrap with
  | .varDecl d => classifyVariable a inSpace d
  | .funcDecl h b => .func h b
  | m => .other m

/-- Whether a declaration has its turn among the others. -/
def takesTurn (a : Analysis) (inSpace : Bool) (n : Node) : Bool :=
  match classify a inSpace n with
  | .const _ | .global _ => false
  | .func h _ => !h.isExternal
  | .other _ => true

/-- Declarations by emission order. -/
structure EmissionOrder where
  consts : List VarDecl := []
  globals : List VarDecl := []
  funcs : List (FuncHead × Block) := []
  other : List Node := []
deriving Inhabited

namespace EmissionOrder

/-- The number of entries; a function with its body counts twice. -/
def size (b : EmissionOrder) : Nat :=
  b.consts.length + b.globals.length + b.funcs.length + b.other.length

/-- Puts a declaration in front. -/
def push (c : DeclClass) (b : EmissionOrder) : EmissionOrder :=
  match c with
  | .const d => { b with consts := d :: b.consts }
  | .global d => { b with globals := d :: b.globals }
  | .func h body =>
    { b with
      funcs := (h, body) :: b.funcs
      other := if h.isExternal then b.other else .funcDecl h body :: b.other }
  | .other n => { b with other := n :: b.other }

end EmissionOrder

/-- Sorts declarations into their groups. -/
def emissionOrder (a : Analysis) (inSpace : Bool) (decls : List Node) : EmissionOrder :=
  decls.foldr (fun n b => b.push (classify a inSpace n)) {}

end TreeLowering
