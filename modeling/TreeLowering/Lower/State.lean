import TreeLowering.Ir.Module
import TreeLowering.Lower.Config
import TreeLowering.Lower.Fault
import TreeLowering.Scope.Facts
import TreeLowering.Tree.Describe

/-!
The state of lowering.

A function under construction (`Body`) is a value of its own: its stack slots and their setup, its
blocks in order, the targets of its loops, and the block where the next instruction goes. Lowering a
nested function works on another body and leaves this one as it is. `Lower` keeps the state when it
fails, because what was reported before a failure is part of the outcome.
-/
namespace TreeLowering

/-- The targets of a loop. -/
structure Loop where
  /-- Where `break` leads. -/
  exit : Ir.Label
  /-- Where `continue` leads. -/
  next : Ir.Label
deriving DecidableEq, Repr

/-- The label of the block with the stack slots. -/
def varsLabel : Ir.Label := ⟨0, Abi.varsBlock⟩

/-- The label of the first block of control flow. -/
def entryLabel : Ir.Label := ⟨1, Abi.entryBlock⟩

/-- A function under construction. -/
structure Body where
  fn : Ir.FuncId
  /-- The definition being lowered; none for the init function. -/
  head : Option FuncHead := none
  /-- The result type, if one is known. -/
  result : Ty := .missing
  /-- The instructions of the block with the stack slots. -/
  vars : List Ir.Line := []
  /-- All other blocks, `entry` first. -/
  blocks : List Ir.Block := [{ label := entryLabel }]
  /-- The enclosing loops, innermost first. -/
  loops : List Loop := []
  /-- How many blocks were made after `entry`. -/
  blockCount : Nat := 0
  /-- How many instructions were made. -/
  lineCount : Nat := 0
  /-- Where the next instruction goes; nowhere after a terminator. -/
  cursor : Option Ir.Label := some entryLabel
deriving Inhabited

/-- Where an instruction goes. -/
inductive Place where
  /-- The block with the stack slots. -/
  | vars
  /-- The block of the cursor. -/
  | cursor
deriving DecidableEq, Repr

namespace Body

/-- Changes the block with a label. -/
def updateBlock (b : Body) (l : Ir.Label) (f : Ir.Block → Ir.Block) : Body :=
  { b with blocks := b.blocks.map fun block => if block.label.id = l.id then f block else block }

/-- Appends an instruction to the block with the stack slots. -/
def addVarsLine (b : Body) (inst : Ir.Inst) (type : Ir.Ty) : Body :=
  { b with vars := b.vars ++ [⟨b.lineCount, inst, type⟩], lineCount := b.lineCount + 1 }

/-- Appends an instruction to the block with a label. -/
def addLine (b : Body) (l : Ir.Label) (inst : Ir.Inst) (type : Ir.Ty) : Body :=
  { b.updateBlock l fun block =>
      { block with lines := block.lines ++ [⟨b.lineCount, inst, type⟩] } with
    lineCount := b.lineCount + 1 }

/-- Ends the block with a label. -/
def setTerm (b : Body) (l : Ir.Label) (t : Ir.Term) : Body :=
  b.updateBlock l fun block => { block with term := some t }

/-- The label of the block that is made next. -/
def nextLabel (b : Body) (name : String) : Ir.Label :=
  ⟨b.blockCount + 2, name ++ "." ++ toString (b.blockCount + 1)⟩

/-- Appends a new block. -/
def addBlock (b : Body) (name : String) : Body :=
  { b with
    blocks := b.blocks ++ [{ label := b.nextLabel name }]
    blockCount := b.blockCount + 1 }

/-- Removes the block with a label. -/
def dropBlock (b : Body) (l : Ir.Label) : Body :=
  { b with blocks := b.blocks.filter fun block => block.label.id ≠ l.id }

/-- Moves the block with a label to the end. -/
def moveToEnd (b : Body) (l : Ir.Label) : Body :=
  { b with
    blocks := (b.blocks.filter fun block => block.label.id ≠ l.id) ++
      b.blocks.filter fun block => block.label.id = l.id }

/-- Whether the block of the cursor has no terminator yet. -/
def cursorIsOpen (b : Body) : Bool :=
  match b.cursor with
  | some l => b.blocks.any fun block => block.label.id = l.id && block.term.isNone
  | none => false

/-- The finished blocks: the stack slots come first and lead to `entry`. -/
def closed (b : Body) : List Ir.Block :=
  { label := varsLabel, lines := b.vars, term := some (.br entryLabel) } :: b.blocks

end Body

/-- The state of lowering one unit. -/
structure State where
  module : Ir.Module := {}
  /-- What variables are bound to: the place where they are stored, or a function. -/
  values : List (ObjectId × Ir.Value) := []
  /-- The definitions seen, with their functions; one without a prototype has none. -/
  prototypes : List (NodeId × Option Ir.FuncId) := []
  /-- The definitions whose bodies were lowered. -/
  lowered : List NodeId := []
  /-- The functions by symbol. -/
  symbols : List (String × Ir.FuncId) := []
  /-- The string data by content. -/
  strings : List (Bytes × Ir.GlobalId) := []
  /-- The named types already mapped. -/
  mapped : List (NamedId × Ir.Ty) := []
  /-- How often each global name was asked for. -/
  names : List (String × Nat) := []
  /-- How often each type name was asked for. -/
  typeNames : List (String × Nat) := []
  /-- The copy intrinsic, once declared. -/
  memcpy : Option Ir.FuncId := none
  /-- The function under construction. -/
  body : Body := { fn := 0 }
  /-- What was reported, in order. -/
  trace : List Event := []
deriving Inhabited

/-- What lowering reads and never changes. -/
structure Context where
  analysis : Analysis
  config : Config
deriving Inhabited

/-- A step of lowering. -/
abbrev Lower (α : Type) := EStateM Fault State α

namespace Lower

/-! ## Failing -/

/-- Rejects the program. -/
def reject {α : Type} (position : Position) (cause : Cause) : Lower α :=
  throw (.rejected position cause)

/-- Stops at a breach. -/
def breach {α : Type} (b : Breach) : Lower α := throw (.breach b)

/-- Goes on with a result or stops at its breach. -/
def orBreach {α : Type} : Except Breach α → Lower α
  | .ok a => pure a
  | .error b => breach b

/-- The site of an expression; an empty slot has none. -/
def siteOf (e : Expr) : Lower Site :=
  match e.site? with
  | some s => pure s
  | none => breach .missingPart

/-- Reports an event. -/
def report (e : Event) : Lower Unit := modify fun s => { s with trace := s.trace ++ [e] }

/-! ## Emitting -/

/-- Changes the function under construction. -/
def modifyBody (f : Body → Body) : Lower Unit := modify fun s => { s with body := f s.body }

/-- The block where the next instruction goes. -/
def cursor : Lower Ir.Label := do
  match (← get).body.cursor with
  | some l => pure l
  | none => breach .missingPart

/-- Appends an instruction at a place and gives its result. -/
def emitAt (place : Place) (inst : Ir.Inst) (type : Ir.Ty) : Lower Ir.Value := do
  let b := (← get).body
  match place with
  | .vars => modifyBody fun b => b.addVarsLine inst type
  | .cursor =>
    let l ← cursor
    modifyBody fun b => b.addLine l inst type
  pure (.computed b.fn b.lineCount type)

/-- Appends an instruction at the cursor and gives its result. -/
def emit (inst : Ir.Inst) (type : Ir.Ty) : Lower Ir.Value := emitAt .cursor inst type

/-- Makes a stack slot. -/
def stackSlot (type : Ir.Ty) (count : Option Ir.Value) : Lower Ir.Value :=
  emitAt .vars (.alloca type count) (.pointer type)

/-- Loads from a place. -/
def load (type : Ir.Ty) (place : Ir.Value) : Lower Ir.Value := emit (.load type place) type

/-- Stores a value, which must have the type of the place. -/
def storeAt (spot : Place) (value place : Ir.Value) : Lower Unit := do
  let defs := (← get).module.types
  let fits := place.type.pointee?.any fun t => Ir.sameType defs value.type t
  if fits then discard (emitAt spot (.store value place) .void)
  else
    breach (.storeMismatch (Ir.typeText defs value.type) (Ir.typeText defs place.type))

/-- Stores a value at the cursor. -/
def store (value place : Ir.Value) : Lower Unit := storeAt .cursor value place

/-- How a type is called where it does not fit. -/
def kindOfType : Ir.Ty → String
  | .int _ => "*types.IntType"
  | .float _ => "*types.FloatType"
  | .void => "*types.VoidType"
  | .pointer _ => "*types.PointerType"
  | .array _ _ => "*types.ArrayType"
  | .struct _ | .defined _ _ => "*types.StructType"
  | .func _ _ => "*types.FuncType"

/-- How a constant is called that cannot be an index; integers and computed values can. -/
def badIndex? : Ir.Value → Option String
  | .float _ _ => some "*constant.Float"
  | .null _ => some "*constant.Null"
  | .zero _ => some "*constant.ZeroInitializer"
  | .chars _ => some "*constant.CharArray"
  | .firstChar _ _ => some "*constant.ExprGetElementPtr"
  | .global _ _ => some "*ir.Global"
  | .func _ _ _ => some "*ir.Func"
  | .int _ _ | .param _ _ _ | .computed _ _ _ => none

/-- The address reached from `base` by steps of `type`; `target` is the type found there. -/
def addressAt (spot : Place) (type : Ir.Ty) (base : Ir.Value) (indices : List Ir.Value)
    (target : Ir.Ty) : Lower Ir.Value := do
  match indices.findSome? badIndex? with
  | some kind => breach (.stepIndex kind)
  | none =>
    match base.type with
    | .pointer _ => emitAt spot (.address type base indices) (.pointer target)
    | t => breach (.stepSource (kindOfType t))

/-- The address of the element `index` steps after `base`. -/
def elementAddress (type : Ir.Ty) (base index : Ir.Value) : Lower Ir.Value :=
  addressAt .cursor type base [index] type

/-- The address of a field of the struct at `base`. -/
def fieldAddressAt (spot : Place) (type : Ir.Ty) (base : Ir.Value) (index : Nat) :
    Lower Ir.Value := do
  match ((type.fields? (← get).module.types).bind fun fields => fields[index]?) with
  | some target => addressAt spot type base [.i32 0, .i32 index] target
  | none => breach .missingPart

/-- The address of a field of the struct at `base`, computed at the cursor. -/
def fieldAddress (type : Ir.Ty) (base : Ir.Value) (index : Nat) : Lower Ir.Value :=
  fieldAddressAt .cursor type base index

/-- The data pointer of an array value. -/
def extractData (value : Ir.Value) : Lower Ir.Value := do
  match value.type with
  | .pointer t => emit (.extractData value) t
  | t =>
    match t.fields? (← get).module.types with
    | some (_ :: data :: _) => emit (.extractData value) data
    | some _ => breach .missingPart
    | none => breach (.aggregate (kindOfType t))

/-- Calls a function; its result type is that of its signature. -/
def callAt (spot : Place) (callee : Ir.Value) (args : List Ir.Value) : Lower Ir.Value :=
  emitAt spot (.call callee args) ((callee.type.signature?.map Prod.fst).getD .void)

/-! ## Blocks -/

/-- Makes a new block. -/
def openBlock (name : String) : Lower Ir.Label := do
  let l := (← get).body.nextLabel name
  modifyBody fun b => b.addBlock name
  pure l

/-- Ends the block of the cursor; the cursor stays. -/
def terminate (t : Ir.Term) : Lower Unit := do
  let l ← cursor
  modifyBody fun b => b.setTerm l t

/-- Moves the cursor. -/
def moveTo (l : Ir.Label) : Lower Unit := modifyBody fun b => { b with cursor := some l }

/-- Leaves no place for further instructions. -/
def moveNowhere : Lower Unit := modifyBody fun b => { b with cursor := none }

/-- Branches from the cursor if there is one, and says whether there was. -/
def branchIfLive (target : Ir.Label) : Lower Bool := do
  if (← get).body.cursor.isSome then
    terminate (.br target)
    pure true
  else pure false

/-- Runs a step only if there is a place for instructions. -/
def whenLive (step : Lower Unit) : Lower Unit := do
  if (← get).body.cursor.isSome then step else pure ()

/-! ## Names and globals -/

/-- A name that was not asked for before: the name itself, or with a number how often it was. -/
def uniqueName (used : List (String × Nat)) (name : String) : String × List (String × Nat) :=
  let n := (used.lookup name).getD 0
  (if n = 0 then name else name ++ "." ++ toString n, (name, n + 1) :: used)

/-- Adds a global under a fresh name with a zero of its type. -/
def addGlobal (name : String) (content : Ir.Ty) : Lower Ir.GlobalId := do
  let s ← get
  let (unique, names) := uniqueName s.names name
  set { s with
    names := names
    module := { s.module with
      globals := s.module.globals.push { name := unique, content, init := .zero content } } }
  pure s.module.globals.size

/-- Changes a global. -/
def modifyGlobal (id : Ir.GlobalId) (f : Ir.Global → Ir.Global) : Lower Unit :=
  modify fun s => { s with module := { s.module with globals := s.module.globals.modify id f } }

/-- Adds a function. -/
def addFunction (f : Ir.Function) : Lower Ir.FuncId := do
  let s ← get
  set { s with module := { s.module with funcs := s.module.funcs.push f } }
  pure s.module.funcs.size

/-- Changes a function. -/
def modifyFunc (id : Ir.FuncId) (f : Ir.Function → Ir.Function) : Lower Unit :=
  modify fun s => { s with module := { s.module with funcs := s.module.funcs.modify id f } }

/-- Adds a function under its own name, which is then taken. -/
def addSymbol (f : Ir.Function) : Lower Ir.FuncId := do
  let id ← addFunction f
  modify fun s => { s with
    symbols := (f.name, id) :: s.symbols
    names := (f.name, (s.names.lookup f.name).getD 0 + 1) :: s.names }
  pure id

/-- Binds a variable to its storage or its function. -/
def bindVariable (v : ObjectId) (value : Ir.Value) : Lower Unit :=
  modify fun s => { s with values := (v, value) :: s.values }

/-! ## Asking the analysis -/

/-- The variable that a name denotes at a site. -/
def variableAt (c : Context) (name : String) (site : Site) : Lower ObjectId :=
  match c.analysis.resolve name (some site) with
  | some v => pure v
  | none => reject site.position (.undefinedName name)

/-- The type of a variable, missing if it has none. -/
def variableType (c : Context) (v : ObjectId) : Ty :=
  ((c.analysis.store.objects[v]?).map Object.type).getD .missing

/-- The flags of a variable. -/
def variableFlags (c : Context) (v : ObjectId) : VariableFlags :=
  ((c.analysis.store.objects[v]?).bind Object.flags?).getD {}

/-- What a variable is bound to. -/
def boundTo (c : Context) (v : ObjectId) (site : Site) : Lower Ir.Value := do
  match (← get).values.lookup v with
  | some value => pure value
  | none => reject site.position (.usedBeforeDefinition (c.analysis.store.nameOf v))

/-- A type, which must be known, of a node of some kind. -/
def knownType (t : Ty) (position : Position) (kind : String) : Lower Ty :=
  if t.isMissing then reject position (.unknownType kind) else pure t

/-- The type of an expression, which must be known. -/
def typeOfExpr (c : Context) (e : Expr) : Lower Ty :=
  match c.analysis.typeOfExpr e with
  | .missing => do
    let s ← siteOf e
    reject s.position (.unknownType e.kind)
  | t => pure t

/-- The type of a type reference, which must be there and known. -/
def typeOfRef (c : Context) (t : Option TypeRef) : Lower Ty :=
  match t with
  | some r => knownType (c.analysis.typeOfRef r) r.site.position "TypeRef"
  | none => breach .missingPart

/-- Whether an expression has an unsigned type. -/
def isUnsignedAt (c : Context) (e : Expr) : Bool :=
  c.analysis.store.isUnsigned (c.analysis.typeOfExpr e)

/-- Whether a site lies inside a function. -/
def isLocal (c : Context) (site : Site) : Lower Bool := do
  match site.scope with
  | some s => pure (c.analysis.store.enclosingFunction s).isSome
  | none => pure (← get).body.head.isSome

/-- The rendering of an expression for a message. -/
def described (e : Expr) : Lower Bytes := orBreach e.describe

end Lower

end TreeLowering
