import TreeLowering.Ir.Verify
import TreeLowering.Lower.Statement

/-!
Whole units. The top-level declarations of a unit run in the init function, which then calls the
entry function.
-/
namespace TreeLowering

namespace Lower

/-- The init function: nothing in and out, or the load entry of a shared library. -/
def initFunction (config : Config) : Ir.Function :=
  if config.isLibrary then
    { name := Abi.initFunction
      result := .int 32
      params := Abi.libraryParams.zip [.int 64, .int 32, Ir.Ty.bytePointer] }
  else { name := Abi.initFunction, result := .void }

/-- The function of the first definition of the entry that has a prototype. -/
def entryFunc (c : Context) : List (FuncHead × Block) → Lower (Option (FuncHead × Ir.FuncId))
  | [] => pure none
  | (h, _) :: rest => do
    if h.name = c.config.entry then
      match (← get).prototypes.lookup h.site.id with
      | some (some id) => pure (some (h, id))
      | _ => entryFunc c rest
    else entryFunc c rest

/-- Calls the entry function, if the unit defines an active one; it takes no arguments. -/
def runEntry (c : Context) (funcs : List (FuncHead × Block)) : Lower Unit := do
  match ← entryFunc c funcs with
  | none => pure ()
  | some (h, id) =>
    let f := (((← get).module.funcs)[id]?).getD default
    if f.params.isEmpty then discard (callAt .cursor (f.value id) [])
    else reject h.site.position (.entryWithParameters c.config.entry)

/-- The top-level code of a unit. -/
def topLevel (c : Context) (decls : List Node) : Lower Unit := do
  let b := emissionOrder c.analysis false decls
  emitLeading c b
  statementsWhere c (takesTurn c.analysis false) decls
  if (← get).body.cursor.isNone then reject Position.none .noFallThrough
  runEntry c b.funcs
  terminate (.ret (if c.config.isLibrary then some (.i32 Abi.librarySuccess) else none))

/-- Lowers a unit into the module of the state. -/
def wholeUnit (c : Context) (decls : List Node) : Lower Unit := do
  let b := emissionOrder c.analysis false decls
  report (.partitioned b.consts.length b.globals.length b.funcs.length b.other.length)
  let init ← addSymbol (initFunction c.config)
  withBody { fn := init } (topLevel c decls)

end Lower

/-- Why no module came out. -/
inductive Failure where
  | fault (f : Fault)
  /-- The finished module breaks rules. -/
  | unverified (found : List (String × Ir.Violation))
  /-- A unit of several failed. -/
  | inUnit (name : String) (f : Failure)
  /-- The work was called off before it started. -/
  | canceled
deriving Repr, Inhabited

/-- A failure as that of a unit among several; a breach stays what it is. -/
def Failure.within (name : String) : Failure → Failure
  | .fault (.breach b) => .fault (.breach b)
  | f => .inUnit name f

/-- The text of a failure; some breaches have none. -/
def Failure.message? : Failure → Option Bytes
  | .fault (.rejected position cause) => some (rejectionMessage position cause)
  | .fault (.breach b) => b.message?.map utf8
  | .unverified found => some (utf8 (Ir.verificationMessage found))
  | .inUnit name f => f.message?.map fun text => utf8 (name ++ ": ") ++ text
  | .canceled => some (utf8 "context canceled")

/-- What came of lowering, with the reports on the way. -/
structure Outcome (α : Type) where
  result : Except Failure α
  trace : List Event

/-- Lowers declarations to a module. -/
def lowerUnit (analysis : Analysis) (config : Config) (decls : List Node) : Outcome Ir.Module :=
  let start : State := { module := { triple := config.triple } }
  match Lower.wholeUnit ⟨analysis, config⟩ decls start with
  | .error f s => ⟨.error (.fault f), s.trace⟩
  | .ok () s =>
    let m := s.module
    let done := s.trace ++ [.loweredModule m.funcs.size m.globals.size m.types.size]
    if config.verify then
      match m.verify with
      | .ok () => ⟨.ok m, done⟩
      | .error found => ⟨.error (.unverified found), s.trace⟩
    else ⟨.ok m, done⟩

/-- One of several units. -/
structure CompilationUnit where
  name : String
  analysis : Analysis
  decls : List Node

/-- Units lowered one after another as a group that keeps the first failure. -/
structure Batch where
  /-- Whether units that have not started are called off. -/
  canceled : Bool
  failure : Option Failure := none
  /-- A place for each unit, filled when its module is there. -/
  modules : Array (Option Ir.Module)
  trace : List Event := []

namespace Batch

/-- A group of as many units, none of which has started. -/
def start (canceled : Bool) (units : Nat) : Batch :=
  { canceled, modules := Array.replicate units none }

/-- A failure calls off the units that have not started; a later one is not kept. -/
def fail (b : Batch) (f : Failure) : Batch :=
  { b with canceled := true, failure := b.failure.or (some f) }

/-- The turn of the unit at an index: it fails at once if it was called off. -/
def lower (config : Config) (b : Batch) (u : CompilationUnit) (index : Nat) : Batch :=
  if b.canceled then b.fail .canceled
  else
    let outcome := lowerUnit u.analysis config u.decls
    let b := { b with trace := b.trace ++ outcome.trace }
    match outcome.result with
    | .error f => b.fail (f.within u.name)
    | .ok m => { b with modules := b.modules.setIfInBounds index (some m) }

/-- The modules in the order of their units, or the failure that was kept. -/
def outcome (b : Batch) : Outcome (List Ir.Module) :=
  match b.failure with
  | some f => ⟨.error f, b.trace⟩
  | none => ⟨.ok (b.modules.toList.filterMap id), b.trace⟩

end Batch

/-- Lowers units in order; the first failure calls off the units after it. -/
def lowerUnits (config : Config) (canceled : Bool) (units : List CompilationUnit) :
    Outcome (List Ir.Module) :=
  let start := Batch.start canceled units.length
  (units.zipIdx.foldl (fun b (u, i) => b.lower config u i) start).outcome

end TreeLowering
