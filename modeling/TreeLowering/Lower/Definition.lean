import TreeLowering.Lower.Expression

/-!
Variable definitions and functions: prototypes, and the frame around a body.
-/
namespace TreeLowering.Lower

/-! ## Variables -/

/-- Defines a global. A constant initializer becomes its initial value; any other is stored from the
    cursor. -/
def defineGlobal (c : Context) (d : VarDecl) (v : ObjectId) (type : Ir.Ty) : Lower Unit := do
  let g ← addGlobal d.name type
  if d.value.isAbsent then pure ()
  else
    let init ← valueAs c d.value (variableType c v)
    if init.isConstant then
      modifyGlobal g fun g => { g with init, isImmutable := (variableFlags c v).isConstant }
    else store init (.global g type)
  bindVariable v (.global g type)

/-- Defines a local variable in a slot of its own. -/
def defineLocal (c : Context) (d : VarDecl) (v : ObjectId) (type : Ir.Ty) : Lower Unit := do
  let init ←
    if d.value.isAbsent then pure (.zero type) else valueAs c d.value (variableType c v)
  let slot ← stackSlot type none
  store init slot
  bindVariable v slot

/-- Lowers a variable definition. A variable outside functions is a global. -/
def defineVariable (c : Context) (d : VarDecl) : Lower Unit := do
  let v ← variableAt c d.name d.site
  if (variableType c v).isMissing then reject d.site.position (.untypedVariable d.name)
  else
    let type ← instructionType c (variableType c v)
    if (variableFlags c v).isGlobal then defineGlobal c d v type
    else if ← isLocal c d.site then defineLocal c d v type
    else defineGlobal c d v type

/-! ## Prototypes -/

/-- The signature of a function in the source. -/
structure Signature where
  params : List (String × Ty)
  result : Ty
  inactive : Bool

/-- The signature of a function definition, whose type must be a function. -/
def signatureOf (c : Context) (h : FuncHead) : Lower Signature := do
  match ← knownType (c.analysis.typeOfFunc h) h.site.position "FuncDecl" with
  | .func params result inactive => pure ⟨params, result, inactive⟩
  | _ => reject h.site.position (.notFunction h.name)

/-- Notes the function of a definition, or that it has none. -/
def notePrototype (h : FuncHead) (f : Option Ir.FuncId) : Lower Unit :=
  modify fun s => { s with prototypes := (h.site.id, f) :: s.prototypes }

/-- The function for a symbol with these types: a new one if the symbol is not taken, else the one
    that has it, which must have the same types and no second body. -/
def declareSymbol (h : FuncHead) (hasBody : Bool) (result : Ir.Ty) (params : List Ir.Ty) :
    Lower Ir.FuncId := do
  let s ← get
  let f : Ir.Function := { name := h.symbol, result, params := (h.params.map Prod.fst).zip params }
  match s.symbols.lookup h.symbol with
  | none =>
    if 0 < (s.names.lookup h.symbol).getD 0 then
      reject h.site.position (.redeclared h.symbol)
    else addSymbol f
  | some id =>
    let fits := s.module.funcs[id]?.any fun f =>
      Ir.sameType s.module.types (.func f.result (f.params.map Prod.snd)) (.func result params)
    if hasBody || !fits then reject h.site.position (.redeclared h.symbol)
    else pure id

/-- Declares a function with its signature, and binds its variable. -/
def declarePrototype (c : Context) (h : FuncHead) (body : Block) (v : ObjectId) (sig : Signature) :
    Lower Unit := do
  if h.params.length ≠ sig.params.length then
    reject h.site.position (.parameterCount h.name h.params.length sig.params.length)
  let (result, params) ← instructionSignature c sig.params sig.result
  let id ← declareSymbol h (h.hasBody body) result params
  notePrototype h (some id)
  let f := (← get).module.funcs[id]?
  bindVariable v ((f.getD default).value id)
  report (.prototype h.name h.symbol h.params.length)

/-- Declares a function. An inactive one and a mere signature get no prototype. -/
def enterPrototype (c : Context) (h : FuncHead) (body : Block) : Lower Unit := do
  let sig ← signatureOf c h
  if sig.inactive || h.isTypeDecl then
    notePrototype h none
    report (.withoutPrototype h.name sig.inactive)
  else
    let v ← variableAt c h.name h.site
    if sig.result.isMissing then
      if c.config.strictReturnTypes then reject h.site.position (.noReturnType h.name)
      else report (.noReturnType h.site.position h.name)
    declarePrototype c h body v sig

/-! ## Bodies -/

/-- Stores the parameters of a function in slots, like other variables; their names are looked up
    at a site. -/
def storeParams (c : Context) (fn : Ir.FuncId) (site : Site) :
    Nat → List (String × Ir.Ty) → Lower Unit
  | _, [] => pure ()
  | i, (name, type) :: rest => do
    let v ← variableAt c name site
    let slot ← stackSlot type none
    storeAt .vars (.param fn i type) slot
    bindVariable v slot
    storeParams c fn site (i + 1) rest

/-- Ends a body that runs to its end: it returns if it returns nothing, else the end is never
    reached. -/
def closeBody (c : Context) : Lower Unit := do
  let b := (← get).body
  if b.cursorIsOpen then
    if b.result.isMissing || c.analysis.store.isVoid b.result then terminate (.ret none)
    else terminate .unreachable
  else pure ()

/-- Makes a body the one under construction, and installs its blocks when `step` has filled it. The
    body under construction before comes back as it was. -/
def withBody (body : Body) (step : Lower Unit) : Lower Unit := do
  let outer := (← get).body
  modifyBody fun _ => body
  step
  let inner := (← get).body
  modifyFunc inner.fn fun f => { f with blocks := inner.closed }
  modifyBody fun _ => outer

/-- Lowers the body of a function into its prototype; `step` lowers the statements. -/
def fillBody (c : Context) (h : FuncHead) (body : Block) (step : Lower Unit) : Lower Unit := do
  if !h.hasBody body || h.isTypeDecl then pure ()
  else
    let sig ← signatureOf c h
    if sig.inactive then pure ()
    else
      match (← get).prototypes.lookup h.site.id, body.site? with
      | some (some id), some site =>
        if (← get).lowered.contains h.site.id then breach (.bodyTwice h.name)
        modify fun s => { s with lowered := h.site.id :: s.lowered }
        if c.analysis.hasAttribute (some h.site) h.attributes Abi.exportAttribute then
          modifyFunc id fun f => { f with isExported := true }
        let types := (((← get).module.funcs[id]?).map fun f => f.params.map Prod.snd).getD []
        withBody { fn := id, head := some h, result := sig.result } do
          storeParams c id site 0 ((h.params.map Prod.fst).zip types)
          step
          closeBody c
        let blocks := (((← get).module.funcs[id]?).map fun f => f.blocks.length).getD 0
        report (.loweredBody h.name blocks)
      | _, _ => reject h.site.position (.noPrototype h.name)

end TreeLowering.Lower
