import TreeLowering.Lower.Literal
import TreeLowering.Lower.Operator

/-!
Expressions.

An expression is lowered for its value (`valueOf`) or for the address of the storage it denotes
(`placeOf`). Both recurse on the expression alone. The forms that both share take the steps that
lower their operands as arguments.
-/
namespace TreeLowering.Lower

/-! ## Variables -/

/-- The step of a variable reference: up or down, and whether it comes before the value is read. -/
structure StepKind where
  up : Bool
  before : Bool
deriving DecidableEq, Repr

/-- What a step does; nothing without one. -/
def stepKind? : Step → Option StepKind
  | .none => none
  | .preInc => some ⟨true, true⟩
  | .preDec => some ⟨false, true⟩
  | .postInc => some ⟨true, false⟩
  | .postDec => some ⟨false, false⟩

/-- The value of a variable; a step also stores the new one. -/
def readVariable (c : Context) (site : Site) (name : String) (step : Coded Step) :
    Lower Ir.Value := do
  let v ← variableAt c name site
  let place ← boundTo c v site
  if place.isFunc then
    if step = .known .none then pure place
    else reject site.position (.incrementFunction name)
  else
    let t ← instructionType c (variableType c v)
    let old ← load t place
    match step with
    | .unknown code => breach (.loweredTag code name)
    | .known s =>
      match stepKind? s with
      | none => pure old
      | some kind =>
        let new ← stepBy (.varRef site name step) site old kind.up
        store new place
        pure (if kind.before then new else old)

/-- The place of a variable that is no function, and the type stored there. -/
def variablePlace (c : Context) (site : Site) (name : String) : Lower (Ir.Value × Ir.Ty) := do
  let v ← variableAt c name site
  let place ← boundTo c v site
  if place.isFunc then reject site.position (.assignToFunction name)
  else
    let t ← instructionType c (variableType c v)
    pure (place, t)

/-- Whether `placeOf` takes the expression. -/
def hasPlace (c : Context) (e : Expr) : Lower Bool := do
  match e with
  | .varRef site name (.known .none) =>
    match c.analysis.resolve name (some site) with
    | none => pure true
    | some v => pure !((← get).values.lookup v).any Ir.Value.isFunc
  | .selector _ _ _ _ | .index _ _ _ | .unary _ (.known .deref) _ => pure true
  | _ => pure false

/-- The address of an expression; the value of one without storage goes into a fresh slot. -/
def addressOrSlot (c : Context) (e : Expr) (value : Lower Ir.Value)
    (place : Lower (Ir.Value × Ir.Ty)) : Lower Ir.Value := do
  if ← hasPlace c e then
    let (p, _) ← place
    pure p
  else
    let v ← value
    let slot ← stackSlot v.type none
    store v slot
    pure slot

/-! ## Calls -/

/-- The parameter types of a callee, each with whether it is unsigned; it must take as many
    arguments as are given. -/
def calleeParams (c : Context) (site : Site) (name : String) (given : Nat) (v : ObjectId)
    (callee : Ir.Value) : Lower (Ir.Value × List (Ir.Ty × Bool)) :=
  match callee.type.signature? with
  | none => reject site.position (.notFunction name)
  | some (_, params) =>
    if given ≠ params.length then
      reject site.position (.argumentCount name params.length given)
    else
      let unsigned : List Bool := match variableType c v with
        | .func ps _ _ => ps.map fun p => c.analysis.store.isUnsigned p.2
        | _ => []
      pure (callee, params.zipIdx.map fun (t, i) => (t, unsigned.getD i false))

/-- The callee of a call with its parameters. -/
def callTarget (c : Context) (site : Site) (name : String) (given : Nat) :
    Lower (Ir.Value × List (Ir.Ty × Bool)) := do
  let v ← variableAt c name site
  let place ← boundTo c v site
  let callee ←
    if place.isFunc then pure place
    else
      let t ← instructionType c (variableType c v)
      load t place
  calleeParams c site name given v callee

/-! ## Places -/

/-- The address and type of a field at a place of some type: a field of a struct, or the length or
    the data pointer of an array. -/
def fieldPlace (c : Context) (site : Site) (field : String) (base : Ir.Value) (t : Ty) :
    Lower (Ir.Value × Ir.Ty) := do
  let store := c.analysis.store
  let type ← instructionType c t
  match store.underlying t with
  | .struct fields =>
    match Ty.fieldIndex? fields field with
    | none => reject site.position (.noField (store.shown t) field)
    | some i =>
      let p ← fieldAddress type base i
      let ft ← instructionType c ((fields[i]?.map Prod.snd).getD .missing)
      pure (p, ft)
  | u =>
    match u.elem? with
    | some elem =>
      if field = Abi.arrayLengthName then
        let p ← fieldAddress type base Abi.arrayLengthField
        pure (p, .int 32)
      else if field = Abi.arrayDataName then
        let p ← fieldAddress type base Abi.arrayDataField
        let et ← instructionType c elem
        pure (p, .pointer et)
      else reject site.position (.noField (store.shown t) field)
    | none => reject site.position (.noField (store.shown t) field)

/-- The address and type of `x.field` or `x->field`. -/
def selectorPlace (c : Context) (site : Site) (x : Expr) (field : String) (arrow : Bool)
    (value : Lower Ir.Value) (place : Lower (Ir.Value × Ir.Ty)) : Lower (Ir.Value × Ir.Ty) := do
  if arrow then
    let pt ← typeOfExpr c x
    match c.analysis.store.underlying pt with
    | .pointer t =>
      let base ← value
      fieldPlace c site field base t
    | _ => reject site.position (.arrowOnNonPointer (← described x))
  else
    let base ← addressOrSlot c x value place
    let t ← typeOfExpr c x
    fieldPlace c site field base t

/-- The address and type of `x[index]` for an array or a pointer. -/
def indexPlace (c : Context) (site : Site) (x : Expr) (value index : Lower Ir.Value) :
    Lower (Ir.Value × Ir.Ty) := do
  let t ← typeOfExpr c x
  let (data, et) ← match c.analysis.store.underlying t with
    | .pointer base =>
      let data ← value
      pure (data, base)
    | u =>
      match u.elem? with
      | some elem =>
        let array ← value
        let data ← extractData array
        pure (data, elem)
      | none => reject site.position (.notIndexable (← described x))
  let elem ← instructionType c et
  let i ← index
  let p ← elementAddress elem data i
  pure (p, elem)

/-! ## Operators -/

/-- The operators `&&` and `||`: the right operand is evaluated only if the left one does not
    decide. -/
def shortCircuit (isAnd : Bool) (x y : Expr) (left right : Lower Ir.Value) : Lower Ir.Value := do
  let name := if isAnd then "and" else "or"
  let xv ← left
  let xt ← truth x xv
  let start ← cursor
  let rhs ← openBlock (name ++ ".rhs")
  let done ← openBlock (name ++ ".done")
  terminate (if isAnd then .condBr xt rhs done else .condBr xt done rhs)
  moveTo rhs
  let yv ← right
  let yt ← truth y yv
  let finish ← cursor
  terminate (.br done)
  moveTo done
  let decided := if isAnd then Ir.Value.bitFalse else Ir.Value.bitTrue
  emit (.phi [(decided, start), (yt, finish)]) (.int 1)

/-- An operator with two operands. -/
def binaryValue (c : Context) (site : Site) (op : Coded BinaryOp) (x y : Expr)
    (left right : Lower Ir.Value) : Lower Ir.Value := do
  if BinaryOp.codedIsLogical op then shortCircuit (op = .known .condAnd) x y left right
  else
    let xv ← left
    match xv.type with
    | .int w =>
      let unsigned := isUnsignedAt c x
      let yv ← right
      let yv' ← convert yv (isUnsignedAt c y) unsigned (.int w)
      onIntegers op xv yv' unsigned
    | .float k =>
      let yv ← right
      let yv' ← convert yv (isUnsignedAt c y) false (.float k)
      onFloats site op xv yv'
    | .pointer elem =>
      let yv ← right
      onPointers site op xv elem yv
    | _ =>
      let text ← described x
      reject site.position (.undefinedOperator (shownInMessage (BinaryOp.codedText op)) text)

/-- An operator with one operand. -/
def unaryValue (site : Site) (op : Coded UnaryOp) (x : Expr) (value : Lower Ir.Value)
    (place : Lower (Ir.Value × Ir.Ty)) : Lower Ir.Value := do
  match op with
  | .known .plus => value
  | .known .neg =>
    let v ← value
    match v.type with
    | .int w => emit (.arith .sub (.int w 0) v) (.int w)
    | .float k => emit (.fneg v) (.float k)
    | _ => rejectUnary site op x
  | .known .not =>
    let v ← value
    let t ← truth x v
    emit (.arith .xor t .bitTrue) (.int 1)
  | .known .complement =>
    let v ← value
    match v.type with
    | .int w => emit (.arith .xor v (.int w (-1))) (.int w)
    | _ => rejectUnary site op x
  | .known .addr =>
    let (p, _) ← place
    pure p
  | .known .deref =>
    let p ← value
    let t ← pointeeType x p
    load t p
  | .unknown _ => rejectUnary site op x

/-- A conversion that the source asks for. -/
def castValue (c : Context) (x : Expr) (target : Option TypeRef) (value : Lower Ir.Value) :
    Lower Ir.Value := do
  let t ← typeOfRef c target
  let v ← value
  if c.analysis.store.isBoolean t then truth x v
  else convertTo c x v t

/-! ## Expressions -/

mutual

/-- Lowers an expression for its value. -/
def valueOf (c : Context) : Expr → Lower Ir.Value
  | .absent => breach .missingPart
  | .intLit site value => intConstant c site value
  | .floatLit site bits => floatConstant c site bits
  | .boolLit _ value => pure (boolConstant value)
  | .stringLit site content => stringValue c site content
  | .varRef site name step => readVariable c site name step
  | .call site name args => do
    let (callee, params) ← callTarget c site name args.length
    let vs ← arguments c params args
    callAt .cursor callee vs
  | .structLit site name args => do
    let t ← typeOfExpr c (.structLit site name args)
    match c.analysis.store.structFields? t with
    | none => reject site.position (.notStruct name)
    | some fields =>
      if args.length ≠ fields.length then
        reject site.position (.fieldCount name fields.length args.length)
      else
        let type ← instructionType c t
        let slot ← stackSlot type none
        storeFields c type slot 0 (fields.map Prod.snd) args
        load type slot
  | .arrayLit site elems => do
    let t ← typeOfExpr c (.arrayLit site elems)
    match (c.analysis.store.underlying t).elem? with
    | none => reject site.position (.arrayLiteralType (c.analysis.store.shown t))
    | some et =>
      let elem ← instructionType c et
      let array ← allocateArray c site elem elems.length
      storeElements c et elem array.buffer 0 elems
      load array.type array.slot
  | .arrayAlloc site length elem => unfilledArray c site length elem
  | .selector site x field arrow => do
    let (p, t) ← selectorPlace c site x field arrow (valueOf c x) (placeOf c x)
    load t p
  | .index site x i => do
    let (p, t) ← indexPlace c site x (valueOf c x) (valueOf c i)
    load t p
  | .assign _ target value => do
    let (p, t) ← placeOf c target
    let v ← valueOf c value
    let v' ← convert v (isUnsignedAt c value) (isUnsignedAt c target) t
    store v' p
    pure v'
  | .binary site op x y => binaryValue c site op x y (valueOf c x) (valueOf c y)
  | .unary site op x => unaryValue site op x (valueOf c x) (placeOf c x)
  | .cast _ x target => castValue c x target (valueOf c x)

/-- Lowers an expression for the address of its storage, with the type stored there. -/
def placeOf (c : Context) : Expr → Lower (Ir.Value × Ir.Ty)
  | .varRef site name (.known .none) => variablePlace c site name
  | .selector site x field arrow => selectorPlace c site x field arrow (valueOf c x) (placeOf c x)
  | .index site x i => indexPlace c site x (valueOf c x) (valueOf c i)
  | .unary _ (.known .deref) x => do
    let p ← valueOf c x
    let t ← pointeeType x p
    pure (p, t)
  | e => do
    let s ← siteOf e
    reject s.position (.notAddressable (← described e))

/-- Lowers arguments and converts each to its parameter. -/
def arguments (c : Context) : List (Ir.Ty × Bool) → List Expr → Lower (List Ir.Value)
  | _, [] => pure []
  | [], e :: es => do
    let v ← valueOf c e
    let vs ← arguments c [] es
    pure (v :: vs)
  | (t, unsigned) :: ps, e :: es => do
    let v ← valueOf c e
    let v' ← convert v (isUnsignedAt c e) unsigned t
    let vs ← arguments c ps es
    pure (v' :: vs)

/-- Stores the elements of an array from an index on. -/
def storeElements (c : Context) (et : Ty) (elem : Ir.Ty) (buffer : Ir.Value) :
    Nat → List Expr → Lower Unit
  | _, [] => pure ()
  | i, e :: es => do
    let v ← valueOf c e
    let v' ← convertTo c e v et
    let p ← elementAddress elem buffer (.i32 i)
    store v' p
    storeElements c et elem buffer (i + 1) es

/-- Stores the fields of a struct from an index on. -/
def storeFields (c : Context) (type : Ir.Ty) (slot : Ir.Value) :
    Nat → List Ty → List Expr → Lower Unit
  | _, _, [] => pure ()
  | _, [], _ :: _ => pure ()
  | i, t :: ts, e :: es => do
    let v ← valueOf c e
    let v' ← convertTo c e v t
    let p ← fieldAddress type slot i
    store v' p
    storeFields c type slot (i + 1) ts es

end

/-- Lowers an expression as a condition. -/
def condition (c : Context) (e : Expr) : Lower Ir.Value := do
  let v ← valueOf c e
  truth e v

/-- Lowers an expression and converts it to a source type. -/
def valueAs (c : Context) (e : Expr) (t : Ty) : Lower Ir.Value := do
  let v ← valueOf c e
  convertTo c e v t

end TreeLowering.Lower
