import TreeLowering.Lower.Convert

/-!
Literals and the storage of strings and arrays.

String data is kept once per content. Each occurrence of a string literal copies its data into a
buffer of its own, in the block with the stack slots, and is a fresh array over that buffer. Inside
a function a buffer is a stack slot, outside a zeroed global.
-/
namespace TreeLowering.Lower

/-- An integer literal as a constant of its type. -/
def intConstant (c : Context) (site : Site) (value : Int64) : Lower Ir.Value := do
  let t ← typeOfExpr c (.intLit site value)
  match ← instructionType c t with
  | .int w => pure (.int w value.toInt)
  | .float k => pure (.float k (.ofBits (Binary64.bitsOfInt value.toInt)))
  | .pointer elem =>
    if value = 0 then pure (.null (.pointer elem))
    else reject site.position (.intLiteralType value.toInt (c.analysis.store.shown t))
  | _ => reject site.position (.intLiteralType value.toInt (c.analysis.store.shown t))

/-- A floating-point literal as a constant of its type. -/
def floatConstant (c : Context) (site : Site) (bits : UInt64) : Lower Ir.Value := do
  let t ← typeOfExpr c (.floatLit site bits)
  match ← instructionType c t with
  | .float k => pure (.float k (.ofBits bits))
  | _ => reject site.position (.floatLiteralType (c.analysis.store.shown t))

/-- A truth value. -/
def boolConstant (value : Bool) : Ir.Value := if value then .bitTrue else .bitFalse

/-- The copy intrinsic, declared when first needed. -/
def copyIntrinsic : Lower Ir.Value := do
  let params := [("dst", Ir.Ty.bytePointer), ("src", Ir.Ty.bytePointer), ("len", .int 32),
    ("isvolatile", .int 1)]
  let f : Ir.Function := { name := Abi.memcpy, result := .void, params }
  match (← get).memcpy with
  | some id => pure (f.value id)
  | none =>
    let id ← addFunction f
    modify fun s => { s with memcpy := some id }
    pure (f.value id)

/-- The address of the first character of the data of a string. Equal contents share one global. -/
def internedData (content : Bytes) : Lower Ir.Value := do
  match (← get).strings.lookup content with
  | some g => pure (.firstChar g content.length)
  | none =>
    let data : Ir.Value := .chars content
    let g ← addGlobal Abi.stringGlobal data.type
    modifyGlobal g fun g => { g with init := data, isPrivate := true, isImmutable := true }
    modify fun s => { s with strings := (content, g) :: s.strings }
    pure (.firstChar g content.length)

/-- Stores the length and the data pointer of the array in a slot. -/
def fillArray (spot : Place) (slot : Ir.Value) (type : Ir.Ty) (length data : Ir.Value) :
    Lower Unit := do
  let lengthPlace ← fieldAddressAt spot type slot Abi.arrayLengthField
  storeAt spot length lengthPlace
  let dataPlace ← fieldAddressAt spot type slot Abi.arrayDataField
  storeAt spot data dataPlace

/-- A zeroed global for `length` elements, as a pointer to the first. -/
def globalBuffer (spot : Place) (name : String) (elem : Ir.Ty) (length : Nat) : Lower Ir.Value := do
  let content := .array length elem
  let g ← addGlobal name content
  emitAt spot (.conv .bitcast (.global g content) (.pointer elem)) (.pointer elem)

/-- A string literal as a fresh array. -/
def stringValue (c : Context) (site : Site) (content : Bytes) : Lower Ir.Value := do
  let type := arrayStruct (.int 8)
  let length := Ir.Value.i32 content.length
  let slot ← stackSlot type none
  let buffer ←
    if ← isLocal c site then stackSlot (.int 8) (some length)
    else globalBuffer .vars Abi.stringBuffer (.int 8) content.length
  let copy ← copyIntrinsic
  let data ← internedData content
  discard (callAt .vars copy [buffer, data, length, .bitFalse])
  fillArray .vars slot type length buffer
  emitAt .vars (.load type slot) type

/-- The slot of a new array, its type and its buffer. -/
structure FreshArray where
  slot : Ir.Value
  type : Ir.Ty
  buffer : Ir.Value

/-- Makes an array of `length` elements with both of its fields stored. -/
def allocateArray (c : Context) (site : Site) (elem : Ir.Ty) (length : Nat) : Lower FreshArray := do
  let type := arrayStruct elem
  let slot ← stackSlot type none
  let buffer ←
    if ← isLocal c site then stackSlot elem (some (.i32 length))
    else globalBuffer .cursor Abi.arrayBuffer elem length
  fillArray .cursor slot type (.i32 length) buffer
  pure ⟨slot, type, buffer⟩

/-- An array of a given length with unspecified elements. -/
def unfilledArray (c : Context) (site : Site) (length : Int64) (elem : Option TypeRef) :
    Lower Ir.Value := do
  if length < 0 then reject site.position (.negativeLength length.toInt)
  else
    let t ← typeOfRef c elem
    let elemType ← instructionType c t
    let array ← allocateArray c site elemType length.toInt.toNat
    load array.type array.slot

end TreeLowering.Lower
