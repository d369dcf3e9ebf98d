import TreeLowering.Lower.Types
import TreeLowering.Number.Binary64

/-!
Conversions between instruction types, and truth values.

`conversion` decides without emitting anything: a value that already has the type, and one of an
unrelated kind, is kept; some constants become other constants; everything else is an instruction.
-/
namespace TreeLowering.Lower

/-- How a value gets another type. -/
inductive Conversion where
  /-- As it is. -/
  | keep
  /-- As another constant. -/
  | constant (value : Ir.Value)
  /-- By an instruction. -/
  | instruction (op : Ir.Conv)
deriving Repr, Inhabited

/-- From an integer of `width` bits to one of `target` bits. -/
def intToInt (v : Ir.Value) (unsigned : Bool) (width target : Nat) : Conversion :=
  if width < target then
    match v with
    | .int _ x =>
      if !unsigned && 1 < width then .constant (.int target x)
      else if unsigned || width = 1 then .instruction .zext
      else .instruction .sext
    | _ => if unsigned || width = 1 then .instruction .zext else .instruction .sext
  else .instruction .trunc

/-- From an integer to a floating-point type. -/
def intToFloat (v : Ir.Value) (unsigned : Bool) (target : Ir.FloatKind) : Conversion :=
  if unsigned then .instruction .uitofp
  else
    match v with
    | .int _ x => .constant (.float target (.ofBits (Binary64.bitsOfInt x)))
    | _ => .instruction .sitofp

/-- From one floating-point type to the other; a constant keeps its number. -/
def floatToFloat (v : Ir.Value) (target : Ir.FloatKind) : Conversion :=
  match v with
  | .float _ x => .constant (.float target (.ofBits x.numberBits))
  | _ => .instruction (if target = .single then .fptrunc else .fpext)

/-- From a pointer to another pointer type. -/
def pointerToPointer (v : Ir.Value) (target : Ir.Ty) : Conversion :=
  match v with
  | .null _ => .constant (.null target)
  | _ => .instruction .bitcast

/-- From an integer to a pointer; zero is the null pointer. -/
def intToPointer (v : Ir.Value) (target : Ir.Ty) : Conversion :=
  match v with
  | .int _ x => if x = 0 then .constant (.null target) else .instruction .inttoptr
  | _ => .instruction .inttoptr

/-- How a value gets the type `target`. The flags say whether its own type and the target are
    unsigned. -/
def conversion (defs : Array Ir.TypeDef) (v : Ir.Value) (unsigned toUnsigned : Bool)
    (target : Ir.Ty) : Conversion :=
  if Ir.sameType defs v.type target then .keep
  else
    match target, v.type with
    | .int w', .int w => intToInt v unsigned w w'
    | .int _, .float _ => .instruction (if toUnsigned then .fptoui else .fptosi)
    | .int _, .pointer _ => .instruction .ptrtoint
    | .float k, .float _ => floatToFloat v k
    | .float k, .int _ => intToFloat v unsigned k
    | .pointer _, .pointer _ => pointerToPointer v target
    | .pointer _, .int _ => intToPointer v target
    | _, _ => .keep

/-- Converts a value to a type. -/
def convert (v : Ir.Value) (unsigned toUnsigned : Bool) (target : Ir.Ty) : Lower Ir.Value := do
  match conversion (← get).module.types v unsigned toUnsigned target with
  | .keep => pure v
  | .constant v' => pure v'
  | .instruction op => emit (.conv op v target) target

/-- Converts the value of an expression to a source type. -/
def convertTo (c : Context) (e : Expr) (v : Ir.Value) (t : Ty) : Lower Ir.Value := do
  let target ← instructionType c t
  convert v (isUnsignedAt c e) (c.analysis.store.isUnsigned t) target

/-- The truth of the value of an expression: whether it differs from zero. -/
def truth (e : Expr) (v : Ir.Value) : Lower Ir.Value := do
  match v.type with
  | .int w => if w = 1 then pure v else emit (.icmp .ne v (.int w 0)) (.int 1)
  | .float k => emit (.fcmp .une v (.float k (.number 0))) (.int 1)
  | .pointer t => emit (.icmp .ne v (.null (.pointer t))) (.int 1)
  | _ =>
    let s ← siteOf e
    reject s.position (.notCondition (← described e))

end TreeLowering.Lower
