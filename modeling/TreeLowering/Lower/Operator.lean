import TreeLowering.Lower.Convert

/-!
Operators on lowered operands: which instruction an operator is on integers, floating-point numbers
and pointers.
-/
namespace TreeLowering

/-- The operation on integers, without or with a sign. -/
def BinaryOp.intArith? (unsigned : Bool) : BinaryOp → Option Ir.Arith
  | .add => some .add
  | .sub => some .sub
  | .mul => some .mul
  | .div => some (if unsigned then .udiv else .sdiv)
  | .rem => some (if unsigned then .urem else .srem)
  | .shl => some .shl
  | .shr => some (if unsigned then .lshr else .ashr)
  | .or => some .or
  | .xor => some .xor
  | .and => some .and
  | _ => none

/-- The comparison of integers, without or with a sign. -/
def BinaryOp.intComparison? (unsigned : Bool) : BinaryOp → Option Ir.IntPred
  | .eql => some .eq
  | .neq => some .ne
  | .gtr => some (if unsigned then .ugt else .sgt)
  | .lss => some (if unsigned then .ult else .slt)
  | .geq => some (if unsigned then .uge else .sge)
  | .leq => some (if unsigned then .ule else .sle)
  | _ => none

/-- The operation on floating-point numbers. -/
def BinaryOp.floatArith? : BinaryOp → Option Ir.Arith
  | .add => some .fadd
  | .sub => some .fsub
  | .mul => some .fmul
  | .div => some .fdiv
  | .rem => some .frem
  | _ => none

/-- The comparison of floating-point numbers. -/
def BinaryOp.floatComparison? : BinaryOp → Option Ir.FloatPred
  | .eql => some .oeq
  | .neq => some .une
  | .gtr => some .ogt
  | .lss => some .olt
  | .geq => some .oge
  | .leq => some .ole
  | _ => none

namespace Lower

/-- A comparison of integers or pointers. -/
def compareInts (op : Coded BinaryOp) (x y : Ir.Value) (unsigned : Bool) : Lower Ir.Value :=
  match op with
  | .unknown code => breach (.binaryOperator code)
  | .known o =>
    match o.intComparison? unsigned with
    | some pred => emit (.icmp pred x y) (.int 1)
    | none => breach (.notComparison o.text)

/-- An operator on integers. -/
def onIntegers (op : Coded BinaryOp) (x y : Ir.Value) (unsigned : Bool) : Lower Ir.Value :=
  match op.get?.bind (BinaryOp.intArith? unsigned) with
  | some a => emit (.arith a x y) x.type
  | none => compareInts op x y unsigned

/-- An operator on floating-point numbers. -/
def onFloats (site : Site) (op : Coded BinaryOp) (x y : Ir.Value) : Lower Ir.Value :=
  match op.get?.bind BinaryOp.floatArith? with
  | some a => emit (.arith a x y) x.type
  | none =>
    match op.get?.bind BinaryOp.floatComparison? with
    | some pred => emit (.fcmp pred x y) (.int 1)
    | none =>
      reject site.position (.undefinedFloatOperator (shownInMessage (BinaryOp.codedText op)))

/-- An operator on a pointer: a step by an integer, or a comparison. -/
def onPointers (site : Site) (op : Coded BinaryOp) (x : Ir.Value) (elem : Ir.Ty) (y : Ir.Value) :
    Lower Ir.Value := do
  match op, y.type with
  | .known .add, .int _ => elementAddress elem x y
  | .known .sub, .int w =>
    let back ← emit (.arith .sub (.int w 0) y) (.int w)
    elementAddress elem x back
  | _, _ =>
    if BinaryOp.codedIsComparison op then
      let y' ← convert y false false (.pointer elem)
      compareInts op x y' true
    else
      reject site.position (.undefinedPointerOperator (shownInMessage (BinaryOp.codedText op)))

/-- Adds one or minus one to an integer, a floating-point number or a pointer. -/
def stepBy (e : Expr) (site : Site) (v : Ir.Value) (up : Bool) : Lower Ir.Value := do
  let delta : Int := if up then 1 else -1
  match v.type with
  | .int w => emit (.arith .add v (.int w delta)) (.int w)
  | .float k =>
    let bits := if up then Ir.oneBits else Ir.minusOneBits
    emit (.arith .fadd v (.float k (.number bits))) (.float k)
  | .pointer elem => elementAddress elem v (.i32 delta)
  | _ => reject site.position (.notSteppable (← described e))

/-- The type that a pointer value of an expression points to. -/
def pointeeType (e : Expr) (v : Ir.Value) : Lower Ir.Ty := do
  match v.type with
  | .pointer t => pure t
  | _ =>
    let s ← siteOf e
    reject s.position (.notPointer (← described e))

/-- Rejects a unary operator on its operand. -/
def rejectUnary {α : Type} (site : Site) (op : Coded UnaryOp) (x : Expr) : Lower α := do
  let text ← described x
  reject site.position (.undefinedOperator (shownInMessage (UnaryOp.codedText op)) text)

end Lower

end TreeLowering
