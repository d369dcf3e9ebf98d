import Mathlib.Logic.Function.Basic
import TreeLowering.Lower.Expression
import TreeLowering.Proofs.Arithmetic

/-!
Evaluation of expressions on integers and truth values.

`Expr.Typed` says which expressions these are and that the analysis gives every part its type;
`Expr.eval` computes their value from what variables hold, without instructions. Operands are
evaluated from left to right, the right one is converted to the type of the left one, and what is
undefined has no value. `Expr.intact` is about constants: no constant is widened with a sign that is
not its own.
-/
namespace TreeLowering

/-! ## Types -/

namespace Context

variable (c : Context)

/-- The scalar type of an expression. -/
def kindOf (e : Expr) : Option Scalar := c.analysis.store.scalar? (c.analysis.typeOfExpr e)

/-- The scalar type that a reference names. -/
def kindOfRef (r : TypeRef) : Option Scalar := c.analysis.store.scalar? (c.analysis.typeOfRef r)

/-- The scalar type of a variable. -/
def kindOfVariable (v : ObjectId) : Option Scalar :=
  c.analysis.store.scalar? (Lower.variableType c v)

end Context

/-- The type of what an operator computes from numbers of a type. -/
def BinaryOp.resultKind (op : BinaryOp) (k : Scalar) : Scalar :=
  if op.isComparison then .bool else k

/-- Expressions on integers and truth values over some variables, with their types. -/
inductive Expr.Typed (c : Context) (vars : ObjectId → Prop) : Expr → Scalar → Prop where
  | intLit {site : Site} {n : Int64} {k : Scalar} : c.kindOf (.intLit site n) = some k →
    k.isWord = true → k.Holds n.toInt → Typed c vars (.intLit site n) k
  | boolLit {site : Site} {b : Bool} : c.kindOf (.boolLit site b) = some .bool →
    Typed c vars (.boolLit site b) .bool
  | varRef {site : Site} {name : String} {v : ObjectId} {k : Scalar} {step : Step} :
    c.analysis.resolve name (some site) = some v → vars v → c.kindOfVariable v = some k →
    k.isWord = true → (step ≠ .none → k.isInteger = true) →
    c.kindOf (.varRef site name (.known step)) = some k →
    Typed c vars (.varRef site name (.known step)) k
  | assign {site here : Site} {name : String} {value : Expr} {k k' : Scalar} :
    Typed c vars (.varRef here name (.known .none)) k → Typed c vars value k' →
    (k = .bool → k' = .bool) →
    c.kindOf (.assign site (.varRef here name (.known .none)) value) = some k →
    Typed c vars (.assign site (.varRef here name (.known .none)) value) k
  | binary {site : Site} {op : BinaryOp} {x y : Expr} {k k' : Scalar} :
    Typed c vars x k → Typed c vars y k' → (k = .bool → k' = .bool) → op.isLogical = false →
    c.kindOf (.binary site (.known op) x y) = some (op.resultKind k) →
    Typed c vars (.binary site (.known op) x y) (op.resultKind k)
  | logical {site : Site} {op : BinaryOp} {x y : Expr} {k k' : Scalar} :
    Typed c vars x k → Typed c vars y k' → op.isLogical = true →
    c.kindOf (.binary site (.known op) x y) = some .bool →
    Typed c vars (.binary site (.known op) x y) .bool
  | plus {site : Site} {x : Expr} {k : Scalar} :
    Typed c vars x k → c.kindOf (.unary site (.known .plus) x) = some k →
    Typed c vars (.unary site (.known .plus) x) k
  | neg {site : Site} {x : Expr} {k : Scalar} :
    Typed c vars x k → c.kindOf (.unary site (.known .neg) x) = some k →
    Typed c vars (.unary site (.known .neg) x) k
  | not {site : Site} {x : Expr} {k : Scalar} :
    Typed c vars x k → c.kindOf (.unary site (.known .not) x) = some .bool →
    Typed c vars (.unary site (.known .not) x) .bool
  | complement {site : Site} {x : Expr} {k : Scalar} :
    Typed c vars x k → k.isInteger = true →
    c.kindOf (.unary site (.known .complement) x) = some k →
    Typed c vars (.unary site (.known .complement) x) k
  | cast {site : Site} {x : Expr} {r : TypeRef} {k k' : Scalar} :
    Typed c vars x k → c.kindOfRef r = some k' → k'.isWord = true →
    c.kindOf (.cast site x (some r)) = some k' → Typed c vars (.cast site x (some r)) k'

namespace Expr.Typed

variable {c : Context} {vars : ObjectId → Prop} {e : Expr} {k : Scalar}

theorem kind (h : e.Typed c vars k) : c.kindOf e = some k := by
  cases h <;> assumption

theorem isWord (h : e.Typed c vars k) : k.isWord = true := by
  induction h with
  | intLit _ hk _ | varRef _ _ _ hk _ _ | cast _ _ hk _ _ => exact hk
  | assign _ _ _ _ ih _ | plus _ _ ih | neg _ _ ih | complement _ _ _ ih => exact ih
  | boolLit _ | logical _ _ _ _ _ _ | not _ _ _ => rfl
  | binary _ _ _ _ _ ih _ =>
    unfold BinaryOp.resultKind
    split
    · rfl
    · exact ih

end Expr.Typed

/-! ## Values -/

/-- What variables hold. -/
abbrev Contents := ObjectId → Int

/-- The value of a variable that is read with a step, and what it holds then. -/
def Step.apply (k : Scalar) (old : Int) : Step → Int × Int
  | .none => (old, old)
  | .preInc => (k.wrap (old + 1), k.wrap (old + 1))
  | .preDec => (k.wrap (old - 1), k.wrap (old - 1))
  | .postInc => (old, k.wrap (old + 1))
  | .postDec => (old, k.wrap (old - 1))

/-- A number as a value of a type: `bool` asks whether it is zero. -/
def Scalar.cast (k : Scalar) (n : Int) : Int :=
  if k.isBoolean then bitNumber (n ≠ 0) else k.wrap n

/-- The value of an expression, and what variables hold after it. -/
def Expr.eval (c : Context) : Expr → Contents → Option (Int × Contents)
  | .intLit _ n, held => some (n.toInt, held)
  | .boolLit _ b, held => some (bitNumber b, held)
  | .varRef site name (.known step), held => do
    let v ← c.analysis.resolve name (some site)
    let k ← c.kindOfVariable v
    let (value, new) := step.apply k (held v)
    some (value, Function.update held v new)
  | .assign _ (.varRef site name (.known .none)) value, held => do
    let v ← c.analysis.resolve name (some site)
    let k ← c.kindOfVariable v
    let (n, held) ← value.eval c held
    some (k.wrap n, Function.update held v (k.wrap n))
  | .binary _ (.known .condAnd) x y, held => do
    let (a, held) ← x.eval c held
    if a = 0 then some (0, held)
    else
      let (b, held) ← y.eval c held
      some (bitNumber (b ≠ 0), held)
  | .binary _ (.known .condOr) x y, held => do
    let (a, held) ← x.eval c held
    if a = 0 then
      let (b, held) ← y.eval c held
      some (bitNumber (b ≠ 0), held)
    else some (1, held)
  | .binary _ (.known op) x y, held => do
    let k ← c.kindOf x
    let (a, held) ← x.eval c held
    let (b, held) ← y.eval c held
    let r ← op.value? k a (k.wrap b)
    some (r, held)
  | .unary _ (.known .plus) x, held => x.eval c held
  | .unary _ (.known .neg) x, held => do
    let k ← c.kindOf x
    let (a, held) ← x.eval c held
    some (k.wrap (-a), held)
  | .unary _ (.known .not) x, held => do
    let (a, held) ← x.eval c held
    some (bitNumber (a = 0), held)
  | .unary _ (.known .complement) x, held => do
    let k ← c.kindOf x
    let (a, held) ← x.eval c held
    some (k.wrap (-a - 1), held)
  | .cast _ x (some r), held => do
    let k ← c.kindOfRef r
    let (a, held) ← x.eval c held
    some (k.cast a, held)
  | _, _ => none

theorem Expr.eval_binary (c : Context) (site : Site) {op : BinaryOp} (x y : Expr)
    (h : op.isLogical = false) (held : Contents) :
    (Expr.binary site (.known op) x y).eval c held = (do
      let k ← c.kindOf x
      let (a, held) ← x.eval c held
      let (b, held) ← y.eval c held
      let r ← op.value? k a (k.wrap b)
      some (r, held)) := by
  cases op <;> first | rfl | cases h

theorem Expr.eval_cast {c : Context} {site : Site} {x : Expr} {r : TypeRef} {k : Scalar}
    {held held' : Contents} {n : Int} (hr : c.kindOfRef r = some k)
    (h : (Expr.cast site x (some r)).eval c held = some (n, held')) :
    ∃ a, x.eval c held = some (a, held') ∧ n = k.cast a := by
  simp only [Expr.eval, hr, Option.bind_eq_bind, Option.bind_some, Option.bind_eq_some_iff] at h
  obtain ⟨⟨a, held₁⟩, ha, ⟨⟩⟩ := h
  exact ⟨a, ha, rfl⟩

/-- The right operand is evaluated unless the left one decides. -/
theorem Expr.eval_logical (c : Context) (site : Site) {op : BinaryOp} (x y : Expr)
    (h : op.isLogical = true) (held : Contents) :
    (Expr.binary site (.known op) x y).eval c held = (do
      let (a, held) ← x.eval c held
      if decide (a ≠ 0) = decide (op = .condAnd) then
        let (b, held) ← y.eval c held
        some (bitNumber (b ≠ 0), held)
      else some (bitNumber (op ≠ .condAnd), held)) := by
  cases op with
  | condAnd | condOr =>
    rw [Expr.eval]
    refine congrArg _ (funext fun r => ?_)
    by_cases ha : r.1 = 0 <;> simp [ha, bitNumber]
  | _ => cases h

/-! ## Constants -/

/-- Whether a constant of one type stays a constant, with its number as it is, in another: among
    types of one width, and where a type with a sign gets wider. -/
def Scalar.folds (k k' : Scalar) : Bool :=
  k.bits = k'.bits || k.isSigned && k.bits < k'.bits

/-- The number of the constant that an expression is lowered to, if it is one. The number need not
    lie in the range of the type. -/
def Expr.constant? (c : Context) : Expr → Option Int
  | .intLit _ n => some n.toInt
  | .boolLit _ b => some (bitNumber b)
  | .assign _ target value => do
    let k ← c.kindOf value
    let k' ← c.kindOf target
    if k.folds k' then value.constant? c else none
  | .unary _ (.known .plus) x => x.constant? c
  | .cast _ x (some r) => do
    let k ← c.kindOf x
    let k' ← c.kindOfRef r
    if k.folds k' then x.constant? c else none
  | _ => none

theorem Expr.constant?_cast {c : Context} (site : Site) {x : Expr} {r : TypeRef} {k k' : Scalar}
    {n : Int} (hx : c.kindOf x = some k) (hr : c.kindOfRef r = some k') (hf : k.folds k' = true)
    (hn : x.constant? c = some n) : (Expr.cast site x (some r)).constant? c = some n := by
  simp [Expr.constant?, hx, hr, hf, hn]

/-- A constant that gets another type lies in the range of its own one, unless the other type is not
    wider or its own one has no sign. -/
def Expr.widens (c : Context) (x : Expr) (target : Option Scalar) : Bool :=
  match c.kindOf x, target, x.constant? c with
  | some k, some k', some n => !(k.isSigned && k.bits < k'.bits) || decide (k.Holds n)
  | _, _, _ => true

/-- Every constant in an expression that gets wider keeps its value. -/
def Expr.intact (c : Context) : Expr → Bool
  | .assign _ target value => value.intact c && value.widens c (c.kindOf target)
  | .binary _ op x y =>
    x.intact c && y.intact c && (BinaryOp.codedIsLogical op || y.widens c (c.kindOf x))
  | .unary _ _ x => x.intact c
  | .cast _ x r => x.intact c && x.widens c (r.bind c.kindOfRef)
  | _ => true

end TreeLowering
