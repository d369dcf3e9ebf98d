import TreeLowering.Proofs.Body

/-!
How code is laid out in the blocks of a body.

`Code` is what an expression becomes: instructions in order, where a short-circuit operator runs the
code of its right operand only if the left one does not decide. `Flow` is what statements become:
code, choices, loops and jumps, nested as in the source. `Grows b code b'` and
`Builds k b flow r b'` say that `b'` is `b` with that code, or that flow, laid out from the cursor
on. Everything that lowering does to a body is one of their rules, so a fact about all lowered
bodies is an induction over them.
-/
namespace TreeLowering

/-! ## Code and flow -/

/-- The code of an expression. -/
inductive Code where
  | nil
  | line (l : Ir.Line)
  | seq (first second : Code)
  /-- Runs `right` only if `left` does not decide; `join` is the result. -/
  | decide (isAnd : Bool) (left : Ir.Value) (right : Code) (last : Ir.Value) (join : Ir.Line)

/-- A condition: leaves with their code and value, under the operators of conditions. -/
inductive Cond where
  | leaf (code : Code) (value : Ir.Value)
  /-- The negation, computed by the instruction with this identity. -/
  | not (x : Cond) (id : Nat)
  /-- A short-circuit operator, whose result is `join`. -/
  | both (isAnd : Bool) (x y : Cond) (join : Ir.Line)

/-- The statements of a body. -/
inductive Flow where
  | skip
  | code (c : Code)
  | seq (first second : Flow)
  | choose (cond : Cond) (yes no : Flow)
  /-- Tests, runs `body` and then `next`, and starts again; without a condition it never ends. -/
  | loop (cond : Option Cond) (body next : Flow)
  /-- Leaves the innermost loop, or continues it. -/
  | jump (isBreak : Bool)
  | ret (c : Code) (value : Option Ir.Value)

namespace Cond

/-- The value that an instruction of a function computes to one bit. -/
def bitOf (fn : Ir.FuncId) (id : Nat) : Ir.Value := .computed fn id (.int 1)

/-- The value of a condition in a function. -/
def value (fn : Ir.FuncId) : Cond → Ir.Value
  | .leaf _ v => v
  | .not _ id => bitOf fn id
  | .both _ _ _ join => bitOf fn join.id

/-- The instruction that negates a bit. -/
def negation (id : Nat) (x : Ir.Value) : Ir.Line := ⟨id, .arith .xor x .bitTrue, .int 1⟩

/-- The code of a condition in a function. -/
def code (fn : Ir.FuncId) : Cond → Code
  | .leaf c _ => c
  | .not x id => .seq (x.code fn) (.line (negation id (x.value fn)))
  | .both isAnd x y join =>
    .seq (x.code fn) (.decide isAnd (x.value fn) (y.code fn) (y.value fn) join)

end Cond

/-- Whether a flow never runs to its end. -/
def Flow.diverts : Flow → Bool
  | .skip | .code _ | .loop _ _ _ => false
  | .seq a b => a.diverts || b.diverts
  | .choose _ yes no => yes.diverts && no.diverts
  | .jump _ | .ret _ _ => true

/-! ## Short circuits -/

namespace Body

/-- The block of the right operand. -/
def rightLabel (b : Body) (isAnd : Bool) : Ir.Label :=
  b.nextLabel ((if isAnd then "and" else "or") ++ ".rhs")

/-- The block where the operands of a short-circuit operator join. -/
def joinLabel (b : Body) (isAnd : Bool) : Ir.Label :=
  (b.addBlock ((if isAnd then "and" else "or") ++ ".rhs")).nextLabel
    ((if isAnd then "and" else "or") ++ ".done")

/-- The terminator after the left operand: to the right one, unless the left one decides. -/
def decision (b : Body) (isAnd : Bool) (left : Ir.Value) : Ir.Term :=
  if isAnd then .condBr left (b.rightLabel isAnd) (b.joinLabel isAnd)
  else .condBr left (b.joinLabel isAnd) (b.rightLabel isAnd)

/-- The body after the left operand, at the start of the right one. -/
def fork (b : Body) (isAnd : Bool) (left : Ir.Value) : Body :=
  (((b.addBlock ((if isAnd then "and" else "or") ++ ".rhs")).addBlock
    ((if isAnd then "and" else "or") ++ ".done")).finish (b.decision isAnd left)).goto
    (b.rightLabel isAnd)

/-- The constant that a short-circuit operator is when its left operand decides. -/
def decided (isAnd : Bool) : Ir.Value := if isAnd then .bitFalse else .bitTrue

/-- The body after the right operand, at the join of the operands. -/
def rejoin (b : Body) (done : Ir.Label) : Body := (b.finish (.br done)).goto done

/-- The value of a short-circuit operator, at the join of its operands. -/
def joined (isAnd : Bool) (start finish : Ir.Label) (last : Ir.Value) : Ir.Inst :=
  .phi [(decided isAnd, start), (last, finish)]

/-- Ends a conditional: the join comes last, or goes away if nothing leads there. -/
def closeJoin (b : Body) (done : Ir.Label) (reached : Bool) : Body :=
  if reached then (b.moveToEnd done).goto done else (b.dropBlock done).halt

end Body

/-! ## Growth by code -/

/-- The body `b'` is `b` with the code of an expression laid out from the cursor on, every operand
    satisfying `Q`. Stack slots and what sets them up go to the block with the stack slots. -/
inductive Grows (Q : Ir.Value → Prop) : Body → Code → Body → Prop where
  | nil (b : Body) : Grows Q b .nil b
  | seq {b b₁ b₂ : Body} {c d : Code} :
    Grows Q b c b₁ → Grows Q b₁ d b₂ → Grows Q b (.seq c d) b₂
  | vars {b : Body} {inst : Ir.Inst} (type : Ir.Ty) :
    inst.isPhi = false → (∀ v ∈ inst.operands, Q v) → Grows Q b .nil (b.addVarsLine inst type)
  | line {b : Body} {inst : Ir.Inst} (type : Ir.Ty) :
    b.cursor.isSome → inst.isPhi = false → inst.isAlloca = false →
    (∀ v ∈ inst.operands, Q v) →
    Grows Q b (.line ⟨b.lineCount, inst, type⟩) (b.emit inst type)
  | decide {b b₁ : Body} {right : Code} {x y : Ir.Value} {start finish : Ir.Label}
    (isAnd : Bool) :
    b.cursor = some start → Q x → Grows Q (b.fork isAnd x) right b₁ →
    b₁.cursor = some finish → Q y →
    Grows Q b
      (.decide isAnd x right y ⟨b₁.lineCount, Body.joined isAnd start finish y, .int 1⟩)
      ((b₁.rejoin (b.joinLabel isAnd)).emit (Body.joined isAnd start finish y) (.int 1))

/-- Growth with nothing said about operands. -/
abbrev GrowsBy : Body → Code → Body → Prop := Grows fun _ => True

/-! ## Growth by statements -/

namespace Body

/-- The body after the condition of an arm, at the start of the arm; `otherwise` names the block
    where the condition fails. -/
def arm (b : Body) (otherwise : String) (cond : Ir.Value) : Body :=
  (((b.addBlock "if.then").addBlock otherwise).finish
    (.condBr cond (b.nextLabel "if.then") ((b.addBlock "if.then").nextLabel otherwise))).goto
    (b.nextLabel "if.then")

/-- The same for the last arm of a conditional without a final block, which fails to the join. -/
def lastArm (b : Body) (done : Ir.Label) (cond : Ir.Value) : Body :=
  ((b.addBlock "if.then").finish (.condBr cond (b.nextLabel "if.then") done)).goto
    (b.nextLabel "if.then")

/-- The blocks of a `while` loop are made and its test begins. -/
def whileTest (b : Body) : Body :=
  ((((b.addBlock "while.cond").addBlock "while.body").addBlock "while.done").finish
    (.br (b.nextLabel "while.cond"))).goto (b.nextLabel "while.cond")

/-- The start of the body of a `while` loop. -/
def whileStart (b : Body) : Ir.Label := (b.addBlock "while.cond").nextLabel "while.body"

/-- Where a `while` loop leads. -/
def whileExit (b : Body) : Ir.Label :=
  ((b.addBlock "while.cond").addBlock "while.body").nextLabel "while.done"

/-- The blocks of a `for` loop are made and its test begins. -/
def forTest (b : Body) : Body :=
  (((((b.addBlock "for.cond").addBlock "for.body").addBlock "for.iter").addBlock
    "for.done").finish (.br (b.nextLabel "for.cond"))).goto (b.nextLabel "for.cond")

/-- The start of the body of a `for` loop. -/
def forStart (b : Body) : Ir.Label := (b.addBlock "for.cond").nextLabel "for.body"

/-- Where a `for` loop goes on to the next round. -/
def forNext (b : Body) : Ir.Label :=
  ((b.addBlock "for.cond").addBlock "for.body").nextLabel "for.iter"

/-- Where a `for` loop leads. -/
def forExit (b : Body) : Ir.Label :=
  (((b.addBlock "for.cond").addBlock "for.body").addBlock "for.iter").nextLabel "for.done"

/-- The targets of the `while` loop made next. -/
def whileLoop (b : Body) : Loop := ⟨b.whileExit, b.nextLabel "while.cond"⟩

/-- The targets of the `for` loop made next. -/
def forLoop (b : Body) : Loop := ⟨b.forExit, b.forNext⟩

end Body

/-- The test of a `for` loop, if it has one, and the branch after it. -/
inductive Tests : Body → Option Cond → Ir.Label → Ir.Label → Body → Prop where
  | always {b : Body} {start exit : Ir.Label} :
    b.cursor.isSome → Tests b none start exit (b.finish (.br start))
  | on {b b₁ : Body} {cond : Cond} {start exit : Ir.Label} :
    b.cursor.isSome → GrowsBy b (cond.code b.fn) b₁ →
    Tests b (some cond) start exit (b₁.finish (.condBr (cond.value b.fn) start exit))

/-- The body `b'` is `b` with a flow laid out from the cursor on, whose end is reached if the flag
    says so. With no label the cursor is then there, or nowhere. With a label the flow is the rest
    of a conditional, and reaching the end means branching to that label. -/
inductive Builds : Option Ir.Label → Body → Flow → Bool → Body → Prop where
  | skip {b : Body} : b.cursor.isSome → Builds none b .skip true b
  | code {b b' : Body} {c : Code} :
    b.cursor.isSome → GrowsBy b c b' → Builds none b (.code c) true b'
  | seq {b b₁ b₂ : Body} {f g : Flow} {r : Bool} :
    Builds none b f true b₁ → Builds none b₁ g r b₂ → Builds none b (.seq f g) r b₂
  | jump {b : Body} {loop : Loop} {rest : List Loop} (isBreak : Bool) :
    b.cursor.isSome → b.loops = loop :: rest →
    Builds none b (.jump isBreak) false
      (b.finish (.br (if isBreak then loop.exit else loop.next))).halt
  | ret {b b₁ : Body} {c : Code} (value : Option Ir.Value) :
    b.cursor.isSome → GrowsBy b c b₁ →
    Builds none b (.ret c value) false (b₁.finish (.ret value)).halt
  | whileLoop {b b₁ b₂ : Body} {cond : Cond} {f : Flow} {r : Bool} :
    b.cursor.isSome → GrowsBy b.whileTest (cond.code b.fn) b₁ →
    Builds none
      (((b₁.finish (.condBr (cond.value b.fn) b.whileStart b.whileExit)).enterLoop
        b.whileLoop).goto b.whileStart) f r b₂ →
    Builds none b (.loop (some cond) f .skip) true
      ((b₂.finish (.br (b.nextLabel "while.cond"))).exitLoop.goto b.whileExit)
  | forLoop {b b₁ b₂ b₃ : Body} {cond : Option Cond} {f g : Flow} {r r' : Bool} :
    b.cursor.isSome → Tests b.forTest cond b.forStart b.forExit b₁ →
    Builds none ((b₁.enterLoop b.forLoop).goto b.forStart) f r b₂ →
    Builds none ((b₂.finish (.br b.forNext)).exitLoop.goto b.forNext) g r' b₃ →
    Builds none b (.loop cond f g) true
      ((b₃.finish (.br (b.nextLabel "for.cond"))).goto b.forExit)
  | choose {b b₁ : Body} {f : Flow} {r : Bool} :
    Builds (some (b.nextLabel "if.done")) (b.addBlock "if.done") f r b₁ →
    Builds none b f r (b₁.closeJoin (b.nextLabel "if.done") r)
  | last {b b₁ b₂ : Body} {done : Ir.Label} {cond : Cond} {f : Flow} {r : Bool} :
    b.cursor.isSome → GrowsBy b (cond.code b.fn) b₁ →
    Builds none (b₁.lastArm done (cond.value b.fn)) f r b₂ →
    Builds (some done) b (.choose cond f .skip) true ((b₂.finish (.br done)).goto done)
  | arm {b b₁ b₂ b₃ : Body} {done : Ir.Label} {cond : Cond} {f g : Flow} {r r' : Bool}
    (otherwise : String) :
    b.cursor.isSome → GrowsBy b (cond.code b.fn) b₁ →
    Builds none (b₁.arm otherwise (cond.value b.fn)) f r b₂ →
    Builds (some done)
      ((b₂.finish (.br done)).goto ((b₁.addBlock "if.then").nextLabel otherwise)) g r' b₃ →
    Builds (some done) b (.choose cond f g) (r || r') b₃
  | final {b b₁ : Body} {done : Ir.Label} {f : Flow} {r : Bool} :
    Builds none b f r b₁ → Builds (some done) b f r (b₁.finish (.br done))

end TreeLowering
