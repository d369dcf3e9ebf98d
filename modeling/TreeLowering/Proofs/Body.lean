import TreeLowering.Lower.State
import TreeLowering.Ir.Verify

/-!
A body under construction, seen through its blocks: the few ways in which lowering changes it, each
with what it does to the blocks, their labels and the counters. An instruction and a terminator go
to the block of the cursor; without a cursor they go nowhere.
-/
namespace TreeLowering

namespace Ir

/-- The values that an instruction reads. -/
def Inst.operands : Inst → List Value
  | .alloca _ count => count.toList
  | .load _ place => [place]
  | .store value place => [value, place]
  | .address _ base indices => base :: indices
  | .extractData value => [value]
  | .arith _ x y => [x, y]
  | .fneg x => [x]
  | .icmp _ x y => [x, y]
  | .fcmp _ x y => [x, y]
  | .conv _ x _ => [x]
  | .phi incoming => incoming.map Prod.fst
  | .call callee args => callee :: args

/-- The values that a terminator reads. -/
def Term.operands : Term → List Value
  | .ret value => value.toList
  | .br _ => []
  | .condBr cond _ _ => [cond]
  | .unreachable => []

/-- Whether an instruction joins values of the blocks before it. -/
def Inst.isPhi : Inst → Bool
  | .phi _ => true
  | _ => false

/-- Whether an instruction calls a function. -/
def Inst.isCall : Inst → Bool
  | .call _ _ => true
  | _ => false

/-- Whether an instruction neither makes a stack slot nor joins values nor calls. -/
def Inst.isOperation (inst : Inst) : Bool := !(inst.isAlloca || inst.isPhi || inst.isCall)

end Ir

namespace Body

/-- Appends an instruction to the block of the cursor. -/
def emit (b : Body) (inst : Ir.Inst) (type : Ir.Ty) : Body :=
  match b.cursor with
  | some l => b.addLine l inst type
  | none => b

/-- Ends the block of the cursor. -/
def finish (b : Body) (t : Ir.Term) : Body :=
  match b.cursor with
  | some l => b.setTerm l t
  | none => b

/-- Moves the cursor to a block. -/
def goto (b : Body) (l : Ir.Label) : Body := { b with cursor := some l }

/-- Takes the cursor away. -/
def halt (b : Body) : Body := { b with cursor := none }

/-- Enters a loop. -/
def enterLoop (b : Body) (loop : Loop) : Body := { b with loops := loop :: b.loops }

/-- Leaves the innermost loop. -/
def exitLoop (b : Body) : Body := { b with loops := b.loops.tail }

/-- What a body keeps whatever is built: its function, its result, its enclosing loops. -/
structure Kept (b b' : Body) : Prop where
  fn : b'.fn = b.fn
  head : b'.head = b.head
  result : b'.result = b.result
  loops : b'.loops = b.loops
  blockCount : b.blockCount ≤ b'.blockCount
  lineCount : b.lineCount ≤ b'.lineCount

theorem Kept.refl (b : Body) : Kept b b := ⟨rfl, rfl, rfl, rfl, Nat.le_refl _, Nat.le_refl _⟩

theorem Kept.trans {a b c : Body} (h₁ : Kept a b) (h₂ : Kept b c) : Kept a c :=
  ⟨h₂.fn.trans h₁.fn, h₂.head.trans h₁.head, h₂.result.trans h₁.result, h₂.loops.trans h₁.loops,
    Nat.le_trans h₁.blockCount h₂.blockCount, Nat.le_trans h₁.lineCount h₂.lineCount⟩

/-! ## Counters and fields -/

section Fields
variable (b : Body) (l : Ir.Label) (name : String) (inst : Ir.Inst) (type : Ir.Ty) (t : Ir.Term)

@[simp] theorem nextLabel_id : (b.nextLabel name).id = b.blockCount + 2 := rfl

@[simp] theorem addBlock_blockCount : (b.addBlock name).blockCount = b.blockCount + 1 := rfl

@[simp] theorem addBlock_cursor : (b.addBlock name).cursor = b.cursor := rfl

@[simp] theorem addBlock_loops : (b.addBlock name).loops = b.loops := rfl

@[simp] theorem addBlock_blocks :
    (b.addBlock name).blocks = b.blocks ++ [{ label := b.nextLabel name }] := rfl

@[simp] theorem goto_cursor : (b.goto l).cursor = some l := rfl

@[simp] theorem goto_blocks : (b.goto l).blocks = b.blocks := rfl

@[simp] theorem goto_loops : (b.goto l).loops = b.loops := rfl

@[simp] theorem goto_blockCount : (b.goto l).blockCount = b.blockCount := rfl

@[simp] theorem halt_cursor : b.halt.cursor = none := rfl

@[simp] theorem halt_blocks : b.halt.blocks = b.blocks := rfl

@[simp] theorem halt_vars : b.halt.vars = b.vars := rfl

@[simp] theorem halt_loops : b.halt.loops = b.loops := rfl

@[simp] theorem halt_blockCount : b.halt.blockCount = b.blockCount := rfl

@[simp] theorem addVarsLine_blocks : (b.addVarsLine inst type).blocks = b.blocks := rfl

@[simp] theorem addVarsLine_cursor : (b.addVarsLine inst type).cursor = b.cursor := rfl

@[simp] theorem addVarsLine_loops : (b.addVarsLine inst type).loops = b.loops := rfl

@[simp] theorem addVarsLine_blockCount :
    (b.addVarsLine inst type).blockCount = b.blockCount := rfl

@[simp] theorem enterLoop_blocks (loop : Loop) : (b.enterLoop loop).blocks = b.blocks := rfl

@[simp] theorem enterLoop_cursor (loop : Loop) : (b.enterLoop loop).cursor = b.cursor := rfl

@[simp] theorem enterLoop_loops (loop : Loop) : (b.enterLoop loop).loops = loop :: b.loops := rfl

@[simp] theorem enterLoop_blockCount (loop : Loop) :
    (b.enterLoop loop).blockCount = b.blockCount := rfl

@[simp] theorem exitLoop_blocks : b.exitLoop.blocks = b.blocks := rfl

@[simp] theorem exitLoop_cursor : b.exitLoop.cursor = b.cursor := rfl

@[simp] theorem exitLoop_loops : b.exitLoop.loops = b.loops.tail := rfl

@[simp] theorem exitLoop_blockCount : b.exitLoop.blockCount = b.blockCount := rfl

@[simp] theorem emit_cursor : (b.emit inst type).cursor = b.cursor := by
  unfold emit
  split
  · rename_i hc
    exact hc.symm ▸ hc
  · rfl

@[simp] theorem emit_loops : (b.emit inst type).loops = b.loops := by
  unfold emit
  split <;> rfl

@[simp] theorem emit_blockCount : (b.emit inst type).blockCount = b.blockCount := by
  unfold emit
  split <;> rfl

@[simp] theorem finish_cursor : (b.finish t).cursor = b.cursor := by
  unfold finish
  split
  · rename_i hc
    exact hc.symm ▸ hc
  · rfl

@[simp] theorem finish_loops : (b.finish t).loops = b.loops := by
  unfold finish
  split <;> rfl

@[simp] theorem finish_blockCount : (b.finish t).blockCount = b.blockCount := by
  unfold finish
  split <;> rfl

@[simp] theorem emit_vars : (b.emit inst type).vars = b.vars := by
  unfold emit
  split <;> rfl

@[simp] theorem finish_vars : (b.finish t).vars = b.vars := by
  unfold finish
  split <;> rfl

@[simp] theorem finish_fn : (b.finish t).fn = b.fn := by
  unfold finish
  split <;> rfl

@[simp] theorem finish_lineCount : (b.finish t).lineCount = b.lineCount := by
  unfold finish
  split <;> rfl

end Fields

theorem finish_eq_self {b : Body} {t : Ir.Term} (hc : b.cursor = none) : b.finish t = b := by
  simp [finish, hc]

end Body

end TreeLowering
