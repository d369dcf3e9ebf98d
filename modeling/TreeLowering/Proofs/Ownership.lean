import TreeLowering.Proofs.Expression
import TreeLowering.Proofs.Lines

/-!
Operands that stay in their function. A parameter or a result of an instruction belongs to one
function, and blocks are self-contained if they refer to none of another. Growth by code whose
operands belong to the function keeps a body self-contained, and so does every other change of a
body.
-/
namespace TreeLowering

namespace Ir

/-- Whether a value may be an operand in a function: no parameter or result of another one. -/
def Value.BelongsTo (fn : FuncId) : Value → Prop
  | .param g _ _ | .computed g _ _ => g = fn
  | _ => True

/-- The operands of a block belong to a function. -/
structure Block.BelongsTo (fn : FuncId) (block : Block) : Prop where
  lines : ∀ line ∈ block.lines, ∀ v ∈ line.inst.operands, v.BelongsTo fn
  term : ∀ t, block.term = some t → ∀ v ∈ t.operands, v.BelongsTo fn

/-- The blocks of a function refer to no parameter and no result of another one. -/
def SelfContained (fn : FuncId) (blocks : List Block) : Prop := ∀ block ∈ blocks, block.BelongsTo fn

instance (fn : FuncId) (v : Value) : Decidable (v.BelongsTo fn) :=
  match v with
  | .param g _ _ | .computed g _ _ => inferInstanceAs (Decidable (g = fn))
  | .int _ _ | .float _ _ | .null _ | .zero _ | .chars _ | .firstChar _ _ | .global _ _
  | .func _ _ _ => .isTrue trivial

instance (fn : FuncId) (block : Block) : Decidable (block.BelongsTo fn) :=
  decidable_of_iff ((∀ line ∈ block.lines, ∀ v ∈ line.inst.operands, v.BelongsTo fn) ∧
      ∀ t ∈ block.term, ∀ v ∈ t.operands, v.BelongsTo fn)
    ⟨fun h => ⟨h.1, h.2⟩, fun h => ⟨h.lines, h.term⟩⟩

instance (fn : FuncId) (blocks : List Block) : Decidable (SelfContained fn blocks) :=
  inferInstanceAs (Decidable (∀ block ∈ blocks, block.BelongsTo fn))

theorem Value.belongsTo_of_isConstant {fn : FuncId} {v : Value} (h : v.isConstant = true) :
    v.BelongsTo fn := by
  cases v with
  | param | computed => cases h
  | _ => trivial

end Ir

namespace Body

/-- The body refers to no parameter and no result of another function. -/
def SelfContained (b : Body) : Prop := Ir.SelfContained b.fn b.closed

/-- The definition that a body belongs to; none for the top-level code. -/
def owner (b : Body) : Option NodeId := b.head.map fun h => h.site.id

theorem Kept.owner {b b' : Body} (h : Kept b b') : b'.owner = b.owner := by
  unfold Body.owner
  rw [h.head]

theorem selfContained_iff {b : Body} : b.SelfContained ↔
    b.All (fun inst => ∀ v ∈ inst.operands, v.BelongsTo b.fn)
      fun t => ∀ v ∈ t.operands, v.BelongsTo b.fn := by
  constructor
  · intro h
    exact .of_closed fun block hm => ⟨(h block hm).lines, (h block hm).term⟩
  · intro h block hm
    have all := h.closed (by simp [Ir.Term.operands]) block hm
    exact ⟨all.lines, all.term⟩

theorem selfContained_start (fn : Ir.FuncId) (head : Option FuncHead) (result : Ty) :
    SelfContained { fn, head, result } := selfContained_iff.mpr (.start fn head result)

namespace SelfContained

variable {b : Body}

theorem finish (h : b.SelfContained) {t : Ir.Term} (ho : ∀ v ∈ t.operands, v.BelongsTo b.fn) :
    (b.finish t).SelfContained := by
  rw [selfContained_iff, finish_fn]
  exact (selfContained_iff.mp h).finish ho

theorem addBlock (h : b.SelfContained) (name : String) : (b.addBlock name).SelfContained :=
  selfContained_iff.mpr ((selfContained_iff.mp h).addBlock name)

theorem moveToEnd (h : b.SelfContained) (l : Ir.Label) : (b.moveToEnd l).SelfContained :=
  selfContained_iff.mpr ((selfContained_iff.mp h).moveToEnd l)

theorem dropBlock (h : b.SelfContained) (l : Ir.Label) : (b.dropBlock l).SelfContained :=
  selfContained_iff.mpr ((selfContained_iff.mp h).dropBlock l)

end SelfContained

end Body

/-- Code whose operands belong to the function keeps a body self-contained. -/
theorem Grows.selfContained {fn : Ir.FuncId} {b b' : Body} {c : Code}
    (h : Grows (Ir.Value.BelongsTo fn) b c b') (hfn : b.fn = fn) (hb : b.SelfContained) :
    b'.SelfContained := by
  subst hfn
  rw [Body.selfContained_iff, h.kept.fn]
  refine h.all (fun _ ho => ho) (fun _ ho => ho) (fun isAnd => ?_) (Body.selfContained_iff.mp hb)
  exact Ir.Value.belongsTo_of_isConstant (by cases isAnd <;> rfl)

end TreeLowering
