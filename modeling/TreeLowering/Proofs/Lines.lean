import TreeLowering.Proofs.Growth

/-!
What holds of every instruction and every terminator of a body. Lowering changes a body in few ways,
and each of them keeps such a property if what it adds has the property.
-/
namespace TreeLowering

/-- The instructions and the terminator of a block satisfy `I` and `T`. -/
structure Ir.Block.All (I : Ir.Inst → Prop) (T : Ir.Term → Prop) (block : Ir.Block) : Prop where
  lines : ∀ line ∈ block.lines, I line.inst
  term : ∀ t, block.term = some t → T t

namespace Body

/-- The instructions and the terminators of a body satisfy `I` and `T`. -/
structure All (I : Ir.Inst → Prop) (T : Ir.Term → Prop) (b : Body) : Prop where
  vars : ∀ line ∈ b.vars, I line.inst
  blocks : ∀ block ∈ b.blocks, block.All I T

namespace All

variable {I I' : Ir.Inst → Prop} {T : Ir.Term → Prop} {b b' : Body}

theorem empty (label : Ir.Label) : Ir.Block.All I T { label } := ⟨by simp, by simp⟩

theorem start (fn : Ir.FuncId) (head : Option FuncHead) (result : Ty) :
    All I T { fn, head, result } := by
  refine ⟨by simp, fun block hm => ?_⟩
  rw [List.mem_singleton.mp hm]
  exact empty _

theorem mono (h : b.All I T) (hi : ∀ inst, I inst → I' inst) : b.All I' T :=
  ⟨fun line hl => hi _ (h.vars line hl),
    fun block hm => ⟨fun line hl => hi _ ((h.blocks block hm).lines line hl),
      (h.blocks block hm).term⟩⟩

/-- The block with the stack slots ends with a branch. -/
theorem closed (h : b.All I T) (hb : T (.br entryLabel)) : ∀ block ∈ b.closed, block.All I T := by
  intro block hm
  rcases List.mem_cons.mp hm with rfl | hm
  · exact ⟨h.vars, fun t ht => Option.some.inj ht ▸ hb⟩
  · exact h.blocks block hm

theorem of_closed (h : ∀ block ∈ b.closed, block.All I T) : b.All I T :=
  ⟨(h _ List.mem_cons_self).lines, fun block hm => h block (List.mem_cons_of_mem _ hm)⟩

theorem of_subset (h : b.All I T) (hv : b'.vars = b.vars)
    (hb : ∀ block ∈ b'.blocks, block ∈ b.blocks) : b'.All I T :=
  ⟨hv ▸ h.vars, fun block hm => h.blocks block (hb block hm)⟩

theorem addVarsLine (h : b.All I T) {inst : Ir.Inst} (type : Ir.Ty) (hi : I inst) :
    (b.addVarsLine inst type).All I T := by
  refine ⟨fun line hl => ?_, h.blocks⟩
  rcases List.mem_append.mp hl with hl | hl
  · exact h.vars line hl
  · rw [List.mem_singleton.mp hl]
    exact hi

theorem updateBlock (h : b.All I T) (l : Ir.Label) {f : Ir.Block → Ir.Block}
    (hf : ∀ block, block.All I T → (f block).All I T) : (b.updateBlock l f).All I T := by
  refine ⟨h.vars, fun block hm => ?_⟩
  obtain ⟨old, hold, rfl⟩ := List.mem_map.mp hm
  split
  · exact hf old (h.blocks old hold)
  · exact h.blocks old hold

theorem addLine (h : b.All I T) (l : Ir.Label) {inst : Ir.Inst} (type : Ir.Ty) (hi : I inst) :
    (b.addLine l inst type).All I T := by
  have updated : (b.updateBlock l fun block =>
      { block with lines := block.lines ++ [⟨b.lineCount, inst, type⟩] }).All I T := by
    refine h.updateBlock l fun block hb => ⟨fun line hl => ?_, hb.term⟩
    rcases List.mem_append.mp hl with hl | hl
    · exact hb.lines line hl
    · rw [List.mem_singleton.mp hl]
      exact hi
  exact ⟨updated.vars, updated.blocks⟩

theorem emit (h : b.All I T) {inst : Ir.Inst} (type : Ir.Ty) (hi : I inst) :
    (b.emit inst type).All I T := by
  unfold Body.emit
  split
  · exact h.addLine _ type hi
  · exact h

theorem setTerm (h : b.All I T) (l : Ir.Label) {t : Ir.Term} (ht : T t) :
    (b.setTerm l t).All I T :=
  h.updateBlock l fun _ hb => ⟨hb.lines, fun _ he => Option.some.inj he ▸ ht⟩

theorem finish (h : b.All I T) {t : Ir.Term} (ht : T t) : (b.finish t).All I T := by
  unfold Body.finish
  split
  · exact h.setTerm _ ht
  · exact h

theorem addBlock (h : b.All I T) (name : String) : (b.addBlock name).All I T := by
  refine ⟨h.vars, fun block hm => ?_⟩
  rcases List.mem_append.mp hm with hm | hm
  · exact h.blocks block hm
  · rw [List.mem_singleton.mp hm]
    exact empty _

theorem moveToEnd (h : b.All I T) (l : Ir.Label) : (b.moveToEnd l).All I T := by
  refine h.of_subset rfl fun block hm => ?_
  rcases List.mem_append.mp hm with hm | hm <;> exact (List.mem_filter.mp hm).1

theorem goto (h : b.All I T) (l : Ir.Label) : (b.goto l).All I T := ⟨h.vars, h.blocks⟩

theorem dropBlock (h : b.All I T) (l : Ir.Label) : (b.dropBlock l).All I T :=
  h.of_subset rfl fun _ hm => (List.mem_filter.mp hm).1

end All

end Body

/-- Code whose operands satisfy `Q` keeps what holds of everything with such operands. -/
theorem Grows.all {Q : Ir.Value → Prop} {I : Ir.Inst → Prop} {T : Ir.Term → Prop} {b b' : Body}
    {c : Code} (h : Grows Q b c b') (insts : ∀ inst : Ir.Inst, (∀ v ∈ inst.operands, Q v) → I inst)
    (terms : ∀ t : Ir.Term, (∀ v ∈ t.operands, Q v) → T t)
    (truth : ∀ isAnd, Q (Body.decided isAnd)) (hb : b.All I T) : b'.All I T := by
  induction h with
  | nil b => exact hb
  | seq _ _ ih₁ ih₂ => exact ih₂ (ih₁ hb)
  | vars type _ ho => exact hb.addVarsLine type (insts _ ho)
  | line type _ _ _ ho => exact hb.emit type (insts _ ho)
  | @decide b b₁ right x y start finish isAnd _ hx _ _ hy ih =>
    have decision : ∀ v ∈ (b.decision isAnd x).operands, Q v := by
      cases isAnd <;> simpa [Body.decision, Ir.Term.operands] using hx
    have right := ih ((((hb.addBlock _).addBlock _).finish (terms _ decision)).goto _)
    have join := (right.finish (terms (.br (b.joinLabel isAnd)) nofun)).goto (b.joinLabel isAnd)
    refine join.emit _ (insts _ ?_)
    simpa [Body.joined, Ir.Inst.operands, hy] using truth isAnd

end TreeLowering
