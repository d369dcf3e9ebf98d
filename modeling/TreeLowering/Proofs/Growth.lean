import TreeLowering.Proofs.Layout

/-!
What every growth of a body keeps: its function, its result and its loops, and counters that only
go up. A flow leaves the cursor somewhere exactly if its end is reached, which is exactly if it does
not divert.
-/
namespace TreeLowering

namespace Body.Kept

section
variable (b : Body) (l : Ir.Label) (name : String) (inst : Ir.Inst) (type : Ir.Ty) (t : Ir.Term)

theorem addBlock : Kept b (b.addBlock name) :=
  ⟨rfl, rfl, rfl, rfl, Nat.le_succ _, Nat.le_refl _⟩

theorem addVarsLine : Kept b (b.addVarsLine inst type) :=
  ⟨rfl, rfl, rfl, rfl, Nat.le_refl _, Nat.le_succ _⟩

theorem emit : Kept b (b.emit inst type) := by
  unfold Body.emit
  split
  · exact ⟨rfl, rfl, rfl, rfl, Nat.le_refl _, Nat.le_succ _⟩
  · exact .refl b

theorem finish : Kept b (b.finish t) := by
  unfold Body.finish
  split
  · exact ⟨rfl, rfl, rfl, rfl, Nat.le_refl _, Nat.le_refl _⟩
  · exact .refl b

theorem goto : Kept b (b.goto l) := ⟨rfl, rfl, rfl, rfl, Nat.le_refl _, Nat.le_refl _⟩

theorem halt : Kept b b.halt := ⟨rfl, rfl, rfl, rfl, Nat.le_refl _, Nat.le_refl _⟩

theorem closeJoin (reached : Bool) : Kept b (b.closeJoin l reached) := by
  unfold Body.closeJoin
  split <;> exact ⟨rfl, rfl, rfl, rfl, Nat.le_refl _, Nat.le_refl _⟩

theorem fork (isAnd : Bool) (left : Ir.Value) : Kept b (b.fork isAnd left) :=
  (addBlock b _).trans ((addBlock _ _).trans ((finish _ _).trans (goto _ _)))

theorem rejoin : Kept b (b.rejoin l) := (finish b _).trans (goto _ _)

theorem arm (cond : Ir.Value) : Kept b (b.arm name cond) :=
  (addBlock b _).trans ((addBlock _ _).trans ((finish _ _).trans (goto _ _)))

theorem lastArm (cond : Ir.Value) : Kept b (b.lastArm l cond) :=
  (addBlock b _).trans ((finish _ _).trans (goto _ _))

theorem whileTest : Kept b b.whileTest :=
  (addBlock b _).trans ((addBlock _ _).trans ((addBlock _ _).trans
    ((finish _ _).trans (goto _ _))))

theorem forTest : Kept b b.forTest :=
  (addBlock b _).trans ((addBlock _ _).trans ((addBlock _ _).trans ((addBlock _ _).trans
    ((finish _ _).trans (goto _ _)))))

end

/-- A loop that is entered and left again keeps what its inside keeps. -/
theorem inLoop {a b : Body} {loop : Loop} (h : Kept (a.enterLoop loop) b) (t : Ir.Term) :
    Kept a (b.finish t).exitLoop := by
  have h := h.trans (finish b t)
  exact ⟨h.fn, h.head, h.result, by rw [exitLoop_loops, h.loops]; rfl, h.blockCount, h.lineCount⟩

end Body.Kept

open Body (Kept)

/-! ## Code -/

section
variable {Q : Ir.Value → Prop} {b b' : Body} {c : Code}

theorem Grows.kept (h : Grows Q b c b') : Kept b b' := by
  induction h with
  | nil b => exact .refl b
  | seq _ _ ih₁ ih₂ => exact ih₁.trans ih₂
  | vars type _ _ => exact .addVarsLine _ _ type
  | line type _ _ _ _ => exact .emit _ _ type
  | decide isAnd _ _ _ _ _ ih =>
    exact (Kept.fork _ isAnd _).trans (ih.trans ((Kept.rejoin _ _).trans (Kept.emit _ _ _)))

/-- The cursor stays in its block or moves to a new one. -/
theorem Grows.cursor (h : Grows Q b c b') :
    b'.cursor = b.cursor ∨ ∃ l, b'.cursor = some l ∧ b.blockCount + 2 ≤ l.id := by
  induction h with
  | nil b => exact .inl rfl
  | seq h₁ _ ih₁ ih₂ =>
    rcases ih₂ with h | ⟨l, hl, hid⟩
    · rw [h]
      exact ih₁
    · have := h₁.kept.blockCount
      exact .inr ⟨l, hl, by omega⟩
  | vars type _ _ => exact .inl rfl
  | line type _ _ _ _ => exact .inl (by simp)
  | @decide b b₁ _ _ _ _ _ isAnd _ _ _ _ _ _ =>
    refine .inr ⟨b.joinLabel isAnd, by simp [Body.rejoin], ?_⟩
    simp only [Body.joinLabel, Body.nextLabel_id, Body.addBlock_blockCount]
    omega

theorem Grows.live (h : Grows Q b c b') (hl : b.cursor.isSome) : b'.cursor.isSome := by
  rcases h.cursor with hc | ⟨l, hc, _⟩
  · rwa [hc]
  · rw [hc]
    rfl

end

/-! ## Statements -/

section
variable {k : Option Ir.Label} {b b' : Body} {f : Flow} {r : Bool}

theorem Tests.kept {cond : Option Cond} {start exit : Ir.Label}
    (h : Tests b cond start exit b') : Kept b b' := by
  cases h with
  | always _ => exact .finish _ _
  | on _ hg => exact hg.kept.trans (.finish _ _)

theorem Builds.kept (h : Builds k b f r b') : Kept b b' := by
  induction h with
  | skip _ => exact .refl _
  | code _ hg => exact hg.kept
  | seq _ _ ih₁ ih₂ => exact ih₁.trans ih₂
  | jump _ _ _ => exact (Kept.finish _ _).trans (.halt _)
  | ret _ _ hg => exact hg.kept.trans ((Kept.finish _ _).trans (.halt _))
  | whileLoop _ hg _ ih =>
    have inside := (Kept.goto _ _).trans ih
    exact (Kept.whileTest _).trans (hg.kept.trans ((Kept.finish _ _).trans
      ((inside.inLoop _).trans (.goto _ _))))
  | forLoop _ ht _ _ ih₁ ih₂ =>
    have inside := (Kept.goto _ _).trans ih₁
    exact (Kept.forTest _).trans (ht.kept.trans ((inside.inLoop _).trans ((Kept.goto _ _).trans
      (ih₂.trans ((Kept.finish _ _).trans (.goto _ _))))))
  | choose _ ih => exact (Kept.addBlock _ _).trans (ih.trans (.closeJoin _ _ _))
  | last _ hg _ ih =>
    exact hg.kept.trans ((Kept.lastArm _ _ _).trans (ih.trans ((Kept.finish _ _).trans
      (.goto _ _))))
  | arm _ _ hg _ _ ih₁ ih₂ =>
    exact hg.kept.trans ((Kept.arm _ _ _).trans (ih₁.trans ((Kept.finish _ _).trans
      ((Kept.goto _ _).trans ih₂))))
  | final _ ih => exact ih.trans (.finish _ _)

/-- Statements are only built where there is a place for them. -/
theorem Builds.cursor_isSome (h : Builds none b f r b') : b'.cursor.isSome = r := by
  generalize hk : (none : Option Ir.Label) = k at h
  induction h with
  | skip hl => exact hl
  | code hl hg => exact hg.live hl
  | seq _ _ _ ih => exact ih hk
  | jump _ _ _ => rfl
  | ret _ _ _ => rfl
  | whileLoop _ _ _ _ => rfl
  | forLoop _ _ _ _ _ _ => rfl
  | @choose _ _ _ r _ _ => cases r <;> rfl
  | last _ _ _ _ => cases hk
  | arm _ _ _ _ _ _ _ => cases hk
  | final _ _ => cases hk

theorem Builds.diverts (h : Builds k b f r b') : f.diverts = !r := by
  induction h with
  | skip _ => rfl
  | code _ _ => rfl
  | seq _ _ ih₁ ih₂ => simp [Flow.diverts, ih₁, ih₂]
  | jump _ _ _ => rfl
  | ret _ _ _ => rfl
  | whileLoop _ _ _ _ => rfl
  | forLoop _ _ _ _ _ _ => rfl
  | choose _ ih => exact ih
  | last _ _ _ _ => simp [Flow.diverts]
  | arm _ _ _ _ _ ih₁ ih₂ => simp [Flow.diverts, ih₁, ih₂]
  | final _ ih => exact ih

end

end TreeLowering
