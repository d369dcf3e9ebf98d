import TreeLowering.Proofs.Construction

/-!
What is built stays. A block that has ended stays as it is, and the block of the cursor only gets
longer until it ends. So the blocks of a body at any time are found again in the blocks at the end,
which is all that a run of the finished blocks needs to know about how they were built.
-/
namespace TreeLowering

/-- The blocks of a body are found in others: those that have ended are the same there, and the one
    of the cursor is a part of one that has ended or that `cursor` is in. -/
structure Held (b : Body) (blocks : List Ir.Block) (cursor : Option Ir.Label) : Prop where
  ended : ∀ id block, b.block? id = some block → block.term.isSome →
    Ir.findBlock blocks id = some block
  cursor : ∀ l block, b.cursor = some l → b.block? l.id = some block →
    ∃ block', Ir.findBlock blocks l.id = some block' ∧ block'.label = block.label ∧
      block.lines <+: block'.lines ∧ (block'.term.isSome ∨ cursor = some l)

/-- What was built stays in another body. -/
abbrev Leads (b b' : Body) : Prop := Held b b'.blocks b'.cursor

namespace Held

variable {P : List Ir.Label} {b b' : Body} {blocks : List Ir.Block} {cursor : Option Ir.Label}

theorem trans (h₁ : Leads b b') (h₂ : Held b' blocks cursor) : Held b blocks cursor where
  ended id block hb ht := h₂.ended id block (h₁.ended id block hb ht) ht
  cursor l block hc hb := by
    obtain ⟨block', hb', hl', hp', hdone⟩ := h₁.cursor l block hc hb
    rcases hdone with ht | hc'
    · exact ⟨block', h₂.ended _ _ hb' ht, hl', hp', .inl ht⟩
    · obtain ⟨block'', hb'', hl'', hp'', hdone⟩ := h₂.cursor l block' hc' hb'
      exact ⟨block'', hb'', hl''.trans hl', hp'.trans hp'', hdone⟩

/-- Where all has ended, the cursor may be anywhere. -/
theorem any (h : Held b blocks none) : Held b blocks cursor where
  ended := h.ended
  cursor l block hc hb := by
    obtain ⟨block', hb', hl, hp, hdone⟩ := h.cursor l block hc hb
    exact ⟨block', hb', hl, hp, .inl (hdone.resolve_right (by simp))⟩

/-- Without its cursor less of a body has to be found. -/
theorem halt (h : Held b blocks cursor) (hb : b'.blocks = b.blocks) :
    Held b'.halt blocks cursor where
  ended id block hblock := h.ended id block (by rwa [Body.block?, ← hb])
  cursor l _ hc := by cases hc

theorem of_blocks_eq (hb : b'.blocks = b.blocks) (hc : b'.cursor = b.cursor) : Leads b b' where
  ended id block h _ := by rwa [hb]
  cursor l block hl h := ⟨block, by rwa [hb], rfl, List.prefix_refl _, .inr (hc ▸ hl)⟩

theorem refl (b : Body) : Leads b b := of_blocks_eq rfl rfl

theorem addBlock (b : Body) (name : String) : Leads b (b.addBlock name) where
  ended _ _ h _ := Body.block?_addBlock_of_some name h
  cursor _ block hl h :=
    ⟨block, Body.block?_addBlock_of_some name h, rfl, List.prefix_refl _, .inr hl⟩

theorem moveToEnd (b : Body) (l : Ir.Label) : Leads b (b.moveToEnd l) where
  ended _ _ h _ := Body.block?_moveToEnd.trans h
  cursor _ block hl h :=
    ⟨block, Body.block?_moveToEnd.trans h, rfl, List.prefix_refl _, .inr hl⟩

/-- Ending the block of the cursor ends all that is not pending. -/
theorem finish (h : Shaped P b) (t : Ir.Term) : Held b (b.finish t).blocks none where
  ended id block hb ht := by
    cases hc : b.cursor with
    | none => rwa [Body.finish_eq_self hc]
    | some l =>
      have hne := h.ne_cursor_of_ended hb ht hc
      rw [← Body.block?, Body.block?_finish hc, hb]
      simp [hne]
  cursor l block hc hb := by
    refine ⟨{ block with term := some t }, ?_, rfl, List.prefix_refl _, .inl rfl⟩
    rw [← Body.block?, Body.block?_finish hc, hb]
    simp

theorem of_finish {t : Ir.Term} (h : Shaped P b) (hF : Held (b.finish t).halt blocks cursor) :
    Held b blocks cursor := by
  have hall : Leads b (b.finish t).halt := finish h t
  exact hall.trans hF

theorem emit (h : Shaped P b) (inst : Ir.Inst) (type : Ir.Ty) : Leads b (b.emit inst type) where
  ended id block hb ht := by
    cases hc : b.cursor with
    | none =>
      have he : b.emit inst type = b := by simp [Body.emit, hc]
      rwa [he]
    | some l =>
      have hne := h.ne_cursor_of_ended hb ht hc
      rw [← Body.block?, Body.block?_emit hc, hb]
      simp [hne]
  cursor l block hc hb := by
    refine ⟨{ block with lines := block.lines ++ [⟨b.lineCount, inst, type⟩] }, ?_, rfl,
      List.prefix_append _ _, .inr (by simpa using hc)⟩
    rw [← Body.block?, Body.block?_emit hc, hb]
    simp

/-- A pending block that goes away had not ended. -/
theorem drop {l : Ir.Label} (h : Shaped (l :: P) b.halt) :
    Held b.halt (b.dropBlock l).blocks none where
  ended id block hb ht := by
    -- The pending block is empty, so it has not ended.
    have hne : id ≠ l.id := by
      intro he
      rw [he, (h.empty l List.mem_cons_self).2] at hb
      cases hb
      cases ht
    rw [← Body.block?, Body.block?_dropBlock, if_neg hne]
    exact hb
  cursor l _ hc := by cases hc

theorem closeJoin {l : Ir.Label} (h : Shaped (l :: P) b.halt) (reached : Bool) :
    Leads b.halt (b.closeJoin l reached) := by
  cases reached with
  | true => exact (moveToEnd b.halt l : Held b.halt _ none).any
  | false => exact drop h

section
variable (h : Shaped P b)
include h

theorem fork (isAnd : Bool) (x : Ir.Value) : Leads b (b.fork isAnd x) :=
  (addBlock b _).trans ((addBlock _ _).trans (finish ((h.addBlock _).addBlock _) _).any)

theorem arm (otherwise : String) (x : Ir.Value) : Leads b (b.arm otherwise x) :=
  (addBlock b _).trans ((addBlock _ _).trans (finish ((h.addBlock _).addBlock _) _).any)

theorem lastArm (done : Ir.Label) (x : Ir.Value) : Leads b (b.lastArm done x) :=
  (addBlock b _).trans (finish (h.addBlock _) _).any

theorem whileTest : Leads b b.whileTest :=
  (addBlock b _).trans ((addBlock _ _).trans ((addBlock _ _).trans
    (finish (((h.addBlock _).addBlock _).addBlock _) _).any))

theorem forTest : Leads b b.forTest :=
  (addBlock b _).trans ((addBlock _ _).trans ((addBlock _ _).trans ((addBlock _ _).trans
    (finish ((((h.addBlock _).addBlock _).addBlock _).addBlock _) _).any)))

end

end Held

/-- What was built stays while code is added. -/
theorem Grows.leads {Q : Ir.Value → Prop} {b b' : Body} {c : Code} (h : Grows Q b c b') :
    ∀ {P : List Ir.Label}, Shaped P b → Leads b b' := by
  induction h with
  | nil b => exact fun _ => .refl b
  | seq h₁ _ ih₁ ih₂ => exact fun hs => (ih₁ hs).trans (ih₂ (h₁.shaped hs).1)
  | vars type _ _ => exact fun _ => .of_blocks_eq rfl rfl
  | line type _ _ _ _ => exact fun hs => .emit hs _ type
  | @decide b b₁ right x y start finish isAnd _ _ hr _ _ ih =>
    intro P hs
    have s₁ := (hr.shaped (hs.fork isAnd x)).1
    have hjoin : Leads b₁ (b₁.rejoin (b.joinLabel isAnd)) := (Held.finish s₁ _).any
    exact (Held.fork hs isAnd x).trans ((ih (hs.fork isAnd x)).trans (hjoin.trans
      (.emit s₁.rejoin.1 _ _)))

/-- The test of a loop ends what is not pending. -/
theorem Tests.held {P : List Ir.Label} {b b' : Body} {cond : Option Cond} {start exit : Ir.Label}
    (h : Tests b cond start exit b') (hs : Shaped P b) : Held b b'.blocks none := by
  cases h with
  | always _ => exact .finish hs _
  | on _ hg => exact (hg.leads hs).trans (.finish (hg.shaped hs).1 _)

/-- What was built stays while statements are added. -/
theorem Builds.leads {k : Option Ir.Label} {b b' : Body} {f : Flow} {r : Bool}
    (h : Builds k b f r b') : ∀ {P : List Ir.Label}, Shaped (k.toList ++ P) b →
    Leads b (b'.settle k) := by
  induction h with
  | skip _ => exact fun _ => .refl _
  | code _ hg => exact fun hs => hg.leads hs
  | seq h₁ _ ih₁ ih₂ => exact fun hs => (ih₁ hs).trans (ih₂ (h₁.shaped hs).1)
  | jump _ _ _ => exact fun hs => (Held.finish hs _).any
  | ret _ _ hg => exact fun hs => (hg.leads hs).trans (Held.finish (hg.shaped hs).1 _).any
  | @whileLoop b b₁ b₂ cond f r _ hg h ih =>
    intro P hs
    have s₀ := hs.whileTest.1
    have s₁ := hs.whileBody hg (cond.value b.fn)
    have enter : Leads b₁
        (((b₁.finish (.condBr (cond.value b.fn) b.whileStart b.whileExit)).enterLoop
          b.whileLoop).goto b.whileStart) := (Held.finish (hg.shaped s₀).1 _).any
    exact (Held.whileTest hs).trans ((hg.leads s₀).trans (enter.trans ((ih s₁).trans
      (Held.finish (h.shaped s₁).1 _).any)))
  | @forLoop b b₁ b₂ b₃ cond f g r r' _ ht h₁ h₂ ih₁ ih₂ =>
    intro P hs
    have s₁ := hs.forBody ht
    have s₂ := (h₁.shaped s₁).1
    have enter : Leads b.forTest ((b₁.enterLoop b.forLoop).goto b.forStart) :=
      (ht.held hs.forTest.1).any
    have next : Leads b₂ ((b₂.finish (.br b.forNext)).exitLoop.goto b.forNext) :=
      (Held.finish s₂ _).any
    exact (Held.forTest hs).trans (enter.trans ((ih₁ s₁).trans (next.trans ((ih₂ s₂.forNext).trans
      (Held.finish (h₂.shaped s₂.forNext).1 _).any))))
  | @choose b b₁ f r h ih =>
    intro P hs
    have s₀ := hs.addBlock "if.done"
    exact (Held.addBlock b _).trans ((ih (P := P) s₀).trans (.closeJoin (h.shaped s₀).1 r))
  | @last b b₁ b₂ done cond f r _ hg h ih =>
    intro P hs
    have s₁ := (hg.shaped hs).1
    have s₂ := s₁.lastArm List.mem_cons_self (cond.value b.fn)
    exact (hg.leads hs).trans ((Held.lastArm s₁ _ _).trans ((ih s₂).trans
      (Held.finish (h.shaped s₂).1 _).any))
  | @arm b b₁ b₂ b₃ done cond f g r r' otherwise _ hg h₁ _ ih₁ ih₂ =>
    intro P hs
    have s₁ := (hg.shaped hs).1
    have s₂ := s₁.arm otherwise (cond.value b.fn)
    have s₃ := (h₁.shaped s₂).1
    have next : Leads b₂ ((b₂.finish (.br done)).goto
        ((b₁.addBlock "if.then").nextLabel otherwise)) := (Held.finish s₃ _).any
    exact (hg.leads hs).trans ((Held.arm s₁ _ _).trans ((ih₁ s₂).trans (next.trans
      (ih₂ (P := P) (s₃.move (s₃.target_br (by simp)))))))
  | @final b b₁ done f r h ih =>
    intro P hs
    exact (ih (P := done :: P) hs).trans (Held.finish (h.shaped (P := done :: P) hs).1 _).any

end TreeLowering
