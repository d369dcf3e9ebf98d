import TreeLowering.Proofs.Shape

/-!
Growth keeps the shape. Code adds edges to new blocks only; statements add edges to new blocks, to
the targets of the loops around them, and to the join that they end in. A join that no arm reaches
has no edge to it and can be removed.
-/
namespace TreeLowering

/-! ## Code -/

/-- What code keeps of the graph. -/
structure Extended (b b' : Body) : Prop where
  target : ∀ l, b.Target l → b'.Target l
  edge : ∀ p q, b.Edge p q → b'.Edge p q
  fresh : ∀ p q, b'.Edge p q → b.Edge p q ∨ b.blockCount + 2 ≤ q.id

namespace Extended

theorem refl (b : Body) : Extended b b := ⟨fun _ h => h, fun _ _ h => h, fun _ _ h => .inl h⟩

theorem trans {a b c : Body} (hk : a.blockCount ≤ b.blockCount) (h₁ : Extended a b)
    (h₂ : Extended b c) : Extended a c where
  target l h := h₂.target l (h₁.target l h)
  edge p q h := h₂.edge p q (h₁.edge p q h)
  fresh p q h := by
    rcases h₂.fresh p q h with h | h
    · exact h₁.fresh p q h
    · exact .inr (by omega)

end Extended

section
variable {P : List Ir.Label} {b b' : Body} {isAnd : Bool} {x : Ir.Value}

theorem rightLabel_id : (b.rightLabel isAnd).id = b.blockCount + 2 := rfl

theorem joinLabel_id : (b.joinLabel isAnd).id = b.blockCount + 3 := rfl

theorem decision_successors {q : Ir.Label} :
    q ∈ (b.decision isAnd x).successors ↔ q = b.rightLabel isAnd ∨ q = b.joinLabel isAnd := by
  cases isAnd <;> simp [Body.decision, Ir.Term.successors, or_comm]

theorem Shaped.fork (h : Shaped P b) (isAnd : Bool) (x : Ir.Value) :
    Shaped (b.joinLabel isAnd :: P) (b.fork isAnd x) := by
  have hs := (h.addBlock ((if isAnd then "and" else "or") ++ ".rhs")).addBlock
    ((if isAnd then "and" else "or") ++ ".done")
  have hl := hs.leave (t := b.decision isAnd x) fun q hq => hs.target_of_pending (by
    rcases decision_successors.mp hq with rfl | rfl
    · exact List.mem_cons_of_mem _ List.mem_cons_self
    · exact List.mem_cons_self)
  exact (hl.perm (.swap _ _ _)).enter rfl

theorem Shaped.edge_fork (h : Shaped P b) {p q : Ir.Label} :
    (b.fork isAnd x).Edge p q ↔ b.Edge p q ∨
      b.cursor = some p ∧ (q = b.rightLabel isAnd ∨ q = b.joinLabel isAnd) := by
  have hs := (h.addBlock ((if isAnd then "and" else "or") ++ ".rhs")).addBlock
    ((if isAnd then "and" else "or") ++ ".done")
  refine (hs.edge_finish (t := b.decision isAnd x)).trans ?_
  simp only [Body.edge_addBlock, Body.addBlock_cursor, decision_successors]

theorem Shaped.extended_fork (h : Shaped P b) : Extended b (b.fork isAnd x) where
  target l hl := ((hl.addBlock _).addBlock _).finish _
  edge p q he := h.edge_fork.mpr (.inl he)
  fresh p q he := by
    rcases h.edge_fork.mp he with he | ⟨-, rfl | rfl⟩
    · exact .inl he
    · exact .inr (Nat.le_of_eq rightLabel_id.symm)
    · exact .inr (by rw [joinLabel_id]; omega)

/-- The blocks that lead to the join of a short circuit are the one where the left operand ended and
    the one where the right operand ended. -/
theorem Shaped.edge_join (h : Shaped P b) {b₁ : Body} {start finish p : Ir.Label}
    (hs : b.cursor = some start) (h₁ : Shaped (b.joinLabel isAnd :: P) b₁)
    (hx : Extended (b.fork isAnd x) b₁) (hf : b₁.cursor = some finish) :
    (b₁.rejoin (b.joinLabel isAnd)).Edge p (b.joinLabel isAnd) ↔ p = start ∨ p = finish := by
  have hnone : ¬b.Edge p (b.joinLabel isAnd) := by
    intro he
    obtain ⟨-, block, hb, -⟩ := h.edges _ _ he
    have := h.fresh _ _ hb
    rw [joinLabel_id] at this
    omega
  have hfork : (b.fork isAnd x).Edge p (b.joinLabel isAnd) ↔ p = start := by
    rw [h.edge_fork, hs]
    simp [hnone, eq_comm]
  have hright : b₁.Edge p (b.joinLabel isAnd) ↔ p = start := by
    rw [← hfork]
    refine ⟨fun he => ?_, hx.edge p _⟩
    rcases hx.fresh p _ he with he | hid
    · exact he
    · rw [joinLabel_id] at hid
      have : (b.fork isAnd x).blockCount = b.blockCount + 2 := by simp [Body.fork]
      omega
  refine (h₁.edge_finish (t := .br (b.joinLabel isAnd))).trans ?_
  rw [hright, hf]
  simp [Ir.Term.successors, eq_comm]

theorem Shaped.rejoin {l : Ir.Label} (h : Shaped (l :: P) b) :
    Shaped P (b.rejoin l) ∧ (b.rejoin l).block? l.id = some { label := l } := by
  have hl := h.leave (t := .br l) fun q hq => by
    rw [List.mem_singleton.mp hq]
    exact h.target_of_pending List.mem_cons_self
  exact ⟨hl.enter rfl, (hl.empty l List.mem_cons_self).2⟩

end

/-- The operands of a short-circuit operator end in different blocks. -/
theorem Shaped.start_ne_finish {P : List Ir.Label} {b b₁ : Body} (h : Shaped P b) {isAnd : Bool}
    {x : Ir.Value} {Q : Ir.Value → Prop} {right : Code} {start finish : Ir.Label}
    (hs : b.cursor = some start) (hr : Grows Q (b.fork isAnd x) right b₁)
    (hf : b₁.cursor = some finish) : start ≠ finish := by
  rintro rfl
  obtain ⟨-, block, hb, -⟩ := h.cursor start hs
  have hold := h.fresh _ _ hb
  rcases hr.cursor with hcur | ⟨l, hcur, hid⟩
  · cases hf.symm.trans hcur
    rw [rightLabel_id] at hold
    omega
  · cases hf.symm.trans hcur
    have : (b.fork isAnd x).blockCount = b.blockCount + 2 := by simp [Body.fork]
    omega

/-- Code keeps the shape and extends the graph. -/
theorem Grows.shaped {Q : Ir.Value → Prop} {b b' : Body} {c : Code} (h : Grows Q b c b') :
    ∀ {P : List Ir.Label}, Shaped P b → Shaped P b' ∧ Extended b b' := by
  induction h with
  | nil b => exact fun hs => ⟨hs, .refl b⟩
  | seq h₁ h₂ ih₁ ih₂ =>
    intro P hs
    obtain ⟨s₁, e₁⟩ := ih₁ hs
    obtain ⟨s₂, e₂⟩ := ih₂ s₁
    exact ⟨s₂, e₁.trans h₁.kept.blockCount e₂⟩
  | vars type hp _ =>
    exact fun hs => ⟨hs.vars type hp, fun _ h => h, fun _ _ h => h, fun _ _ h => .inl h⟩
  | line type _ hp ha _ =>
    refine fun hs => ⟨hs.line type hp ha, fun l hl => hl.emit type (by simp [hp]), ?_, ?_⟩
    · exact fun p q he => Body.edge_emit.mpr he
    · exact fun p q he => .inl (Body.edge_emit.mp he)
  | @decide b b₁ right x y start finish isAnd hc _ hr hf _ ih =>
    intro P hs
    obtain ⟨s₁, e₁⟩ := ih (hs.fork isAnd x)
    have joined := fun p => hs.edge_join (p := p) hc s₁ e₁ hf
    obtain ⟨s₂, hempty⟩ := s₁.rejoin
    have hne := hs.start_ne_finish hc hr hf
    have old : ∀ l, b.Target l → (b.joinLabel isAnd).id ≠ l.id := by
      intro l hl
      have := hs.target_id_lt hl
      rw [joinLabel_id]
      omega
    refine ⟨s₂.emit rfl ?_ ?_, ?_, ?_, ?_⟩
    · -- The join was empty, so this is its first instruction.
      intro block hcur hb
      have hl : block.label = b.joinLabel isAnd := (Option.some.inj hcur).symm
      rw [hl] at hb ⊢
      cases hempty.symm.trans hb
      refine ⟨by simp, fun line incoming hline hphi => ?_⟩
      cases hline
      cases hphi
      exact ⟨by simp, by simpa using hne, fun p => by simp [joined p]⟩
    · intro _ c hcur loop hloop
      cases hcur
      have hloop : loop ∈ b.loops := by
        simpa [Body.rejoin, hr.kept.loops, (Body.Kept.fork b isAnd x).loops] using hloop
      exact ⟨old _ (hs.loops loop hloop).1, old _ (hs.loops loop hloop).2⟩
    · intro l hl
      have hl' : (b₁.rejoin (b.joinLabel isAnd)).Target l :=
        (e₁.target l (hs.extended_fork.target l hl)).finish _
      refine hl'.emit _ fun _ c hcur => ?_
      cases hcur
      exact old l hl
    · intro p q he
      have hfork : (b.fork isAnd x).Edge p q := hs.extended_fork.edge p q he
      exact Body.edge_emit.mpr (s₁.edge_finish.mpr (.inl (e₁.edge p q hfork)))
    · intro p q he
      have he : (b₁.rejoin (b.joinLabel isAnd)).Edge p q := Body.edge_emit.mp he
      rcases (s₁.edge_finish (t := .br (b.joinLabel isAnd))).mp he with he | ⟨-, hq⟩
      · exact (hs.extended_fork.trans (Body.Kept.fork b isAnd x).blockCount e₁).fresh p q he
      · rw [List.mem_singleton.mp hq, joinLabel_id]
        exact .inr (by omega)

/-! ## Statements -/

/-- Blocks that may be branched to stay so, and new edges only lead where `A` admits. -/
structure Reaches (A : Ir.Label → Prop) (b b' : Body) : Prop where
  target : ∀ l, b.Target l → b'.Target l
  edges : ∀ p q, b'.Edge p q → b.Edge p q ∨ A q

namespace Reaches

variable {A : Ir.Label → Prop} {a b b' : Body}

theorem of_blocks_eq (h : b'.blocks = b.blocks) : Reaches A b b' where
  target l hl := by
    unfold Body.Target Body.block? at *
    rwa [h]
  edges p q he := by
    unfold Body.Edge at *
    rw [h] at he
    exact .inl he

theorem goto (l : Ir.Label) : Reaches A b (b.goto l) := of_blocks_eq rfl

theorem enterLoop (loop : Loop) : Reaches A b (b.enterLoop loop) := of_blocks_eq rfl

theorem exitLoop : Reaches A b b.exitLoop := of_blocks_eq rfl

theorem trans (h₁ : Reaches A a b) (h₂ : Reaches A b b') : Reaches A a b' where
  target l hl := h₂.target l (h₁.target l hl)
  edges p q he := (h₂.edges p q he).elim (h₁.edges p q) .inr

theorem mono {A' : Ir.Label → Prop} (h : Reaches A b b') (hA : ∀ q, A q → A' q) :
    Reaches A' b b' where
  target := h.target
  edges p q he := (h.edges p q he).imp_right (hA q)

theorem addBlock (name : String) : Reaches A b (b.addBlock name) where
  target _ hl := hl.addBlock name
  edges _ _ he := .inl (Body.edge_addBlock.mp he)

theorem moveToEnd (l : Ir.Label) : Reaches A b (b.moveToEnd l) where
  target q hq := by
    unfold Body.Target at *
    rwa [Body.block?_moveToEnd]
  edges p q he := by
    rw [Body.edge_iff, Body.block?_moveToEnd] at he
    exact .inl he

theorem finish {t : Ir.Term} (h : b.cursor.isSome → ∀ q ∈ t.successors, A q) :
    Reaches A b (b.finish t) where
  target _ hl := hl.finish t
  edges p q he := by
    rcases Body.edge_finish he with he | ⟨⟨l, _, hc, _⟩, hq⟩
    · exact .inl he
    · exact .inr (h (by simp [hc]) q hq)

theorem of_extended (h : Extended b b') (hA : ∀ q, b.blockCount + 2 ≤ q.id → A q) :
    Reaches A b b' where
  target := h.target
  edges p q he := (h.fresh p q he).imp_right (hA q)

section
variable (hA : ∀ q : Ir.Label, b.blockCount + 2 ≤ q.id → A q)
include hA

theorem whileTest : Reaches A b b.whileTest :=
  ((addBlock _).trans (addBlock _)).trans ((addBlock _).trans ((finish fun _ q hq => by
    rw [List.mem_singleton.mp hq]
    exact hA _ (Nat.le_refl _)).trans (of_blocks_eq rfl)))

theorem forTest : Reaches A b b.forTest :=
  ((addBlock _).trans (addBlock _)).trans ((addBlock _).trans ((addBlock _).trans
    ((finish fun _ q hq => by
      rw [List.mem_singleton.mp hq]
      exact hA _ (Nat.le_refl _)).trans (of_blocks_eq rfl))))

theorem arm (otherwise : String) (x : Ir.Value) : Reaches A b (b.arm otherwise x) := by
  refine (addBlock _).trans ((addBlock _).trans ((finish fun _ q hq => ?_).trans
    (of_blocks_eq rfl)))
  simp only [Ir.Term.successors, List.mem_cons, List.not_mem_nil, or_false] at hq
  rcases hq with rfl | rfl
  · exact hA _ (Nat.le_refl _)
  · exact hA _ (Nat.le_succ _)

theorem lastArm {l : Ir.Label} (hl : A l) (x : Ir.Value) : Reaches A b (b.lastArm l x) := by
  refine (addBlock _).trans ((finish fun _ q hq => ?_).trans (of_blocks_eq rfl))
  simp only [Ir.Term.successors, List.mem_cons, List.not_mem_nil, or_false] at hq
  rcases hq with rfl | rfl
  · exact hA _ (Nat.le_refl _)
  · exact hl

end

end Reaches

/-- Where statements may lead: to new blocks, to the targets of the loops around them, and to the
    join that they end in if they reach it. -/
def Body.Exit (k : Option Ir.Label) (r : Bool) (b : Body) (q : Ir.Label) : Prop :=
  b.blockCount + 2 ≤ q.id ∨ (∃ loop ∈ b.loops, q = loop.exit ∨ q = loop.next) ∨
    (r = true ∧ k = some q)

theorem Body.Exit.weaken {k k' : Option Ir.Label} {r r' : Bool} {a b : Body} {q : Ir.Label}
    (h : b.Exit k r q) (hn : a.blockCount ≤ b.blockCount)
    (hl : ∀ loop ∈ b.loops, loop ∈ a.loops ∨
      a.blockCount + 2 ≤ loop.exit.id ∧ a.blockCount + 2 ≤ loop.next.id)
    (hr : r = true → k = some q → a.Exit k' r' q) : a.Exit k' r' q := by
  rcases h with h | ⟨loop, hm, hq⟩ | ⟨hr', hk⟩
  · exact .inl (Nat.le_trans (by omega) h)
  · rcases hl loop hm with hm | ⟨he, hn⟩
    · exact .inr (.inl ⟨loop, hm, hq⟩)
    · rcases hq with rfl | rfl
      · exact .inl he
      · exact .inl hn
  · exact hr hr' hk

/-- What statements inside lead to, seen from before them. -/
theorem Body.Exit.of_kept {k : Option Ir.Label} {r r' : Bool} {a b : Body} {q : Ir.Label}
    (h : b.Exit none r q) (hk : Body.Kept a b) : a.Exit k r' q :=
  h.weaken hk.blockCount (fun loop hl => .inl (hk.loops ▸ hl)) (by simp)

/-- The same for statements inside a new loop. -/
theorem Body.Exit.of_loop {k : Option Ir.Label} {r r' : Bool} {a b : Body} {loop : Loop}
    {q : Ir.Label} (h : (b.enterLoop loop).Exit none r q) (hk : Body.Kept a b)
    (he : a.blockCount + 2 ≤ loop.exit.id) (hn : a.blockCount + 2 ≤ loop.next.id) :
    a.Exit k r' q := by
  refine h.weaken hk.blockCount (fun loop' hl => ?_) (by simp)
  rcases List.mem_cons.mp hl with rfl | hl
  · exact .inr ⟨he, hn⟩
  · exact .inl (hk.loops ▸ hl)

/-- The body of which the shape is known after statements: before a join the cursor is of no
    account. -/
def Body.settle (k : Option Ir.Label) (b : Body) : Body :=
  match k with
  | none => b
  | some _ => b.halt

section
variable {P : List Ir.Label} {b b' : Body} {l : Ir.Label}

/-- The block of the cursor ends and a pending block is entered. -/
theorem Shaped.move (h : Shaped (l :: P) b) {t : Ir.Term}
    (ht : ∀ q ∈ t.successors, b.Target q) : Shaped P ((b.finish t).goto l) :=
  (h.leave ht).enter rfl

theorem Shaped.target_br (h : Shaped P b) (hl : l ∈ P) :
    ∀ q ∈ (Ir.Term.br l).successors, b.Target q := by
  intro q hq
  rw [List.mem_singleton.mp hq]
  exact h.target_of_pending hl

theorem Shaped.target_condBr (h : Shaped P b) {x : Ir.Value} {yes no : Ir.Label} (hy : yes ∈ P)
    (hn : no ∈ P) : ∀ q ∈ (Ir.Term.condBr x yes no).successors, b.Target q := by
  intro q hq
  simp only [Ir.Term.successors, List.mem_cons, List.not_mem_nil, or_false] at hq
  rcases hq with rfl | rfl
  · exact h.target_of_pending hy
  · exact h.target_of_pending hn

/-- The blocks of a `while` loop are made and its test begins. -/
theorem Shaped.whileTest (h : Shaped P b) :
    Shaped (b.whileExit :: b.whileStart :: P) b.whileTest ∧
      b.whileTest.Target (b.nextLabel "while.cond") := by
  have hs := ((h.addBlock "while.cond").addBlock "while.body").addBlock "while.done"
  have hm : b.nextLabel "while.cond" ∈ b.whileExit :: b.whileStart ::
      b.nextLabel "while.cond" :: P := by simp
  have hp : (b.whileExit :: b.whileStart :: b.nextLabel "while.cond" :: P).Perm
      (b.nextLabel "while.cond" :: b.whileExit :: b.whileStart :: P) :=
    ((List.Perm.swap _ _ _).cons _).trans (.swap _ _ _)
  exact ⟨(hs.perm hp).move (hs.target_br hm), (hs.target_of_pending hm).finish _⟩

/-- The blocks of a `for` loop are made and its test begins. -/
theorem Shaped.forTest (h : Shaped P b) :
    Shaped (b.forExit :: b.forNext :: b.forStart :: P) b.forTest ∧
      b.forTest.Target (b.nextLabel "for.cond") := by
  have hs := (((h.addBlock "for.cond").addBlock "for.body").addBlock "for.iter").addBlock
    "for.done"
  have hm : b.nextLabel "for.cond" ∈ b.forExit :: b.forNext :: b.forStart ::
      b.nextLabel "for.cond" :: P := by simp
  have hp : (b.forExit :: b.forNext :: b.forStart :: b.nextLabel "for.cond" :: P).Perm
      (b.nextLabel "for.cond" :: b.forExit :: b.forNext :: b.forStart :: P) :=
    ((((List.Perm.swap _ _ _).cons _).cons _).trans ((List.Perm.swap _ _ _).cons _)).trans
      (.swap _ _ _)
  exact ⟨(hs.perm hp).move (hs.target_br hm), (hs.target_of_pending hm).finish _⟩

theorem Tests.shaped {cond : Option Cond} {start exit : Ir.Label} (h : Tests b cond start exit b')
    (hs : Shaped P b) (h₁ : start ∈ P) (h₂ : exit ∈ P) :
    Shaped P b'.halt ∧ Reaches (fun q => b.blockCount + 2 ≤ q.id ∨ q = start ∨ q = exit) b b' := by
  cases h with
  | always _ =>
    refine ⟨hs.leave (hs.target_br h₁), .finish fun _ q hq => ?_⟩
    exact .inr (.inl (List.mem_singleton.mp hq))
  | on _ hg =>
    obtain ⟨s₁, e₁⟩ := hg.shaped hs
    refine ⟨s₁.leave (s₁.target_condBr h₁ h₂), (Reaches.of_extended e₁ fun q => .inl).trans
      (.finish fun _ q hq => ?_)⟩
    simpa [Ir.Term.successors] using Or.inr hq

/-- The body of a `while` loop begins. -/
theorem Shaped.whileBody {Q : Ir.Value → Prop} {code : Code} (h : Shaped P b)
    (hg : Grows Q b.whileTest code b') (x : Ir.Value) :
    Shaped (b.whileExit :: P)
      (((b'.finish (.condBr x b.whileStart b.whileExit)).enterLoop b.whileLoop).goto
        b.whileStart) := by
  obtain ⟨s₀, htest⟩ := h.whileTest
  obtain ⟨s₁, e₁⟩ := hg.shaped s₀
  have hstart : b.whileStart ∈ b.whileExit :: b.whileStart :: P := by simp
  have hexit : b.whileExit ∈ b.whileExit :: b.whileStart :: P := by simp
  have s₂ := (s₁.leave (s₁.target_condBr (x := x) hstart hexit)).enterLoop b.whileLoop
    ((s₁.target_of_pending hexit).finish _) ((e₁.target _ htest).finish _)
  exact (s₂.perm (.swap _ _ _)).enter rfl

/-- The body of a `for` loop begins. -/
theorem Shaped.forBody {cond : Option Cond} (h : Shaped P b)
    (ht : Tests b.forTest cond b.forStart b.forExit b') :
    Shaped (b.forNext :: b.forExit :: P) ((b'.enterLoop b.forLoop).goto b.forStart) := by
  obtain ⟨s₁, -⟩ := ht.shaped h.forTest.1 (by simp) (by simp)
  have s₂ := s₁.enterLoop b.forLoop (s₁.target_of_pending (by simp [Body.forLoop]))
    (s₁.target_of_pending (by simp [Body.forLoop]))
  have hp : (b.forExit :: b.forNext :: b.forStart :: P).Perm
      (b.forStart :: b.forNext :: b.forExit :: P) :=
    (List.Perm.swap _ _ _).trans ((List.Perm.swap _ _ _).cons _ |>.trans (.swap _ _ _))
  exact (s₂.perm hp).enter rfl

/-- What a `for` loop does after each round begins. -/
theorem Shaped.forNext (h : Shaped (l :: P) b) :
    Shaped P ((b.finish (.br l)).exitLoop.goto l) :=
  (h.leave (h.target_br List.mem_cons_self)).exitLoop.enter rfl

/-- An arm of a conditional begins, the block for when its condition fails being pending. -/
theorem Shaped.arm (h : Shaped P b) (otherwise : String) (x : Ir.Value) :
    Shaped ((b.addBlock "if.then").nextLabel otherwise :: P) (b.arm otherwise x) := by
  have hs := (h.addBlock "if.then").addBlock otherwise
  exact (hs.perm (.swap _ _ _)).move (hs.target_condBr (by simp) (by simp))

theorem Shaped.lastArm (h : Shaped P b) (hl : l ∈ P) (x : Ir.Value) : Shaped P (b.lastArm l x) :=
  (h.addBlock "if.then").move
    ((h.addBlock "if.then").target_condBr List.mem_cons_self (List.mem_cons_of_mem _ hl))

end

/-! ## Statements -/

/-- Statements lead from one body to another: the shape is kept, with the join pending before which
    they stand, and they lead only where statements may lead. -/
def Continues (k : Option Ir.Label) (r : Bool) (b b' : Body) : Prop :=
  ∀ P : List Ir.Label, Shaped (k.toList ++ P) b →
    Shaped (k.toList ++ P) (b'.settle k) ∧ Reaches (b.Exit k r) b b'

namespace Continues

variable {b b₁ b₂ b₃ : Body} {r r' : Bool} {done : Ir.Label}

theorem code {Q : Ir.Value → Prop} {c : Code} (hg : Grows Q b c b₁) :
    Continues none true b b₁ := by
  intro P hs
  obtain ⟨s₁, e₁⟩ := hg.shaped hs
  exact ⟨s₁, .of_extended e₁ fun q => .inl⟩

theorem seq (h₁ : Continues none true b b₁) (hk : b.Kept b₁) (h₂ : Continues none r b₁ b₂) :
    Continues none r b b₂ := by
  intro P hs
  obtain ⟨s₁, e₁⟩ := h₁ P hs
  obtain ⟨s₂, e₂⟩ := h₂ P s₁
  exact ⟨s₂, (e₁.mono fun q hq => hq.of_kept (.refl b)).trans
    (e₂.mono fun q hq => hq.of_kept hk)⟩

theorem jump {loop : Loop} {rest : List Loop} (isBreak : Bool) (hloops : b.loops = loop :: rest) :
    Continues none false b (b.finish (.br (if isBreak then loop.exit else loop.next))).halt := by
  intro P hs
  have hm : loop ∈ b.loops := by simp [hloops]
  have ht : ∀ q ∈ (Ir.Term.br (if isBreak then loop.exit else loop.next)).successors,
      b.Target q ∧ (q = loop.exit ∨ q = loop.next) := by
    intro q hq
    rw [List.mem_singleton.mp hq]
    cases isBreak
    · exact ⟨(hs.loops loop hm).2, .inr rfl⟩
    · exact ⟨(hs.loops loop hm).1, .inl rfl⟩
  exact ⟨hs.leave fun q hq => (ht q hq).1, (Reaches.finish fun _ q hq =>
    .inr (.inl ⟨loop, hm, (ht q hq).2⟩)).trans (.of_blocks_eq rfl)⟩

theorem ret {Q : Ir.Value → Prop} {c : Code} (hg : Grows Q b c b₁) (value : Option Ir.Value) :
    Continues none false b (b₁.finish (.ret value)).halt := by
  intro P hs
  obtain ⟨s₁, e₁⟩ := hg.shaped hs
  have none : ∀ q ∈ (Ir.Term.ret value).successors, False := by simp [Ir.Term.successors]
  exact ⟨s₁.leave fun q hq => (none q hq).elim, (Reaches.of_extended e₁ fun q => .inl).trans
    ((Reaches.finish fun _ q hq => (none q hq).elim).trans (.of_blocks_eq rfl))⟩

theorem whileLoop {code : Code} {x : Ir.Value} (hg : GrowsBy b.whileTest code b₁)
    (h : Continues none r (((b₁.finish (.condBr x b.whileStart b.whileExit)).enterLoop
      b.whileLoop).goto b.whileStart) b₂) :
    Continues none true b
      ((b₂.finish (.br (b.nextLabel "while.cond"))).exitLoop.goto b.whileExit) := by
  intro P hs
  obtain ⟨-, e₁⟩ := hg.shaped hs.whileTest.1
  have s₁ := hs.whileBody hg x
  obtain ⟨s₂, e₂⟩ := h (b.whileExit :: P) s₁
  -- The test is a block of its own, to which the innermost loop leads back.
  have s₃ := s₂.leave (t := .br (b.nextLabel "while.cond")) fun q hq => by
    rw [List.mem_singleton.mp hq]
    exact e₂.target _ (s₁.loops b.whileLoop List.mem_cons_self).2
  refine ⟨s₃.exitLoop.enter rfl, ?_⟩
  -- From here on: where each part of the loop leads.
  have fresh : ∀ q : Ir.Label, b.blockCount + 2 ≤ q.id → b.Exit none true q := fun _ => .inl
  have k₁ : b.Kept b₁ := (Body.Kept.whileTest b).trans hg.kept
  refine (Reaches.whileTest fresh).trans <| (Reaches.of_extended e₁ fun q hq =>
    fresh q (Nat.le_trans (Nat.add_le_add_right (Body.Kept.whileTest b).blockCount 2) hq)).trans <|
    (Reaches.finish fun _ q hq => ?_).trans <|
    (Reaches.enterLoop _).trans <| (Reaches.goto _).trans <|
    (e₂.mono fun q hq => ?_).trans <| (Reaches.finish fun _ q hq => ?_).trans <|
    Reaches.exitLoop.trans (.goto _)
  · simp only [Ir.Term.successors, List.mem_cons, List.not_mem_nil, or_false] at hq
    rcases hq with rfl | rfl <;> exact fresh _ (by simp [Body.whileStart, Body.whileExit])
  · have hk : b.Kept ((b₁.finish (.condBr x b.whileStart b.whileExit)).goto b.whileStart) :=
      k₁.trans ((Body.Kept.finish _ _).trans (.goto _ _))
    exact Body.Exit.of_loop hq hk (by simp [Body.whileLoop, Body.whileExit]) (Nat.le_refl _)
  · rw [List.mem_singleton.mp hq]
    exact fresh _ (Nat.le_refl _)

theorem forLoop {cond : Option Cond} (ht : Tests b.forTest cond b.forStart b.forExit b₁)
    (hk : ((b₁.enterLoop b.forLoop).goto b.forStart).Kept b₂)
    (h₁ : Continues none r ((b₁.enterLoop b.forLoop).goto b.forStart) b₂)
    (h₂ : Continues none r' ((b₂.finish (.br b.forNext)).exitLoop.goto b.forNext) b₃) :
    Continues none true b ((b₃.finish (.br (b.nextLabel "for.cond"))).goto b.forExit) := by
  intro P hs
  obtain ⟨s₀, htest⟩ := hs.forTest
  obtain ⟨-, e₁⟩ := ht.shaped s₀ (by simp) (by simp)
  obtain ⟨s₂, e₂⟩ := h₁ (b.forNext :: b.forExit :: P) (hs.forBody ht)
  obtain ⟨s₃, e₃⟩ := h₂ (b.forExit :: P) s₂.forNext
  -- The iteration statements lead back to the test.
  have s₄ := s₃.leave (t := .br (b.nextLabel "for.cond")) fun q hq => by
    rw [List.mem_singleton.mp hq]
    exact e₃.target _ ((e₂.target _ (e₁.target _ htest)).finish _)
  refine ⟨s₄.enter rfl, ?_⟩
  have fresh : ∀ q : Ir.Label, b.blockCount + 2 ≤ q.id → b.Exit none true q := fun _ => .inl
  have k₁ : b.Kept (b₁.goto b.forStart) :=
    (Body.Kept.forTest b).trans (ht.kept.trans (.goto _ _))
  have inside : ((b₁.goto b.forStart).enterLoop b.forLoop).Kept b₂ := hk
  have k₂ : b.Kept ((b₂.finish (.br b.forNext)).exitLoop.goto b.forNext) :=
    k₁.trans ((inside.inLoop _).trans (.goto _ _))
  have ids : b.blockCount + 2 ≤ b.forStart.id ∧ b.blockCount + 2 ≤ b.forExit.id ∧
      b.blockCount + 2 ≤ b.forNext.id := by
    simp [Body.forStart, Body.forExit, Body.forNext]
  refine (Reaches.forTest fresh).trans <| (e₁.mono fun q hq => ?_).trans <|
    (Reaches.enterLoop _).trans <| (Reaches.goto _).trans <| (e₂.mono fun q hq => ?_).trans <|
    (Reaches.finish fun _ q hq => ?_).trans <| Reaches.exitLoop.trans <| (Reaches.goto _).trans <|
    (e₃.mono fun q hq => hq.of_kept k₂).trans <|
    (Reaches.finish fun _ q hq => ?_).trans (.goto _)
  · rcases hq with hq | rfl | rfl
    · exact fresh q (Nat.le_trans (Nat.add_le_add_right (Body.Kept.forTest b).blockCount 2) hq)
    · exact fresh _ ids.1
    · exact fresh _ ids.2.1
  · exact Body.Exit.of_loop hq k₁ ids.2.1 ids.2.2
  · rw [List.mem_singleton.mp hq]
    exact fresh _ ids.2.2
  · rw [List.mem_singleton.mp hq]
    exact fresh _ (Nat.le_refl _)

/-- A conditional: its join is kept if something leads there, and nothing does otherwise. -/
theorem choose (hk : (b.addBlock "if.done").Kept b₁)
    (h : Continues (some (b.nextLabel "if.done")) r (b.addBlock "if.done") b₁) :
    Continues none r b (b₁.closeJoin (b.nextLabel "if.done") r) := by
  intro P hs
  obtain ⟨s₁, e₁⟩ := h P (hs.addBlock "if.done")
  -- The join is new, so no target of before is it.
  have hid : ∀ l, b.Target l → (b.nextLabel "if.done").id ≠ l.id := by
    intro l hl
    have := hs.target_id_lt hl
    rw [Body.nextLabel_id]
    omega
  have hA : ∀ q, (b.addBlock "if.done").Exit (some (b.nextLabel "if.done")) r q →
      b.Exit none r q := by
    intro q hq
    refine hq.weaken (Nat.le_succ _) (fun loop hl => .inl hl) fun _ hk => ?_
    cases hk
    exact .inl (Nat.le_refl _)
  have reach := (Reaches.addBlock "if.done").trans (e₁.mono hA)
  cases r with
  | true => exact ⟨s₁.keepLast, reach.trans ((Reaches.moveToEnd _).trans (.goto _))⟩
  | false =>
    refine ⟨s₁.drop (fun loop hl => ?_) fun p he => ?_, ?_, ?_⟩
    · obtain ⟨hexit, hnext⟩ := hs.loops loop (hk.loops ▸ hl)
      exact ⟨fun heq => hid _ hexit (by rw [heq]), fun heq => hid _ hnext (by rw [heq])⟩
    · -- An edge to the join would be old, or lead to a newer block, or to a loop around.
      rcases e₁.edges p _ he with he | he | ⟨loop, hl, heq⟩ | ⟨hr, -⟩
      · obtain ⟨-, block, hb, -⟩ := hs.edges _ _ (Body.edge_addBlock.mp he)
        exact absurd (hs.fresh _ _ hb) (by simp)
      · rw [Body.nextLabel_id, Body.addBlock_blockCount] at he
        omega
      · obtain ⟨hexit, hnext⟩ := hs.loops loop hl
        rcases heq with heq | heq
        · exact hid _ hexit (by rw [heq])
        · exact hid _ hnext (by rw [heq])
      · cases hr
    · exact fun l hl => (reach.target l hl).dropBlock (Ne.symm (hid l hl))
    · exact fun p q he => reach.edges p q (Body.edge_dropBlock he)

theorem last {code : Code} {x : Ir.Value} (hg : GrowsBy b code b₁)
    (h : Continues none r (b₁.lastArm done x) b₂) :
    Continues (some done) true b ((b₂.finish (.br done)).goto done) := by
  intro P hs
  obtain ⟨s₁, e₁⟩ := hg.shaped hs
  obtain ⟨s₂, e₂⟩ := h (done :: P) (s₁.lastArm List.mem_cons_self _)
  refine ⟨s₂.leave (s₂.target_br List.mem_cons_self), ?_⟩
  have fresh : ∀ q : Ir.Label, b.blockCount + 2 ≤ q.id → b.Exit (some done) true q :=
    fun _ => .inl
  -- The condition fails to the join, so it is always reached.
  have hdone : b.Exit (some done) true done := .inr (.inr ⟨rfl, rfl⟩)
  have k₁ : b.Kept (b₁.lastArm done x) := hg.kept.trans (.lastArm _ _ _)
  refine (Reaches.of_extended e₁ fresh).trans <| (Reaches.lastArm (fun q hq => fresh q
    (Nat.le_trans (Nat.add_le_add_right hg.kept.blockCount 2) hq)) hdone _).trans <|
    (e₂.mono fun q hq => hq.of_kept k₁).trans <|
    (Reaches.finish fun _ q hq => ?_).trans (.of_blocks_eq rfl)
  rwa [List.mem_singleton.mp hq]

theorem arm {code : Code} {x : Ir.Value} (otherwise : String) (hg : GrowsBy b code b₁)
    (hk : (b₁.arm otherwise x).Kept b₂) (hr : b₂.cursor.isSome = r)
    (h₁ : Continues none r (b₁.arm otherwise x) b₂)
    (h₂ : Continues (some done) r'
      ((b₂.finish (.br done)).goto ((b₁.addBlock "if.then").nextLabel otherwise)) b₃) :
    Continues (some done) (r || r') b b₃ := by
  intro P hs
  obtain ⟨s₁, e₁⟩ := hg.shaped hs
  obtain ⟨s₂, e₂⟩ := h₁ _ (s₁.arm otherwise x)
  obtain ⟨s₃, e₃⟩ := h₂ P (s₂.move (s₂.target_br (by simp)))
  refine ⟨s₃, ?_⟩
  have fresh : ∀ q : Ir.Label, b.blockCount + 2 ≤ q.id → b.Exit (some done) (r || r') q :=
    fun _ => .inl
  have k₁ : b.Kept (b₁.arm otherwise x) := hg.kept.trans (.arm _ _ _)
  have k₂ : b.Kept ((b₂.finish (.br done)).goto ((b₁.addBlock "if.then").nextLabel otherwise)) :=
    k₁.trans (hk.trans ((Body.Kept.finish _ _).trans (.goto _ _)))
  refine (Reaches.of_extended e₁ fresh).trans <| (Reaches.arm (fun q hq => fresh q
    (Nat.le_trans (Nat.add_le_add_right hg.kept.blockCount 2) hq)) _ _).trans <|
    (e₂.mono fun q hq => hq.of_kept k₁).trans <|
    (Reaches.finish fun hl q hq => ?_).trans <| (Reaches.goto _).trans <|
    e₃.mono fun q hq => ?_
  · rw [List.mem_singleton.mp hq]
    exact .inr (.inr ⟨by simp [← hr, hl], rfl⟩)
  · refine hq.weaken k₂.blockCount (fun loop hl => .inl (k₂.loops ▸ hl)) fun hr hk => ?_
    exact .inr (.inr ⟨by simp [hr], hk⟩)

theorem final (hr : b₁.cursor.isSome = r) (h : Continues none r b b₁) :
    Continues (some done) r b (b₁.finish (.br done)) := by
  intro P hs
  obtain ⟨s₁, e₁⟩ := h (done :: P) hs
  refine ⟨s₁.leave (s₁.target_br List.mem_cons_self), ?_⟩
  refine (e₁.mono fun q hq => hq.of_kept (.refl b)).trans (.finish fun hl q hq => ?_)
  rw [List.mem_singleton.mp hq]
  exact .inr (.inr ⟨hr ▸ hl, rfl⟩)

end Continues

theorem Builds.continues {k : Option Ir.Label} {b b' : Body} {f : Flow} {r : Bool}
    (h : Builds k b f r b') : Continues k r b b' := by
  induction h with
  | skip _ => exact fun P hs => ⟨hs, .of_blocks_eq rfl⟩
  | code _ hg => exact .code hg
  | seq h₁ _ ih₁ ih₂ => exact ih₁.seq h₁.kept ih₂
  | jump isBreak _ hloops => exact .jump isBreak hloops
  | ret value _ hg => exact .ret hg value
  | whileLoop _ hg _ ih => exact .whileLoop hg ih
  | forLoop _ ht h₁ _ ih₁ ih₂ => exact .forLoop ht h₁.kept ih₁ ih₂
  | choose h ih => exact .choose h.kept ih
  | last _ hg _ ih => exact .last hg ih
  | arm otherwise _ hg h₁ _ ih₁ ih₂ => exact .arm otherwise hg h₁.kept h₁.cursor_isSome ih₁ ih₂
  | final h ih => exact .final h.cursor_isSome ih

/-- Statements keep the shape; before a join its block is pending and stays so. -/
theorem Builds.shaped {k : Option Ir.Label} {b b' : Body} {f : Flow} {r : Bool}
    (h : Builds k b f r b') {P : List Ir.Label} (hs : Shaped (k.toList ++ P) b) :
    Shaped (k.toList ++ P) (b'.settle k) ∧ Reaches (b.Exit k r) b b' := h.continues P hs

end TreeLowering
