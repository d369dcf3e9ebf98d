import TreeLowering.Proofs.Construction
import TreeLowering.Proofs.Dominance
import TreeLowering.Proofs.Steady

/-!
Worlds: states of lowering with a certificate for the body under construction.

A value is `Ready` at a place if it can be an operand there: among the stack slots if it was
computed there, at the cursor also if it is known on entry to the block or was computed in it.
`World.Le` leads from a world to one where all that was ready still is. The blocks of a
short-circuit operator both know on entry what was ready before, so that is ready in the right
operand (`World.fork_le`) and at the join (`World.rejoin_le`), and nothing of the right operand is.
-/
namespace TreeLowering

open Body (Kept)

/-- The block was made, and nothing is known on entry to it, so a branch there is always fine. -/
def Body.Plain (b : Body) (known : Known) (l : Ir.Label) : Prop := b.Made l ∧ ∀ k, ¬known l.id k

theorem Body.Plain.mono {b b' : Body} {known known' : Known} {l : Ir.Label}
    (h : b.Plain known l) (hc : b.blockCount ≤ b'.blockCount)
    (E : Known.Extends (b.blockCount + 2) known known') : b'.Plain known' l :=
  ⟨h.1.mono hc, fun k hk => h.2 k (E.new _ k h.1.2 hk)⟩

/-- A state of lowering with a certificate for the body under construction. -/
structure World where
  state : State
  known : Known
  certified : Certified known state.body
  /-- Of the results of the function, variables are bound to stack slots only. -/
  bound : ∀ x ∈ state.values, x.2.Sourced state.body.fn state.body.Rooted
  cursor : ∀ l, state.body.cursor = some l → state.body.Made l
  loops : ∀ loop ∈ state.body.loops,
    state.body.Plain known loop.exit ∧ state.body.Plain known loop.next

namespace World

/-- The body under construction. -/
abbrev body (w : World) : Body := w.state.body

/-- The result is known where the cursor is. -/
def Here (w : World) (k : Nat) : Prop :=
  ∀ l, w.body.cursor = some l → w.body.Held w.known l.id k

/-- The value can be an operand of an instruction at a place. -/
def Ready (w : World) : Place → Ir.Value → Prop
  | .vars, v => v.Sourced w.body.fn w.body.Rooted
  | .cursor, v => v.Sourced w.body.fn w.Here

/-- A world after code was added: what was ready is ready. -/
structure Le (w w' : World) : Prop where
  calm : Calm w.state w'.state
  kept : Kept w.body w'.body
  known : Known.Extends (w.body.blockCount + 2) w.known w'.known
  ready : ∀ {place v}, w.Ready place v → w'.Ready place v

instance : LE World := ⟨Le⟩

section
variable {w w₁ w₂ : World} {v : Ir.Value} {place : Place} {l : Ir.Label}

theorem le_refl (w : World) : w ≤ w := ⟨.refl _, .refl _, .refl _ _, fun h => h⟩

theorem le_trans (h₁ : w ≤ w₁) (h₂ : w₁ ≤ w₂) : w ≤ w₂ where
  calm := h₁.calm.trans h₂.calm
  kept := h₁.kept.trans h₂.kept
  known := h₁.known.trans h₂.known (Nat.add_le_add_right h₁.kept.blockCount 2)
  ready h := h₂.ready (h₁.ready h)

theorem Ready.of_constant (h : v.isConstant = true) : w.Ready place v := by
  cases place with
  | vars => exact .of_constant h
  | cursor => exact .of_constant h

theorem Ready.int (n : Nat) (x : Int) : w.Ready place (.int n x) := .of_constant rfl

/-- What was computed among the stack slots can be used everywhere. -/
theorem Ready.everywhere (h : w.Ready .vars v) : w.Ready place v := by
  cases place with
  | vars => exact h
  | cursor => exact Ir.Value.Sourced.mono h fun k hk l _ block _ _ => .inl hk

theorem Ready.of_bound {x : ObjectId × Ir.Value} (h : x ∈ w.state.values) :
    w.Ready place x.2 := Ready.everywhere (w.bound x h)

theorem Le.plain (h : w ≤ w₁) (hl : w.body.Plain w.known l) : w₁.body.Plain w₁.known l :=
  hl.mono h.kept.blockCount h.known

end

/-! ## Growing worlds -/

/-- The world with a larger body. -/
def grow (w : World) {b : Body} {known : Known} (hc : Certified known b) (K : Kept w.body b)
    (F : w.body.Fuller b) (E : Known.Extends (w.body.blockCount + 2) w.known known)
    (hm : ∀ l, b.cursor = some l → b.Made l) : World where
  state := w.state.setBody b
  known := known
  certified := hc
  bound x hx := by
    rw [State.setBody_body, F.fn]
    exact (w.bound x hx).mono F.rooted
  cursor := hm
  loops loop hl := by
    have hl := w.loops loop (K.loops ▸ hl)
    exact ⟨hl.1.mono F.blockCount E, hl.2.mono F.blockCount E⟩

/-- Where the cursor stays, what was ready is ready. -/
theorem le_grow (w : World) {b : Body} {known : Known} (hc : Certified known b)
    (K : Kept w.body b) (F : w.body.Fuller b)
    (E : Known.Extends (w.body.blockCount + 2) w.known known) (hs : b.cursor = w.body.cursor) :
    w ≤ w.grow hc K F E fun l hl => F.made (w.cursor l (hs ▸ hl)) where
  calm := .setBody _ _
  kept := K
  known := E
  ready {place v} h := by
    cases place with
    | vars =>
      intro k t he
      exact F.rooted k (h k t (F.fn ▸ he))
    | cursor =>
      intro k t he l hl
      have hl : w.body.cursor = some l := hs ▸ hl
      exact F.held E (w.cursor l hl).2 (h k t (F.fn ▸ he) l hl)

/-- The world in a state with the same body, where variables are bound to stack slots. -/
def rebind (w : World) {s : State} (hb : s.body = w.body)
    (hv : ∀ x ∈ s.values, x.2.Sourced w.body.fn w.body.Rooted) : World where
  state := s
  known := w.known
  certified := hb ▸ w.certified
  bound x hx := by
    rw [hb]
    exact hv x hx
  cursor := hb ▸ w.cursor
  loops := hb ▸ w.loops

/-- The world in a state with the same body and the same bindings. -/
def pass (w : World) {s : State} (hb : s.body = w.body) (hc : Calm w.state s) : World :=
  w.rebind hb fun x hx => w.bound x (hc.values ▸ hx)

theorem le_pass (w : World) {s : State} (hb : s.body = w.body) (hc : Calm w.state s) :
    w ≤ w.pass hb hc where
  calm := hc
  kept := by
    change Kept w.body s.body
    rw [hb]
    exact .refl _
  known := .refl _ _
  ready {place v} h := by
    cases place with
    | vars =>
      change v.Sourced s.body.fn s.body.Rooted
      rw [hb]
      exact h
    | cursor =>
      intro k t he l hl
      change s.body.Held w.known l.id k
      rw [hb]
      exact h k t (hb ▸ he) l (hb ▸ hl)

/-! ## Short circuits -/

section
variable {w : World} {x : Ir.Value} {start : Ir.Label}

/-- The blocks of a short-circuit operator know on entry what is known where the left operand
    ends. -/
theorem fork_le (isAnd : Bool) (hs : w.body.cursor = some start) (hx : w.Ready .cursor x) :
    ∃ w', w'.state = w.state.setBody (w.body.fork isAnd x) ∧ w ≤ w' ∧
      ∀ k, w'.known (w.body.joinLabel isAnd).id k ↔ w.Here k := by
  have F := (Body.Fuller.addBlock w.body ((if isAnd then "and" else "or") ++ ".rhs")).trans
    (.addBlock _ ((if isAnd then "and" else "or") ++ ".done"))
  obtain ⟨known, cert, knows⟩ : ∃ known, Certified known
      ((w.body.addBlock ((if isAnd then "and" else "or") ++ ".rhs")).addBlock
        ((if isAnd then "and" else "or") ++ ".done")) ∧ ∀ id k, known id k ↔
          w.known id k ∨ (id = w.body.blockCount + 2 ∨ id = w.body.blockCount + 3) ∧ w.Here k := by
    refine ⟨_, (w.certified.addBlock _ w.Here).addBlock _ w.Here, fun id k => ?_⟩
    simp only [Body.addBlock_blockCount, or_assoc, or_and_right]
  have E : Known.Extends (w.body.blockCount + 2) w.known known := by
    refine ⟨fun id k h => (knows id k).mpr (.inl h), fun id k hid h => ?_⟩
    rcases (knows id k).mp h with h | ⟨rfl | rfl, -⟩
    · exact h
    · omega
    · omega
  have held : ∀ k, w.Here k → Body.Held _ known start.id k := fun k hk =>
    F.held E (w.cursor start hs).2 (hk start hs)
  -- The new blocks know nothing else.
  have entered : ∀ id k, id = w.body.blockCount + 2 ∨ id = w.body.blockCount + 3 →
      (known id k ↔ w.Here k) := by
    intro id k hid
    rw [knows]
    constructor
    · rintro (h | ⟨-, h⟩)
      · have : id < w.body.blockCount + 2 := (w.certified.entry id k h).2
        omega
      · exact h
    · intro h
      exact .inr ⟨hid, h⟩
  have hfin := cert.finish (t := w.body.decision isAnd x) hs ?_ ?_
  · have F' := (F.trans (.finish _ (w.body.decision isAnd x))).trans
      (.goto _ (w.body.rightLabel isAnd))
    refine ⟨w.grow (hfin.goto _) (.fork _ _ _) F' E ?_, rfl, ⟨.setBody _ _, .fork _ _ _, E, ?_⟩,
      fun k => entered _ k (.inr rfl)⟩
    · intro l hl
      cases hl
      simp [Body.Made, rightLabel_id]
    · intro place v h
      cases place with
      | vars => exact fun k t he => F'.rooted k (h k t (F'.fn ▸ he))
      | cursor =>
        intro k t he l hl block _ hid
        cases hl
        refine .inr (.inl ?_)
        rw [hid]
        exact (entered _ k (.inl rfl)).mpr (h k t (F'.fn ▸ he))
  · intro v hv
    have hv : v = x := by cases isAnd <;> simpa [Body.decision, Ir.Term.operands] using hv
    subst hv
    exact Ir.Value.Sourced.mono hx held
  · intro q hq
    rcases decision_successors.mp hq with rfl | rfl
    · exact ⟨by simp [rightLabel_id], fun k hk => held k ((entered _ k (.inl rfl)).mp hk)⟩
    · exact ⟨by simp [joinLabel_id], fun k hk => held k ((entered _ k (.inr rfl)).mp hk)⟩

/-- At the join of a short-circuit operator that is ready which was ready before the right operand,
    and so is the value joined. -/
theorem rejoin_le (isAnd : Bool) {w₁ w₂ : World} {done finish : Ir.Label} {y : Ir.Value}
    (hs : w.body.cursor = some start) (le₁ : w ≤ w₁) (le₂ : w₁ ≤ w₂)
    (hd : w₁.body.Made done) (hk : ∀ k, w₁.known done.id k ↔ w.Here k)
    (hf : w₂.body.cursor = some finish) (hy : w₂.Ready .cursor y) :
    ∃ w', w'.state = w₂.state.setBody ((w₂.body.rejoin done).emit
        (Body.joined isAnd start finish y) (.int 1)) ∧ w ≤ w' ∧
      w'.Ready .cursor (.computed w₂.body.fn w₂.body.lineCount (.int 1)) := by
  have le := World.le_trans le₁ le₂
  have knows : ∀ k, w₂.known done.id k ↔ w.Here k := fun k =>
    ⟨fun h => (hk k).mp (le₂.known.new _ k hd.2 h),
      fun h => le₂.known.old _ k ((hk k).mpr h)⟩
  have held : ∀ k, w.Here k → w₂.body.Held w₂.known finish.id k := by
    intro k h
    have here : w.Ready .cursor (.computed w.body.fn k .void) := .computed _ h
    exact le.ready here k .void (by rw [le.kept.fn]) finish hf
  have cfin := w₂.certified.finish (t := .br done) hf (fun v hv => nomatch hv) fun q hq => by
    rw [List.mem_singleton.mp hq]
    exact ⟨(hd.mono le₂.kept.blockCount).2, fun k h => held k ((knows k).mp h)⟩
  have F₁ : w₂.body.Fuller (w₂.body.rejoin done) := (Body.Fuller.finish _ _).trans (.goto _ _)
  have cjoin : Certified w₂.known ((w₂.body.rejoin done).emit
      (Body.joined isAnd start finish y) (.int 1)) := by
    refine (cfin.goto done).emit rfl _ (fun hp => nomatch hp) fun incoming hi v hv => ?_
    cases hi
    rcases List.mem_cons.mp hv with rfl | hv
    · refine ⟨F₁.made ((w.cursor start hs).mono le.kept.blockCount), .of_constant ?_⟩
      cases isAnd <;> rfl
    · rw [List.mem_singleton.mp hv]
      have hfinish := w₂.cursor finish hf
      refine ⟨F₁.made hfinish, ?_⟩
      have hy : y.Sourced (w₂.body.rejoin done).fn w₂.Here := F₁.fn ▸ hy
      exact hy.mono fun k h => F₁.held (.refl _ _) hfinish.2 (h finish hf)
  have F₂ := F₁.trans (.emit _ (Body.joined isAnd start finish y) (.int 1))
  have K := (Kept.rejoin w₂.body done).trans (.emit _ (Body.joined isAnd start finish y) (.int 1))
  have hcursor : ((w₂.body.rejoin done).emit (Body.joined isAnd start finish y)
      (.int 1)).cursor = some done := by simp [Body.rejoin]
  refine ⟨w₂.grow cjoin K F₂ (.refl _ _) ?_, rfl,
    ⟨le.calm.trans (.setBody _ _), le.kept.trans K, le.known, ?_⟩, ?_⟩
  · intro l hl
    cases hcursor.symm.trans hl
    exact (hd.mono le₂.kept.blockCount).mono K.blockCount
  · intro place v h
    cases place with
    | vars => exact fun k t he => F₂.rooted k (le.ready h k t (F₂.fn ▸ he))
    | cursor =>
      intro k t he l hl block _ hid
      cases hcursor.symm.trans hl
      refine .inr (.inl ?_)
      rw [hid]
      exact (knows k).mpr (h k t ((F₂.fn.trans le.kept.fn) ▸ he))
  · intro k t he l hl block hm hid
    cases hcursor.symm.trans hl
    obtain ⟨-, rfl, -⟩ := Ir.Value.computed.inj he
    have hdef := Body.defines_emit rfl hm hid
    rw [show (w₂.body.rejoin done).lineCount = w₂.body.lineCount from
      Body.finish_lineCount _ _] at hdef
    exact .inr (.inr hdef)

end

end World

end TreeLowering
