import TreeLowering.Proofs.Execution
import TreeLowering.Proofs.Placement

/-!
Blocks run as the flow they were built from.

A run of the finished blocks stands at a body under construction if it has executed what the block
of the cursor holds so far. If it stands at a body before code or statements are added, then it
comes to stand at the body after them, with the trail that running the code or the flow gives
(`Grows.runs`, `Builds.runs`); or it leaves as the flow does, to a target of the innermost loop or
with a return. A flow that is still in a loop after `n` rounds has taken `n` steps at least, so a
flow that never ends is a run that never ends.
-/
namespace TreeLowering

open Ir (Point Steps)

/-- A run has executed what a body holds so far in the block of its cursor. -/
def Stands (blocks : List Ir.Block) (b : Body) (p : Point) : Prop :=
  ∃ l block final, b.cursor = some l ∧ b.block? l.id = some block ∧
    Ir.findBlock blocks l.id = some final ∧ p.label = l ∧ final.lines = block.lines ++ p.rest ∧
    p.term = final.term

/-- A run comes to a point with some trail. -/
def Arrives {fn : Ir.FuncId} (o : Outcomes fn) (blocks : List Ir.Block) (p : Point) (t : Trail)
    (G : Point → Prop) : Prop :=
  ∃ n q, Steps o blocks n p q ∧ q.trail = t ∧ G q

section
variable {fn : Ir.FuncId} {o : Outcomes fn} {blocks : List Ir.Block} {p q : Point} {t t' : Trail}
  {G G' : Point → Prop}

theorem Arrives.here (h : G p) : Arrives o blocks p p.trail G := ⟨0, p, .zero p, rfl, h⟩

theorem Arrives.after {n : Nat} (hs : Steps o blocks n p q) (h : Arrives o blocks q t G) :
    Arrives o blocks p t G := by
  obtain ⟨m, r, hr, ht, hg⟩ := h
  exact ⟨n + m, r, hs.trans hr, ht, hg⟩

theorem Arrives.bind (h : Arrives o blocks p t G)
    (h' : ∀ q, q.trail = t → G q → Arrives o blocks q t' G') : Arrives o blocks p t' G' := by
  obtain ⟨n, q, hs, ht, hg⟩ := h
  exact (h' q ht hg).after hs

/-! ## Steps of a body -/

section
variable {b : Body} {l : Ir.Label}

theorem Stands.addBlock (h : Stands blocks b p) (name : String) :
    Stands blocks (b.addBlock name) p := by
  obtain ⟨l, block, final, hc, hb, hrest⟩ := h
  exact ⟨l, block, final, hc, Body.block?_addBlock_of_some name hb, hrest⟩

theorem Stands.label (h : Stands blocks b p) (hc : b.cursor = some l) : p.label = l := by
  obtain ⟨l', -, -, hc', -, -, hl, -⟩ := h
  exact hl.trans (Option.some.inj (hc'.symm.trans hc))

/-- Where the block of the cursor ended, the run is at its terminator. -/
theorem Stands.finish {term : Ir.Term} (h : Stands blocks b p)
    (hF : Held (b.finish term).halt blocks none) : p.rest = [] ∧ p.term = some term := by
  obtain ⟨l, block, final, hc, hb, hfinal, -, hlines, hterm⟩ := h
  -- What has ended is the same block in the end, so nothing of it is left to run.
  have hended : (b.finish term).halt.block? l.id = some { block with term := some term } := by
    rw [Body.block?_halt, Body.block?_finish hc, hb]
    simp
  cases hfinal.symm.trans (hF.ended _ _ hended rfl)
  exact ⟨List.append_right_eq_self.mp hlines.symm, hterm⟩

theorem Stands.br (h : Stands blocks b p) (hF : Held (b.finish (.br l)).halt blocks none) :
    p.Leaves o l := by
  obtain ⟨hrest, hterm⟩ := h.finish hF
  exact ⟨hrest, by rw [Point.target, hterm]⟩

theorem Stands.condBr {v : Ir.Value} {yes no : Ir.Label} (h : Stands blocks b p)
    (hF : Held (b.finish (.condBr v yes no)).halt blocks none) :
    p.Leaves o (if o.bit p.trail v then yes else no) := by
  obtain ⟨hrest, hterm⟩ := h.finish hF
  exact ⟨hrest, by rw [Point.target, hterm]⟩

/-- Where an instruction was added, the run executes it next. -/
theorem Stands.emit {inst : Ir.Inst} {type : Ir.Ty} (h : Stands blocks b p)
    (hF : Held (b.emit inst type) blocks none) :
    Arrives o blocks p
      ((⟨b.lineCount, inst, type⟩, o.computeFrom p.source p.trail ⟨b.lineCount, inst, type⟩) ::
        p.trail) (Stands blocks (b.emit inst type)) := by
  obtain ⟨l, block, final, hc, hb, hfinal, hl, hlines, hterm⟩ := h
  have hb' : (b.emit inst type).block? l.id =
      some { block with lines := block.lines ++ [⟨b.lineCount, inst, type⟩] } := by
    rw [Body.block?_emit hc, hb]
    simp
  obtain ⟨final', hfinal', -, ⟨rest, hprefix⟩, -⟩ := hF.cursor l _ (by simpa using hc) hb'
  cases hfinal.symm.trans hfinal'
  have hrest : p.rest = ⟨b.lineCount, inst, type⟩ :: rest := by
    rw [hlines, List.append_assoc] at hprefix
    exact (List.append_cancel_left hprefix).symm
  refine ⟨1, { p with rest, trail := _ }, .one (by simp only [Point.step, hrest]), rfl, ?_⟩
  exact ⟨l, _, final, by simpa using hc, hb', hfinal, hl, hprefix.symm, hterm⟩

/-- Where a pending block was entered, so does the run. -/
theorem Ir.Point.Leaves.enters (h : p.Leaves o l) (hF : Held b blocks none)
    (hc : b.cursor = some l) (hb : b.block? l.id = some { label := l }) :
    ∃ q, p.step o blocks = some q ∧ Stands blocks b q ∧ q.trail = p.trail ∧
      q.source = some p.label := by
  obtain ⟨final, hfinal, hl, -, -⟩ := hF.cursor l _ hc hb
  refine ⟨p.enter final, h.step hfinal, ?_, rfl, rfl⟩
  exact ⟨l, _, final, hc, hb, hfinal, hl, rfl, rfl⟩

theorem Ir.Point.Leaves.arrives (h : p.Leaves o l) (hF : Held b blocks none)
    (hc : b.cursor = some l) (hb : b.block? l.id = some { label := l }) :
    Arrives o blocks p p.trail (Stands blocks b) := by
  obtain ⟨q, hstep, hst, htrail, -⟩ := h.enters hF hc hb
  exact ⟨1, q, .one hstep, htrail, hst⟩

/-- The same where the block begins with an instruction. -/
theorem Ir.Point.Leaves.enters_emit {P : List Ir.Label} {inst : Ir.Inst} {type : Ir.Ty}
    (h : p.Leaves o l) (hs : Shaped P b) (hF : Held (b.emit inst type) blocks none)
    (hc : b.cursor = some l) (hb : b.block? l.id = some { label := l }) :
    Arrives o blocks p
      ((⟨b.lineCount, inst, type⟩,
        o.computeFrom (some p.label) p.trail ⟨b.lineCount, inst, type⟩) :: p.trail)
      (Stands blocks (b.emit inst type)) := by
  obtain ⟨q, hstep, hst, htrail, hsource⟩ := h.enters ((Held.emit hs inst type).trans hF) hc hb
  have := (hst.emit (o := o) hF).after (.one hstep)
  rwa [htrail, hsource] at this

end

/-! ## Code -/

theorem Body.rejoin_lineCount (b : Body) (l : Ir.Label) :
    (b.rejoin l).lineCount = b.lineCount := Body.finish_lineCount b _

theorem Outcomes.computeFrom_joined_start (id : Nat) (isAnd : Bool) (start finish : Ir.Label)
    (y : Ir.Value) (t : Trail) :
    o.computeFrom (some start) t ⟨id, Body.joined isAnd start finish y, .int 1⟩ = !isAnd := by
  simp [Outcomes.computeFrom, Body.joined]

theorem Outcomes.computeFrom_joined_finish (id : Nat) (isAnd : Bool) {start finish : Ir.Label}
    (h : start ≠ finish) (y : Ir.Value) (t : Trail) :
    o.computeFrom (some finish) t ⟨id, Body.joined isAnd start finish y, .int 1⟩ = o.bit t y := by
  simp [Outcomes.computeFrom, Body.joined, h.symm]

theorem Body.target_decision (b : Body) (isAnd : Bool) (x : Ir.Value)
    (h : p.term = some (b.decision isAnd x)) :
    p.target o =
      some (if o.bit p.trail x = isAnd then b.rightLabel isAnd else b.joinLabel isAnd) := by
  unfold Point.target
  rw [h]
  cases isAnd <;> cases hb : o.bit p.trail x <;> simp [Body.decision, hb]

/-- Finished blocks run the code that was added. -/
theorem Grows.runs {Q : Ir.Value → Prop} {b b' : Body} {c : Code} (h : Grows Q b c b') :
    ∀ {P : List Ir.Label}, Shaped P b → Held b' blocks none → ∀ {p : Point}, Stands blocks b p →
    Arrives o blocks p (c.run o p.trail) (Stands blocks b') := by
  induction h with
  | nil b => exact fun _ _ _ hp => .here hp
  | seq h₁ h₂ ih₁ ih₂ =>
    intro P hs hF p hp
    have s₁ := (h₁.shaped hs).1
    refine (ih₁ hs ((h₂.leads s₁).trans hF) hp).bind fun q hq hst => ?_
    have := ih₂ s₁ hF hst
    rwa [hq] at this
  | vars type _ _ => exact fun _ _ _ hp => .here hp
  | @line b inst type _ hphi _ _ =>
    intro P _ hF p hp
    have := hp.emit (o := o) hF
    rwa [o.computeFrom_of_not_phi hphi] at this
  | @decide b b₁ right x y start finish isAnd hc _ hr hf _ ih =>
    intro P hs hF p hp
    have s₀ := hs.fork isAnd x
    have s₁ := (hr.shaped s₀).1
    have hjoin : Held (b₁.rejoin (b.joinLabel isAnd)) blocks none :=
      (Held.emit s₁.rejoin.1 _ _).trans hF
    have hright : Held b₁ blocks none := .of_finish s₁ (hjoin.halt rfl)
    have hfork : Held (b.fork isAnd x) blocks none := (hr.leads s₀).trans hright
    -- The join, entered from either operand.
    have join {q : Point} (hq : q.Leaves o (b.joinLabel isAnd)) :=
      hq.enters_emit s₁.rejoin.1 hF rfl s₁.rejoin.2
    obtain ⟨hrest, hterm⟩ := Stands.finish ((hp.addBlock _).addBlock _) (hfork.halt rfl)
    have htarget := b.target_decision (o := o) isAnd x hterm
    simp only [Code.run]
    split
    · -- The left operand does not decide.
      rw [if_pos ‹_›] at htarget
      have hempty := ((hs.addBlock ((if isAnd then "and" else "or") ++ ".rhs")).addBlock
        ((if isAnd then "and" else "or") ++ ".done")).empty_finish
        (List.mem_cons_of_mem _ List.mem_cons_self) (b.decision isAnd x)
      obtain ⟨q, hstep, hst, htrail, -⟩ := Point.Leaves.enters ⟨hrest, htarget⟩ hfork rfl hempty
      refine ((ih s₀ hright hst).after (.one hstep)).bind fun q' hq' hst' => ?_
      rw [htrail] at hq'
      have := join (hst'.br (hjoin.halt rfl))
      rwa [hst'.label hf, o.computeFrom_joined_finish _ _ (hs.start_ne_finish hc hr hf), hq',
        Body.rejoin_lineCount] at this
    · rw [if_neg ‹_›] at htarget
      have := join (q := p) ⟨hrest, htarget⟩
      rwa [hp.label hc, o.computeFrom_joined_start, Body.rejoin_lineCount] at this

/-- Finished blocks run a condition, and then its value tells whether it holds. -/
theorem runs_condition {P : List Ir.Label} {b b₁ : Body} {cond : Cond} (hs : Shaped P b)
    (hg : GrowsBy b (cond.code fn) b₁) (hF : Held b₁ blocks none) (hp : Stands blocks b p) :
    Arrives o blocks p (cond.run o p.trail).2 fun q =>
      Stands blocks b₁ q ∧ o.bit q.trail (cond.value fn) = (cond.run o p.trail).1 := by
  obtain ⟨htrail, hbit⟩ := cond.run_code o p.trail
  refine (hg.runs hs hF hp).bind fun q hq hst => ?_
  rw [htrail] at hq
  exact hq ▸ .here ⟨hst, hq ▸ hbit⟩

/-- The same with the branch after the condition. -/
theorem runs_test {P : List Ir.Label} {b b₁ : Body} {cond : Cond} {yes no : Ir.Label}
    (hs : Shaped P b) (hg : GrowsBy b (cond.code fn) b₁)
    (hF : Held (b₁.finish (.condBr (cond.value fn) yes no)).halt blocks none)
    (hp : Stands blocks b p) :
    Arrives o blocks p (cond.run o p.trail).2
      (·.Leaves o (if (cond.run o p.trail).1 then yes else no)) := by
  refine (runs_condition hs hg (.of_finish (hg.shaped hs).1 hF) hp).bind fun q hq ⟨hst, hbit⟩ => ?_
  have hl := hst.condBr (o := o) hF
  rw [hbit] at hl
  exact hq ▸ .here hl

/-! ## Statements -/

/-- What a run does from a point on agrees with what comes of a flow inside loops, where `G` holds
    at the end of the flow. -/
def Meets (o : Outcomes fn) (blocks : List Ir.Block) (n : Nat) (loops : List Loop)
    (G : Point → Prop) (p : Point) : Progress → Prop
  | .unfinished t => ∃ k q, n ≤ k ∧ Steps o blocks k p q ∧ q.trail = t
  | .finished .through t => Arrives o blocks p t G
  | .finished (.jump isBreak) t => ∃ loop rest, loops = loop :: rest ∧
    Arrives o blocks p t (·.Leaves o (if isBreak then loop.exit else loop.next))
  | .finished (.ret value) t => Arrives o blocks p t (·.Ends (.ret value))

namespace Meets

variable {m n : Nat} {loop : Loop} {loops : List Loop} {x : Progress} {next : Trail → Progress}

/-- Steps before count. -/
theorem after (hs : Steps o blocks m p q) (h : Meets o blocks n loops G q x) :
    Meets o blocks (m + n) loops G p x := by
  cases x with
  | unfinished t =>
    obtain ⟨k, r, hk, hr, ht⟩ := h
    exact ⟨m + k, r, by omega, hs.trans hr, ht⟩
  | finished e t =>
    cases e with
    | through => exact Arrives.after hs h
    | jump isBreak =>
      obtain ⟨loop, rest, hl, ha⟩ := h
      exact ⟨loop, rest, hl, ha.after hs⟩
    | ret value => exact Arrives.after hs h

theorem le (h : Meets o blocks n loops G p x) (hm : m ≤ n) : Meets o blocks m loops G p x := by
  cases x with
  | unfinished t =>
    obtain ⟨k, q, hk, hq, ht⟩ := h
    exact ⟨k, q, Nat.le_trans hm hk, hq, ht⟩
  | finished e t => cases e <;> exact h

theorem of_arrives (ha : Arrives o blocks p t G)
    (h : ∀ q, q.trail = t → G q → Meets o blocks n loops G' q x) :
    Meets o blocks n loops G' p x := by
  obtain ⟨k, q, hs, ht, hg⟩ := ha
  exact ((h q ht hg).after hs).le (Nat.le_add_left _ _)

theorem andThen (h : Meets o blocks n loops G p x)
    (hnext : ∀ q, G q → Meets o blocks n loops G' q (next q.trail)) :
    Meets o blocks n loops G' p (x.andThen next) := by
  cases x with
  | unfinished t => exact h
  | finished e t =>
    cases e with
    | through => exact of_arrives h fun q hq hg => hq ▸ hnext q hg
    | jump isBreak => exact h
    | ret value => exact h

theorem mono (h : Meets o blocks n loops G p x)
    (hG : ∀ q, G q → Arrives o blocks q q.trail G') : Meets o blocks n loops G' p x := by
  cases x with
  | unfinished t => exact h
  | finished e t =>
    cases e with
    | through => exact Arrives.bind h fun q hq hg => hq ▸ hG q hg
    | jump isBreak => exact h
    | ret value => exact h

/-- What does not run to its end need not say what holds there. -/
theorem of_diverts (h : Meets o blocks n loops G p x) (hx : ∀ t, x ≠ .finished .through t) :
    Meets o blocks n loops G' p x := by
  cases x with
  | unfinished t => exact h
  | finished e t =>
    cases e with
    | through => exact absurd rfl (hx t)
    | jump isBreak => exact h
    | ret value => exact h

/-- From the start of a block that was pending. -/
theorem of_leaves {b : Body} {l : Ir.Label} (next : Trail → Progress) (hp : p.Leaves o l)
    (hF : Held b blocks none) (hc : b.cursor = some l) (hb : b.block? l.id = some { label := l })
    (h : ∀ q, Stands blocks b q → Meets o blocks n loops G q (next q.trail)) :
    Meets o blocks n loops G p (next p.trail) := by
  obtain ⟨q, hstep, hst, htrail, -⟩ := hp.enters hF hc hb
  exact htrail ▸ ((h q hst).after (.one hstep)).le (Nat.le_add_left _ _)

/-- The body of a loop leads on to the next round or out of the loop. -/
theorem inLoop (h : Meets o blocks n (loop :: loops) (·.Leaves o loop.next) p x)
    (hnext : ∀ q : Point, q.Leaves o loop.next → Meets o blocks n loops G q (next q.trail))
    (hexit : ∀ q : Point, q.Leaves o loop.exit → Arrives o blocks q q.trail G) :
    Meets o blocks n loops G p (x.inLoop next) := by
  cases x with
  | unfinished t => exact h
  | finished e t =>
    cases e with
    | through => exact of_arrives h fun q hq hl => hq ▸ hnext q hl
    | jump isBreak =>
      obtain ⟨_, _, hloops, ha⟩ := h
      cases hloops
      cases isBreak with
      | true => exact ha.bind fun q hq hl => hq ▸ hexit q hl
      | false => exact of_arrives ha fun q hq hl => hq ▸ hnext q hl
    | ret value => exact h

/-- The rounds of a loop, from where it starts again. Every round takes a step at least. -/
theorem rounds {test : Trail → Bool × Trail} {body : Trail → Progress} {top : Ir.Label}
    (loop : Loop) (start : Ir.Label) (head : Point → Prop)
    (htop : ∀ p : Point, p.Leaves o top → ∃ q, p.step o blocks = some q ∧ q.trail = p.trail ∧
      head q)
    (htest : ∀ p, head p → Arrives o blocks p (test p.trail).2
      (·.Leaves o (if (test p.trail).1 then start else loop.exit)))
    (hbody : ∀ p : Point, p.Leaves o start →
      Meets o blocks n (loop :: loops) (·.Leaves o loop.next) p (body p.trail))
    (hnext : ∀ p : Point, p.Leaves o loop.next →
      Meets o blocks n loops (·.Leaves o top) p (next p.trail))
    (hexit : ∀ p : Point, p.Leaves o loop.exit → Arrives o blocks p p.trail G) :
    ∀ m ≤ n, ∀ p : Point, p.Leaves o top →
      Meets o blocks m loops G p (rounds test body next m p.trail) := by
  intro m
  induction m with
  | zero => exact fun _ p _ => ⟨0, p, Nat.le_refl 0, .zero p, rfl⟩
  | succ m ih =>
    intro hm p hp
    obtain ⟨q, hstep, hq, hhead⟩ := htop p hp
    have hm : m ≤ n := Nat.le_of_succ_le hm
    rw [← hq]
    -- The step into the test is the step that the round takes.
    refine (after (.one hstep) ?_).le (Nat.le_of_eq (Nat.add_comm m 1))
    refine of_arrives (htest q hhead) fun q₁ hq₁ hl => ?_
    simp only [TreeLowering.rounds, ← hq₁]
    split
    · rw [if_pos ‹_›] at hl
      refine inLoop ((hbody q₁ hl).le hm) (fun q₂ hl₂ => ?_) hexit
      exact ((hnext q₂ hl₂).le hm).andThen fun q₃ hl₃ => ih hm q₃ hl₃
    · rw [if_neg ‹_›] at hl
      exact hexit q₁ hl

end Meets

/-- A run has come to the end of statements: it stands where they end, or leaves to the join. -/
def Reached (o : Outcomes fn) (blocks : List Ir.Block) (b : Body) : Option Ir.Label → Point → Prop
  | none, p => Stands blocks b p
  | some l, p => p.Leaves o l

/-- The test of a loop leads on into the loop or out of it. -/
theorem Tests.runs {P : List Ir.Label} {b b₁ : Body} {cond : Option Cond} {start exit : Ir.Label}
    (h : Tests b cond start exit b₁) (hs : Shaped P b) (hfn : b.fn = fn)
    (hF : Held b₁.halt blocks none) (hp : Stands blocks b p) :
    Arrives o blocks p (Cond.test o cond p.trail).2
      (·.Leaves o (if (Cond.test o cond p.trail).1 then start else exit)) := by
  subst hfn
  cases h with
  | always _ => exact .here (hp.br hF)
  | on _ hg => exact runs_test hs hg hF hp

/-- Finished blocks run a flow: from where a run stands at the body before it, the run does what the
    flow does, up to where the flow ends in the body after it. -/
def Enacts (o : Outcomes fn) (blocks : List Ir.Block) (n : Nat) (k : Option Ir.Label) (b : Body)
    (f : Flow) (b' : Body) : Prop :=
  ∀ P : List Ir.Label, Shaped (k.toList ++ P) b → Held (b'.settle k) blocks none → b.fn = fn →
    ∀ p, Stands blocks b p →
      Meets o blocks n b.loops (Reached o blocks b' k) p (f.run o n p.trail)

namespace Enacts

variable {n : Nat} {b b₁ b₂ b₃ : Body} {f g : Flow} {r r' : Bool} {done : Ir.Label}

theorem seq (h₁ : Builds none b f true b₁) (h₂ : Builds none b₁ g r b₂)
    (ih₁ : Enacts o blocks n none b f b₁) (ih₂ : Enacts o blocks n none b₁ g b₂) :
    Enacts o blocks n none b (.seq f g) b₂ := by
  intro P hs hF hfn p hp
  have s₁ := (h₁.shaped hs).1
  have hF₁ := (h₂.leads s₁).trans hF
  refine Meets.andThen (ih₁ P hs hF₁ hfn p hp) fun q hq => ?_
  have := ih₂ P s₁ hF (h₁.kept.fn.trans hfn) q hq
  rwa [h₁.kept.loops] at this

theorem ret {c : Code} (hg : GrowsBy b c b₁) (value : Option Ir.Value) :
    Enacts o blocks n none b (.ret c value) (b₁.finish (.ret value)).halt := by
  intro P hs hF _ p hp
  refine (hg.runs hs (.of_finish (hg.shaped hs).1 hF) hp).bind fun q hq hst => hq ▸ .here ?_
  obtain ⟨hrest, hterm⟩ := hst.finish hF
  exact ⟨hrest, hterm, rfl⟩

theorem whileLoop {cond : Cond} (hg : GrowsBy b.whileTest (cond.code b.fn) b₁)
    (h : Builds none (((b₁.finish (.condBr (cond.value b.fn) b.whileStart b.whileExit)).enterLoop
      b.whileLoop).goto b.whileStart) f r b₂)
    (ih : Enacts o blocks n none
      (((b₁.finish (.condBr (cond.value b.fn) b.whileStart b.whileExit)).enterLoop
        b.whileLoop).goto b.whileStart) f b₂) :
    Enacts o blocks n none b (.loop (some cond) f .skip)
      ((b₂.finish (.br (b.nextLabel "while.cond"))).exitLoop.goto b.whileExit) := by
  intro P hs hF hfn p hp
  subst hfn
  have s₀ := hs.whileTest.1
  have s₁ := hs.whileBody hg (cond.value b.fn)
  have s₂ := (h.shaped s₁).1
  -- What the finished blocks hold of each stage of the loop, from its end back to its test.
  have hF₃ : Held (b₂.finish (.br (b.nextLabel "while.cond"))).halt blocks none := hF.halt rfl
  have hF₂ := Held.of_finish s₂ hF₃
  have hF₁ := (h.leads s₁).trans hF₂
  have hF₀ : Held (b₁.finish (.condBr (cond.value b.fn) b.whileStart b.whileExit)).halt blocks
    none := hF₁.halt rfl
  have hF' := (hg.leads s₀).trans (.of_finish (hg.shaped s₀).1 hF₀)
  have hnew := ((hs.addBlock "while.cond").addBlock "while.body").addBlock "while.done"
  have kept := (Body.Kept.whileTest b).trans (hg.kept.trans (.finish b₁
    (.condBr (cond.value b.fn) b.whileStart b.whileExit)))
  have htop : p.Leaves o (b.nextLabel "while.cond") :=
    (((hp.addBlock "while.cond").addBlock "while.body").addBlock "while.done").br (hF'.halt rfl)
  refine Meets.rounds b.whileLoop b.whileStart (Stands blocks b.whileTest) (fun p hp => ?_)
    (fun p hp => ?_) (fun p hp => ?_) (fun p hp => ?_) (fun p hp => ?_) n (Nat.le_refl n) p htop
  · obtain ⟨q, hstep, hst, htrail, -⟩ := hp.enters hF' rfl (hnew.empty_finish (by simp) _)
    exact ⟨q, hstep, htrail, hst⟩
  · exact runs_test s₀ hg hF₀ hp
  · refine Meets.of_leaves _ hp hF₁ rfl ((hg.shaped s₀).1.empty_finish (by simp) _) fun q hst => ?_
    have hm := ih _ s₁ hF₂ kept.fn q hst
    rw [Body.goto_loops, Body.enterLoop_loops, kept.loops] at hm
    exact hm.mono fun q hq => .here (hq.br hF₃)
  · -- There is nothing to do before the next round.
    exact Arrives.here hp
  · exact hp.arrives hF rfl (s₂.empty_finish List.mem_cons_self _)

theorem forLoop {cond : Option Cond} (ht : Tests b.forTest cond b.forStart b.forExit b₁)
    (h₁ : Builds none ((b₁.enterLoop b.forLoop).goto b.forStart) f r b₂)
    (h₂ : Builds none ((b₂.finish (.br b.forNext)).exitLoop.goto b.forNext) g r' b₃)
    (ih₁ : Enacts o blocks n none ((b₁.enterLoop b.forLoop).goto b.forStart) f b₂)
    (ih₂ : Enacts o blocks n none ((b₂.finish (.br b.forNext)).exitLoop.goto b.forNext) g b₃) :
    Enacts o blocks n none b (.loop cond f g)
      ((b₃.finish (.br (b.nextLabel "for.cond"))).goto b.forExit) := by
  intro P hs hF hfn p hp
  have s₀ := hs.forTest.1
  have s₁ := hs.forBody ht
  have s₂ := (h₁.shaped s₁).1
  have s₃ := (h₂.shaped s₂.forNext).1
  -- As for the other loop, from the end back to the test.
  have hF₄ : Held (b₃.finish (.br (b.nextLabel "for.cond"))).halt blocks none := hF.halt rfl
  have hF₃ := Held.of_finish s₃ hF₄
  have hF₂' := (h₂.leads s₂.forNext).trans hF₃
  have hF₂'' : Held (b₂.finish (.br b.forNext)).halt blocks none := hF₂'.halt rfl
  have hF₂ := Held.of_finish s₂ hF₂''
  have hF₁ := (h₁.leads s₁).trans hF₂
  have enter : Leads b.forTest ((b₁.enterLoop b.forLoop).goto b.forStart) := (ht.held s₀).any
  have hF' := enter.trans hF₁
  have hnew := (((hs.addBlock "for.cond").addBlock "for.body").addBlock "for.iter").addBlock
    "for.done"
  have kept := (Body.Kept.forTest b).trans ht.kept
  have htop : p.Leaves o (b.nextLabel "for.cond") :=
    ((((hp.addBlock "for.cond").addBlock "for.body").addBlock "for.iter").addBlock
      "for.done").br (hF'.halt rfl)
  refine Meets.rounds b.forLoop b.forStart (Stands blocks b.forTest) (fun p hp => ?_)
    (fun p hp => ?_) (fun p hp => ?_) (fun p hp => ?_) (fun p hp => ?_) n (Nat.le_refl n) p htop
  · obtain ⟨q, hstep, hst, htrail, -⟩ := hp.enters hF' rfl (hnew.empty_finish (by simp) _)
    exact ⟨q, hstep, htrail, hst⟩
  · exact ht.runs s₀ ((Body.Kept.forTest b).fn.trans hfn) (hF₁.halt rfl) hp
  · have hempty := ((ht.shaped s₀ (by simp) (by simp)).1.empty b.forStart (by simp)).2
    refine Meets.of_leaves _ hp hF₁ rfl hempty fun q hst => ?_
    have hm := ih₁ _ s₁ hF₂ (kept.fn.trans hfn) q hst
    rw [Body.goto_loops, Body.enterLoop_loops, kept.loops] at hm
    exact hm.mono fun q hq => .here (hq.br hF₂'')
  · have inside : ((b₁.goto b.forStart).enterLoop b.forLoop).Kept b₂ := h₁.kept
    have kept' := kept.trans ((Body.Kept.goto b₁ b.forStart).trans (inside.inLoop (.br b.forNext)))
    refine Meets.of_leaves _ hp hF₂' rfl (s₂.empty_finish List.mem_cons_self _) fun q hst => ?_
    have hm := ih₂ _ s₂.forNext hF₃ (kept'.fn.trans hfn) q hst
    rw [Body.goto_loops, kept'.loops] at hm
    exact hm.mono fun q hq => .here (hq.br hF₄)
  · exact hp.arrives hF rfl (s₃.empty_finish List.mem_cons_self _)

theorem choose (h : Builds (some (b.nextLabel "if.done")) (b.addBlock "if.done") f r b₁)
    (ih : Enacts o blocks n (some (b.nextLabel "if.done")) (b.addBlock "if.done") f b₁) :
    Enacts o blocks n none b f (b₁.closeJoin (b.nextLabel "if.done") r) := by
  intro P hs hF hfn p hp
  have s₀ := hs.addBlock "if.done"
  have s₁ := (h.shaped (P := P) s₀).1
  have hF₁ := (Held.closeJoin s₁ r).trans hF
  have hm := ih P s₀ hF₁ hfn p (hp.addBlock _)
  cases r with
  | true =>
    exact hm.mono fun q hq => hq.arrives hF rfl
      (Body.block?_moveToEnd.trans (s₁.empty _ List.mem_cons_self).2)
  | false =>
    -- The join is gone, but no run of the flow comes to it.
    exact hm.of_diverts fun t => f.diverts_run o n (by simpa using h.diverts) _ t

theorem last {cond : Cond} (hg : GrowsBy b (cond.code b.fn) b₁)
    (h : Builds none (b₁.lastArm done (cond.value b.fn)) f r b₂)
    (ih : Enacts o blocks n none (b₁.lastArm done (cond.value b.fn)) f b₂) :
    Enacts o blocks n (some done) b (.choose cond f .skip)
      ((b₂.finish (.br done)).goto done) := by
  intro P hs hF hfn p hp
  subst hfn
  have s₁ := (hg.shaped hs).1
  have s₂ := s₁.lastArm List.mem_cons_self (cond.value b.fn)
  have hF₂ := Held.of_finish (h.shaped s₂).1 hF
  have hF₁ := (h.leads s₂).trans hF₂
  have hF₀ := (Held.lastArm s₁ done (cond.value b.fn)).trans hF₁
  refine Meets.of_arrives (runs_condition hs hg hF₀ hp) fun q hq ⟨hst, hbit⟩ => ?_
  have hl := (hst.addBlock "if.then").condBr (o := o) (hF₁.halt rfl)
  rw [hbit] at hl
  simp only [Flow.run, ← hq]
  split
  · rw [if_pos ‹_›] at hl
    have hempty := (s₁.addBlock "if.then").empty_finish List.mem_cons_self
      (.condBr (cond.value b.fn) (b₁.nextLabel "if.then") done)
    have kept := hg.kept.trans (.lastArm b₁ done (cond.value b.fn))
    refine Meets.of_leaves _ hl hF₁ rfl hempty fun q' hst' => ?_
    have hm := ih _ s₂ hF₂ kept.fn q' hst'
    rw [kept.loops] at hm
    exact hm.mono fun q hq => .here (hq.br hF)
  · rw [if_neg ‹_›] at hl
    exact .here hl

theorem arm {cond : Cond} (otherwise : String) (hg : GrowsBy b (cond.code b.fn) b₁)
    (h₁ : Builds none (b₁.arm otherwise (cond.value b.fn)) f r b₂)
    (h₂ : Builds (some done)
      ((b₂.finish (.br done)).goto ((b₁.addBlock "if.then").nextLabel otherwise)) g r' b₃)
    (ih₁ : Enacts o blocks n none (b₁.arm otherwise (cond.value b.fn)) f b₂)
    (ih₂ : Enacts o blocks n (some done)
      ((b₂.finish (.br done)).goto ((b₁.addBlock "if.then").nextLabel otherwise)) g b₃) :
    Enacts o blocks n (some done) b (.choose cond f g) b₃ := by
  intro P hs hF hfn p hp
  subst hfn
  have s₁ := (hg.shaped hs).1
  have s₂ := s₁.arm otherwise (cond.value b.fn)
  have s₃ := (h₁.shaped s₂).1
  have s₄ := s₃.move (s₃.target_br (by simp : done ∈ _))
  have hF₃ := (h₂.leads (P := P) s₄).trans hF
  have hF₂ := Held.of_finish s₃ (hF₃.halt rfl)
  have hF₁ := (h₁.leads s₂).trans hF₂
  have hF₀ := (Held.arm s₁ otherwise (cond.value b.fn)).trans hF₁
  have kept := hg.kept.trans (.arm b₁ otherwise (cond.value b.fn))
  refine Meets.of_arrives (runs_condition hs hg hF₀ hp) fun q hq ⟨hst, hbit⟩ => ?_
  have hl := ((hst.addBlock "if.then").addBlock otherwise).condBr (o := o) (hF₁.halt rfl)
  rw [hbit] at hl
  simp only [Flow.run, ← hq]
  split
  · -- The arm runs, and at its end the run leaves to the join.
    rw [if_pos ‹_›] at hl
    have hempty := ((s₁.addBlock "if.then").addBlock otherwise).empty_finish
      (List.mem_cons_of_mem _ List.mem_cons_self) (.condBr (cond.value b.fn)
        (b₁.nextLabel "if.then") ((b₁.addBlock "if.then").nextLabel otherwise))
    refine Meets.of_leaves _ hl hF₁ rfl hempty fun q' hst' => ?_
    have hm := ih₁ _ s₂ hF₂ kept.fn q' hst'
    rw [kept.loops] at hm
    exact hm.mono fun q hq => .here (hq.br (hF₃.halt rfl))
  · -- The other arms run, from the block where the condition fails.
    rw [if_neg ‹_›] at hl
    have kept' := kept.trans (h₁.kept.trans (.finish b₂ (.br done)))
    refine Meets.of_leaves _ hl hF₃ rfl (s₃.empty_finish List.mem_cons_self _) fun q' hst' => ?_
    have hm := ih₂ P s₄ hF kept'.fn q' hst'
    rwa [Body.goto_loops, kept'.loops] at hm

theorem final (h : Builds none b f r b₁) (ih : Enacts o blocks n none b f b₁) :
    Enacts o blocks n (some done) b f (b₁.finish (.br done)) := by
  intro P hs hF hfn p hp
  have hF₁ := Held.of_finish (h.shaped (P := done :: P) hs).1 hF
  exact (ih (done :: P) hs hF₁ hfn p hp).mono fun q hq => .here (hq.br hF)

end Enacts

/-- Finished blocks run the flow that was built. -/
theorem Builds.runs {n : Nat} {k : Option Ir.Label} {b b' : Body} {f : Flow} {r : Bool}
    (h : Builds k b f r b') : Enacts o blocks n k b f b' := by
  induction h with
  | skip _ => exact fun _ _ _ _ _ hp => Arrives.here hp
  | code _ hg => exact fun _ hs hF _ _ hp => hg.runs hs hF hp
  | seq h₁ h₂ ih₁ ih₂ => exact .seq h₁ h₂ ih₁ ih₂
  | jump isBreak _ hloops => exact fun _ _ hF _ _ hp => ⟨_, _, hloops, .here (hp.br hF)⟩
  | ret value _ hg => exact .ret hg value
  | whileLoop _ hg h ih => exact .whileLoop hg h ih
  | forLoop _ ht h₁ h₂ ih₁ ih₂ => exact .forLoop ht h₁ h₂ ih₁ ih₂
  | choose h ih => exact .choose h ih
  | last _ hg h ih => exact .last hg h ih
  | arm otherwise _ hg h₁ h₂ ih₁ ih₂ => exact .arm otherwise hg h₁ h₂ ih₁ ih₂
  | final h ih => exact .final h ih

end

end TreeLowering
