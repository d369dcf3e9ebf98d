import TreeLowering.Proofs.Blocks

/-!
Running blocks and running flows.

Both leave a trail of executed instructions, each with the lowest bit of its result. Instructions
are opaque: what they compute is drawn from `Outcomes`, after what was executed before; only the
constants, the joins and the negations of bits, from which branches are made, mean what they mean.
`Ir.Steps` follows the terminators of a list of blocks. `Flow.run` knows no blocks: a choice runs
one of its sides, a loop starts again, a jump leaves the innermost loop or goes on to its next
round, and the right operand of a short-circuit operator runs only if the left one does not decide.
-/
namespace TreeLowering

/-- The instructions executed so far, the latest first, each with the lowest bit of its result. -/
abbrev Trail := List (Ir.Line × Bool)

/-- What a run of a function depends on besides its branches. -/
structure Outcomes (fn : Ir.FuncId) where
  /-- The bit that an instruction computes after others. -/
  result : Trail → Ir.Line → Bool
  /-- The bit of a value from elsewhere. -/
  given : Ir.Value → Bool

namespace Outcomes

variable {fn : Ir.FuncId} (o : Outcomes fn)

/-- The lowest bit of a value. -/
def bit (t : Trail) (v : Ir.Value) : Bool :=
  match v with
  | .int _ x => x % 2 = 1
  | .computed f id _ =>
    if f = fn then (t.find? fun e => e.1.id = id).elim (o.given v) Prod.snd else o.given v
  | _ => o.given v

/-- The bit that an instruction computes, if it joins no values. -/
def compute (t : Trail) (l : Ir.Line) : Bool :=
  match l.inst with
  | .arith .xor x y => o.bit t x ^^ o.bit t y
  | _ => o.result t l

/-- The bit that an instruction computes in a block that was entered from `source`. -/
def computeFrom (source : Option Ir.Label) (t : Trail) (l : Ir.Line) : Bool :=
  match l.inst with
  | .phi incoming =>
    (incoming.find? fun e => source = some e.2).elim (o.result t l) fun e => o.bit t e.1
  | _ => o.compute t l

/-- The trail after instructions that join no values. -/
def execute (t : Trail) (lines : List Ir.Line) : Trail :=
  lines.foldl (fun t l => (l, o.compute t l) :: t) t

theorem computeFrom_of_not_phi {l : Ir.Line} (h : l.inst.isPhi = false) (source : Option Ir.Label)
    (t : Trail) : o.computeFrom source t l = o.compute t l := by
  unfold computeFrom
  split
  · rename_i incoming hp
    simp [hp, Ir.Inst.isPhi] at h
  · rfl

@[simp] theorem bit_bitTrue (t : Trail) : o.bit t .bitTrue = true := rfl

@[simp] theorem bit_decided (t : Trail) (isAnd : Bool) : o.bit t (Body.decided isAnd) = !isAnd := by
  cases isAnd <;> rfl

/-- A result is the one that was computed last. -/
theorem bit_bitOf (t : Trail) (l : Ir.Line) (b : Bool) :
    o.bit ((l, b) :: t) (Cond.bitOf fn l.id) = b := by
  simp [bit, Cond.bitOf]

end Outcomes

/-! ## Blocks -/

namespace Ir

/-- A place in a run of blocks: what is left of a block, where it was entered from, and the trail.
    -/
structure Point where
  label : Label
  source : Option Label
  rest : List Line
  term : Option Term
  trail : Trail

/-- The start of a run, in a block. -/
def Block.start (block : Block) : Point := ⟨block.label, none, block.lines, block.term, []⟩

namespace Point

/-- Goes on to a block. -/
def enter (p : Point) (block : Block) : Point :=
  ⟨block.label, some p.label, block.lines, block.term, p.trail⟩

section
variable {fn : FuncId} (o : Outcomes fn)

/-- Where the terminator leads. -/
def target (p : Point) : Option Label :=
  match p.term with
  | some (.br l) => some l
  | some (.condBr v yes no) => some (if o.bit p.trail v then yes else no)
  | _ => none

/-- Executes an instruction, or goes on to the next block. -/
def step (blocks : List Block) (p : Point) : Option Point :=
  match p.rest with
  | l :: rest =>
    some { p with rest, trail := (l, o.computeFrom p.source p.trail l) :: p.trail }
  | [] => (p.target o).bind fun l => (findBlock blocks l.id).map p.enter

/-- The block is done and its terminator leads to a label. -/
def Leaves (p : Point) (l : Label) : Prop := p.rest = [] ∧ p.target o = some l

/-- The block is done and the function ends here. -/
def Ends (p : Point) (t : Term) : Prop := p.rest = [] ∧ p.term = some t ∧ t.successors = []

end

end Point

section
variable {fn : FuncId} {o : Outcomes fn} {blocks : List Block} {p q r : Point}

/-- A number of steps. -/
inductive Steps (o : Outcomes fn) (blocks : List Block) : Nat → Point → Point → Prop where
  | zero (p : Point) : Steps o blocks 0 p p
  | succ {n : Nat} {p q r : Point} :
    p.step o blocks = some q → Steps o blocks n q r → Steps o blocks (n + 1) p r

theorem Steps.one (h : p.step o blocks = some q) : Steps o blocks 1 p q := .succ h (.zero q)

theorem Steps.trans {m n : Nat} (h₁ : Steps o blocks m p q) (h₂ : Steps o blocks n q r) :
    Steps o blocks (m + n) p r := by
  induction h₁ with
  | zero => rwa [Nat.zero_add]
  | @succ m p q' q hs _ ih =>
    rw [Nat.add_right_comm]
    exact .succ hs (ih h₂)

theorem Point.Ends.step {t : Term} (h : p.Ends t) : p.step o blocks = none := by
  obtain ⟨hr, ht, hs⟩ := h
  unfold Point.step Point.target
  rw [hr, ht]
  cases t <;> simp_all [Term.successors]

/-- Runs are deterministic: of two, the longer one goes on from where the shorter one is. -/
theorem Steps.rest {m n : Nat} (h₁ : Steps o blocks m p q) (h₂ : Steps o blocks n p r)
    (hle : m ≤ n) : Steps o blocks (n - m) q r := by
  induction h₁ generalizing n with
  | zero => exact h₂
  | succ hs _ ih =>
    cases h₂ with
    | zero => cases hle
    | succ hs' h₂ =>
      cases hs.symm.trans hs'
      rw [Nat.add_sub_add_right]
      exact ih h₂ (Nat.le_of_succ_le_succ hle)

/-- Nothing comes after the end. -/
theorem Steps.le_of_ends {m n : Nat} {t : Term} (h₁ : Steps o blocks m p q)
    (h₂ : Steps o blocks n p r) (he : r.Ends t) : m ≤ n := by
  by_cases hle : m ≤ n
  · exact hle
  · -- A longer run would take a step from the end.
    have hr := h₂.rest h₁ (by omega)
    cases hd : m - n with
    | zero => omega
    | succ k =>
      rw [hd] at hr
      cases hr with
      | succ hs _ =>
        rw [he.step] at hs
        cases hs

/-- The end is one. -/
theorem Steps.ends_unique {m n : Nat} {t t' : Term} (h₁ : Steps o blocks m p q)
    (h₂ : Steps o blocks n p r) (hq : q.Ends t) (hr : r.Ends t') : q = r := by
  have hn : n - m = 0 := by
    have := h₂.le_of_ends h₁ hq
    omega
  have h := h₁.rest h₂ (h₁.le_of_ends h₂ hr)
  rw [hn] at h
  cases h
  rfl

/-- A step executes one instruction or none. -/
theorem Point.step_trail (h : p.step o blocks = some q) :
    q.trail = p.trail ∨ ∃ e, q.trail = e :: p.trail := by
  unfold Point.step at h
  split at h
  · cases h
    exact .inr ⟨_, rfl⟩
  · obtain ⟨l, -, h⟩ := Option.bind_eq_some_iff.mp h
    obtain ⟨block, -, rfl⟩ := Option.map_eq_some_iff.mp h
    exact .inl rfl

theorem Steps.trail_suffix {n : Nat} (h : Steps o blocks n p q) : p.trail <:+ q.trail := by
  induction h with
  | zero p => exact List.suffix_refl _
  | succ hs _ ih =>
    rcases Point.step_trail hs with he | ⟨e, he⟩
    · exact he ▸ ih
    · exact (he ▸ List.suffix_cons e _ : _ <:+ _).trans ih

/-- Every part of a trail was the trail at some time. -/
theorem Steps.exists_trail {n : Nat} (h : Steps o blocks n p q) :
    ∀ t, p.trail <:+ t → t <:+ q.trail → ∃ m r, Steps o blocks m p r ∧ r.trail = t := by
  induction h with
  | zero p => exact fun t h₁ h₂ => ⟨0, p, .zero p, h₁.eq_of_length_le h₂.length_le⟩
  | @succ n p p' q hs _ ih =>
    intro t h₁ h₂
    by_cases ht : t = p.trail
    · exact ⟨0, p, .zero p, ht.symm⟩
    have hnext : p'.trail <:+ t := by
      rcases Point.step_trail hs with he | ⟨e, he⟩
      · rwa [he]
      · -- The part is longer than the trail before the step, so it holds what the step executed.
        rw [he]
        have hq : e :: p.trail <:+ q.trail := he ▸ Steps.trail_suffix ‹_›
        refine List.suffix_of_suffix_length_le hq h₂ ?_
        have hlt : p.trail.length < t.length := by
          refine Nat.lt_of_le_of_ne h₁.length_le fun hlen => ht ?_
          exact (h₁.eq_of_length hlen).symm
        exact hlt
    obtain ⟨m, r, hr, htr⟩ := ih t hnext h₂
    exact ⟨m + 1, r, .succ hs hr, htr⟩

/-- Instructions that join no values run one after the other. -/
theorem Steps.lines {label : Label} {source : Option Label} {term : Option Term} :
    ∀ (lines : List Line) (t : Trail), (∀ l ∈ lines, l.inst.isPhi = false) →
      Steps o blocks lines.length ⟨label, source, lines, term, t⟩
        ⟨label, source, [], term, o.execute t lines⟩
  | [], _, _ => .zero _
  | l :: lines, t, h => by
    have hl := o.computeFrom_of_not_phi (h l List.mem_cons_self) source t
    refine .succ (q := ⟨label, source, lines, term, (l, o.compute t l) :: t⟩) ?_
      (Steps.lines lines _ fun l' hl' => h l' (List.mem_cons_of_mem _ hl'))
    rw [← hl]
    rfl

/-- A point that leaves to a label enters the block there. -/
theorem Point.Leaves.step {l : Label} {block : Block} (h : p.Leaves o l)
    (hb : findBlock blocks l.id = some block) : p.step o blocks = some (p.enter block) := by
  unfold Point.step
  rw [h.1]
  simp [h.2, hb]

end

/-- From the first block on, blocks can have executed a trail. -/
def Executes {fn : FuncId} (o : Outcomes fn) (blocks : List Block) (t : Trail) : Prop :=
  ∃ first n p, blocks.head? = some first ∧ Steps o blocks n first.start p ∧ p.trail = t

/-- From the first block on, blocks come to an end with a trail. -/
def Halts {fn : FuncId} (o : Outcomes fn) (blocks : List Block) (t : Trail) (term : Term) : Prop :=
  ∃ first n p, blocks.head? = some first ∧ Steps o blocks n first.start p ∧ p.Ends term ∧
    p.trail = t

end Ir

/-! ## Flows -/

/-- How a flow is left. -/
inductive Exit where
  /-- At its end. -/
  | through
  | jump (isBreak : Bool)
  | ret (value : Option Ir.Value)

/-- What comes of running a flow for a limited number of rounds of each loop. -/
inductive Progress where
  /-- Still in a loop. -/
  | unfinished (t : Trail)
  | finished (e : Exit) (t : Trail)

/-- What was executed. -/
def Progress.trail : Progress → Trail
  | .unfinished t | .finished _ t => t

/-- Goes on with another flow if the first one ran to its end. -/
def Progress.andThen (x : Progress) (next : Trail → Progress) : Progress :=
  match x with
  | .finished .through t => next t
  | _ => x

/-- Goes on in a loop after its body: a jump leaves the loop or goes on with it. -/
def Progress.inLoop (x : Progress) (next : Trail → Progress) : Progress :=
  match x with
  | .finished .through t | .finished (.jump false) t => next t
  | .finished (.jump true) t => .finished .through t
  | _ => x

theorem Progress.andThen_eq_through {x : Progress} {next : Trail → Progress} {t' : Trail}
    (h : x.andThen next = .finished .through t') :
    ∃ t, x = .finished .through t ∧ next t = .finished .through t' := by
  unfold Progress.andThen at h
  split at h
  · exact ⟨_, rfl, h⟩
  · rename_i hne
    exact absurd h (hne t')

section
variable {fn : Ir.FuncId} (o : Outcomes fn)

/-- The trail after code. -/
def Code.run : Code → Trail → Trail
  | .nil, t => t
  | .line l, t => (l, o.compute t l) :: t
  | .seq c d, t => d.run (c.run t)
  | .decide isAnd left right last join, t =>
    if o.bit t left = isAnd then (join, o.bit (right.run t) last) :: right.run t
    else (join, !isAnd) :: t

/-- Whether a condition holds, and the trail after it. -/
def Cond.run : Cond → Trail → Bool × Trail
  | .leaf c v, t => (o.bit (c.run o t) v, c.run o t)
  | .not x id, t =>
    let (b, t) := x.run t
    (!b, (negation id (x.value fn), !b) :: t)
  | .both isAnd x y join, t =>
    let (b, t) := x.run t
    let (b, t) := if b = isAnd then y.run t else (b, t)
    (b, (join, b) :: t)

/-- The test of a loop; without a condition it always goes on. -/
def Cond.test : Option Cond → Trail → Bool × Trail
  | none, t => (true, t)
  | some cond, t => cond.run o t

/-- A number of rounds of a loop. -/
def rounds (test : Trail → Bool × Trail) (body next : Trail → Progress) : Nat → Trail → Progress
  | 0, t => .unfinished t
  | n + 1, t =>
    let (b, t) := test t
    if b then (body t).inLoop fun t => (next t).andThen (rounds test body next n)
    else .finished .through t

/-- Runs a flow, with at most `n` rounds of each loop. -/
def Flow.run (n : Nat) : Flow → Trail → Progress
  | .skip, t => .finished .through t
  | .code c, t => .finished .through (c.run o t)
  | .seq f g, t => (f.run n t).andThen fun t => g.run n t
  | .choose cond yes no, t =>
    let (b, t) := cond.run o t
    if b then yes.run n t else no.run n t
  | .loop cond body next, t =>
    rounds (Cond.test o cond) (fun t => body.run n t) (fun t => next.run n t) n t
  | .jump isBreak, t => .finished (.jump isBreak) t
  | .ret c value, t => .finished (.ret value) (c.run o t)

/-- After a trail, a flow can have executed another one. -/
def Flow.Executes (f : Flow) (t₀ t : Trail) : Prop := ∃ n, t <:+ (f.run o n t₀).trail

/-- After a trail, a flow is left in some way with another one. -/
def Flow.Halts (f : Flow) (t₀ : Trail) (e : Exit) (t : Trail) : Prop :=
  ∃ n, f.run o n t₀ = .finished e t

/-- The code of a condition leaves its trail, and its value tells whether it holds. -/
theorem Cond.run_code (k : Cond) (t : Trail) :
    (k.code fn).run o t = (k.run o t).2 ∧ o.bit (k.run o t).2 (k.value fn) = (k.run o t).1 := by
  induction k generalizing t with
  | leaf c v => exact ⟨rfl, rfl⟩
  | not x id ih =>
    obtain ⟨htrail, hbit⟩ := ih t
    have hneg : o.compute (x.run o t).2 (negation id (x.value fn)) = !(x.run o t).1 := by
      simp [Outcomes.compute, negation, hbit]
    refine ⟨?_, o.bit_bitOf _ (negation id (x.value fn)) _⟩
    simp only [code, Code.run, run, htrail, hneg]
  | both isAnd x y join ihx ihy =>
    obtain ⟨htrail, hbit⟩ := ihx t
    refine ⟨?_, o.bit_bitOf _ join _⟩
    simp only [code, Code.run, run, htrail, hbit]
    by_cases hd : (x.run o t).1 = isAnd
    · obtain ⟨htrail', hbit'⟩ := ihy (x.run o t).2
      simp only [if_pos hd, htrail', hbit']
    · -- The left operand decides, and the join has its value.
      have hb : (x.run o t).1 = !isAnd := by
        cases isAnd <;> simpa using hd
      simp [hb]

/-- A flow that diverts does not run to its end. -/
theorem Flow.diverts_run (n : Nat) {f : Flow} (hf : f.diverts) (t t' : Trail) :
    f.run o n t ≠ .finished .through t' := by
  induction f generalizing t t' with
  | skip | code | loop => cases hf
  | seq f g ihf ihg =>
    intro h
    obtain ⟨t₁, h₁, h₂⟩ := Progress.andThen_eq_through h
    rcases Bool.or_eq_true_iff.mp hf with hf | hg
    · exact ihf hf t t₁ h₁
    · exact ihg hg t₁ t' h₂
  | choose cond yes no ihy ihn =>
    obtain ⟨hy, hn⟩ := Bool.and_eq_true_iff.mp hf
    simp only [run]
    split
    · exact ihy hy _ t'
    · exact ihn hn _ t'
  | jump isBreak => simp [run]
  | ret c value => simp [run]

end

end TreeLowering
