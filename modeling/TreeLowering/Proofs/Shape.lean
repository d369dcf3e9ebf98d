import TreeLowering.Proofs.Blocks

/-!
The shape of a body under construction.

`Shaped pending b` says which blocks are open: the one of the cursor, and the `pending` ones, which
were made for later and are still empty. Every other block has ended, every edge leads to a block
that is there, and every join of values has one entry for each block that leads to it. Growth by
code and by statements keeps the shape (`Grows.shaped`, `Builds.shaped`).
-/
namespace TreeLowering

/-- A block may be branched to: it is not the first one, and joins no values. -/
def Body.Target (b : Body) (l : Ir.Label) : Prop :=
  l.id ≠ 1 ∧ ∃ block, b.block? l.id = some block ∧ block.label = l ∧
    ∀ line ∈ block.lines, line.inst.isPhi = false

namespace Body.Target

variable {b : Body} {l : Ir.Label}

theorem addBlock (h : b.Target l) (name : String) : (b.addBlock name).Target l := by
  obtain ⟨h1, block, hb, hrest⟩ := h
  exact ⟨h1, block, block?_addBlock_of_some name hb, hrest⟩

theorem finish (h : b.Target l) (t : Ir.Term) : (b.finish t).Target l := by
  obtain ⟨h1, block, hb, hl, hp⟩ := h
  obtain ⟨block', hb', hl', hlines⟩ := block?_finish_of_some t hb
  exact ⟨h1, block', hb', hl'.trans hl, hlines ▸ hp⟩

theorem emit (h : b.Target l) {inst : Ir.Inst} (type : Ir.Ty)
    (hi : inst.isPhi = true → ∀ c, b.cursor = some c → c.id ≠ l.id) :
    (b.emit inst type).Target l := by
  obtain ⟨h1, block, hb, hl, hp⟩ := h
  obtain ⟨block', hb', hl', -, hlines | ⟨⟨c, hc, hid⟩, hlines⟩⟩ := block?_emit_of_some inst type hb
  · exact ⟨h1, block', hb', hl'.trans hl, hlines ▸ hp⟩
  · refine ⟨h1, block', hb', hl'.trans hl, fun line hm => ?_⟩
    rw [hlines] at hm
    rcases List.mem_append.mp hm with hm | hm
    · exact hp line hm
    · rw [List.mem_singleton.mp hm, Bool.eq_false_iff]
      exact fun hphi => hi hphi c hc hid.symm

theorem dropBlock (h : b.Target l) {l' : Ir.Label} (hne : l.id ≠ l'.id) :
    (b.dropBlock l').Target l := by
  obtain ⟨h1, block, hb, hrest⟩ := h
  exact ⟨h1, block, by rw [block?_dropBlock, if_neg hne, hb], hrest⟩

end Body.Target

/-- A join of values has one entry for each block that leads to it, and comes first. -/
structure Ir.Block.Joins (block : Ir.Block) (edge : Ir.Label → Prop) : Prop where
  first : ∀ line ∈ block.lines.tail, line.inst.isPhi = false
  entries : ∀ line incoming, block.lines.head? = some line → line.inst = .phi incoming →
    incoming ≠ [] ∧ (incoming.map Prod.snd).Nodup ∧ ∀ p, p ∈ incoming.map Prod.snd ↔ edge p

theorem Ir.Block.Joins.append {block : Ir.Block} {edge : Ir.Label → Prop} (h : block.Joins edge)
    {line : Ir.Line} (hp : line.inst.isPhi = false) :
    Ir.Block.Joins { block with lines := block.lines ++ [line] } edge := by
  obtain ⟨label, lines, term⟩ := block
  cases lines with
  | nil =>
    refine ⟨by simp, fun line' incoming hl hi => ?_⟩
    cases hl
    simp [hi, Ir.Inst.isPhi] at hp
  | cons head rest =>
    refine ⟨fun line' hl => ?_, fun line' incoming hl hi => ?_⟩
    · rcases List.mem_append.mp hl with hl | hl
      · exact h.first line' hl
      · rwa [List.mem_singleton.mp hl]
    · cases hl
      exact h.entries _ incoming rfl hi

/-- The shape of a body with some blocks made for later. -/
structure Shaped (pending : List Ir.Label) (b : Body) : Prop where
  nodup : pending.Nodup
  fresh : ∀ id block, b.block? id = some block → id < b.blockCount + 2
  cursor : ∀ l, b.cursor = some l → l ∉ pending ∧
    ∃ block, b.block? l.id = some block ∧ block.label = l ∧ block.term = none
  empty : ∀ l ∈ pending, l.id ≠ 1 ∧ b.block? l.id = some { label := l }
  ended : ∀ id block, b.block? id = some block → block.term = none →
    b.cursor = some block.label ∨ block.label ∈ pending
  slots : ∀ id block, b.block? id = some block → ∀ line ∈ block.lines, line.inst.isAlloca = false
  edges : ∀ p q, b.Edge p q → q.id ≠ 1 ∧ ∃ block, b.block? q.id = some block ∧ block.label = q
  loops : ∀ loop ∈ b.loops, b.Target loop.exit ∧ b.Target loop.next
  joins : ∀ id block, b.block? id = some block → block.Joins (b.Edge · block.label)
  setup : ∀ line ∈ b.vars, line.inst.isPhi = false

namespace Shaped

variable {P P' : List Ir.Label} {b b' : Body} {l : Ir.Label}

theorem perm (h : Shaped P b) (hp : P.Perm P') : Shaped P' b :=
  { h with
    nodup := hp.nodup_iff.mp h.nodup
    cursor := fun l hl => ⟨fun hm => (h.cursor l hl).1 (hp.mem_iff.mpr hm), (h.cursor l hl).2⟩
    empty := fun l hl => h.empty l (hp.mem_iff.mpr hl)
    ended := fun id block hb ht => (h.ended id block hb ht).imp_right hp.mem_iff.mp }

theorem target_of_pending (h : Shaped P b) (hl : l ∈ P) : b.Target l :=
  ⟨(h.empty l hl).1, _, (h.empty l hl).2, rfl, by simp⟩

theorem open_cursor (h : Shaped P b) (l : Ir.Label) (hl : b.cursor = some l) :
    ∃ block, b.block? l.id = some block ∧ block.term = none := by
  obtain ⟨-, block, hb, -, ht⟩ := h.cursor l hl
  exact ⟨block, hb, ht⟩

/-- Ending the block of the cursor adds the edges of the terminator. -/
theorem edge_finish (h : Shaped P b) {t : Ir.Term} {p q : Ir.Label} :
    (b.finish t).Edge p q ↔ b.Edge p q ∨ b.cursor = some p ∧ q ∈ t.successors := by
  constructor
  · intro he
    rcases Body.edge_finish he with he | ⟨⟨l, block, hc, hb, hp⟩, hq⟩
    · exact .inl he
    · obtain ⟨-, block', hb', hl, -⟩ := h.cursor l hc
      cases hb.symm.trans hb'
      exact .inr ⟨by rw [hc, ← hl, hp], hq⟩
  · rintro (he | ⟨hc, hq⟩)
    · exact Body.edge_finish_of_edge h.open_cursor he
    · obtain ⟨-, block, hb, hl, -⟩ := h.cursor p hc
      exact Body.edge_finish_of_cursor hc hb hl hq

/-- A block that has ended is not the one of the cursor. -/
theorem ne_cursor_of_ended (h : Shaped P b) {id : Nat} {block : Ir.Block}
    (hb : b.block? id = some block) (ht : block.term.isSome) (hc : b.cursor = some l) :
    id ≠ l.id := by
  rintro rfl
  obtain ⟨block', hb', hopen⟩ := h.open_cursor l hc
  cases hb.symm.trans hb'
  simp [hopen] at ht

/-- A pending block is not the one of the cursor. -/
theorem ne_cursor_of_pending (h : Shaped P b) (hl : l ∈ P) {c : Ir.Label} (hc : b.cursor = some c) :
    l.id ≠ c.id := by
  obtain ⟨hcm, cur, hcur, hcl, -⟩ := h.cursor c hc
  intro he
  have hb := (h.empty l hl).2
  rw [he, hcur] at hb
  cases hb
  exact hcm (hcl ▸ hl)

/-- Ending the block of the cursor leaves the pending blocks alone. -/
theorem empty_finish (h : Shaped P b) (hl : l ∈ P) (t : Ir.Term) :
    (b.finish t).block? l.id = some { label := l } := by
  obtain ⟨-, hb⟩ := h.empty l hl
  cases hc : b.cursor with
  | none => rwa [Body.finish_eq_self hc]
  | some c =>
    rw [Body.block?_finish hc, hb]
    simp [h.ne_cursor_of_pending hl hc]

theorem target_id_lt (h : Shaped P b) (hl : b.Target l) : l.id < b.blockCount + 2 := by
  obtain ⟨-, block, hb, -⟩ := hl
  exact h.fresh _ _ hb

/-! ## Steps -/

theorem vars (h : Shaped P b) {inst : Ir.Inst} (type : Ir.Ty) (hp : inst.isPhi = false) :
    Shaped P (b.addVarsLine inst type) := by
  refine ⟨h.nodup, h.fresh, h.cursor, h.empty, h.ended, h.slots, h.edges, h.loops, h.joins, ?_⟩
  intro line hl
  rcases List.mem_append.mp hl with hl | hl
  · exact h.setup line hl
  · rwa [List.mem_singleton.mp hl]

theorem exitLoop (h : Shaped P b) : Shaped P b.exitLoop :=
  { h with loops := fun loop hl => h.loops loop (List.mem_of_mem_tail hl) }

theorem enterLoop (h : Shaped P b) (loop : Loop) (he : b.Target loop.exit)
    (hn : b.Target loop.next) : Shaped P (b.enterLoop loop) :=
  { h with
    loops := fun loop' hl => by
      rcases List.mem_cons.mp hl with rfl | hl
      · exact ⟨he, hn⟩
      · exact h.loops loop' hl }

/-- The cursor enters a pending block. -/
theorem enter (h : Shaped (l :: P) b) (hc : b.cursor = none) : Shaped P (b.goto l) where
  nodup := (List.nodup_cons.mp h.nodup).2
  fresh := h.fresh
  cursor := by
    intro l' hl
    cases hl
    exact ⟨(List.nodup_cons.mp h.nodup).1, _, (h.empty l (by simp)).2, rfl, rfl⟩
  empty := fun l' hl => h.empty l' (List.mem_cons_of_mem _ hl)
  ended := by
    intro id block hb ht
    rcases h.ended id block hb ht with hcur | hm
    · rw [hc] at hcur
      cases hcur
    · rcases List.mem_cons.mp hm with rfl | hm
      · exact .inl rfl
      · exact .inr hm
  slots := h.slots
  edges := h.edges
  loops := h.loops
  joins := h.joins
  setup := h.setup

/-- A new block is pending. -/
theorem addBlock (h : Shaped P b) (name : String) :
    Shaped (b.nextLabel name :: P) (b.addBlock name) := by
  -- The number is fresh.
  have hnew : b.block? (b.blockCount + 2) = none := by
    cases hb : b.block? (b.blockCount + 2) with
    | none => rfl
    | some block => exact absurd (h.fresh _ _ hb) (Nat.lt_irrefl _)
  have old : ∀ {id block}, b.block? id = some block →
      (b.addBlock name).block? id = some block := Body.block?_addBlock_of_some name
  have new : (b.addBlock name).block? (b.blockCount + 2) = some { label := b.nextLabel name } := by
    simp [Body.block?_addBlock, hnew]
  constructor
  case setup => exact h.setup
  case nodup =>
    refine List.nodup_cons.mpr ⟨fun hm => ?_, h.nodup⟩
    have := (h.empty _ hm).2
    rw [Body.nextLabel_id, hnew] at this
    cases this
  case fresh =>
    intro id block hb
    rw [Body.addBlock_blockCount]
    rcases Body.block?_addBlock_inv hb with hb | ⟨rfl, -⟩
    · have := h.fresh id block hb
      omega
    · omega
  case cursor =>
    intro l hl
    obtain ⟨hm, block, hb, hlabel, ht⟩ := h.cursor l hl
    refine ⟨fun hm' => ?_, block, old hb, hlabel, ht⟩
    rcases List.mem_cons.mp hm' with rfl | hm'
    · rw [Body.nextLabel_id, hnew] at hb
      cases hb
    · exact hm hm'
  case empty =>
    intro l hl
    rcases List.mem_cons.mp hl with rfl | hl
    · exact ⟨by simp, new⟩
    · exact ⟨(h.empty l hl).1, old (h.empty l hl).2⟩
  case ended =>
    intro id block hb ht
    rcases Body.block?_addBlock_inv hb with hb | ⟨-, rfl⟩
    · exact (h.ended id block hb ht).imp_right (List.mem_cons_of_mem _)
    · exact .inr (by simp)
  case slots =>
    intro id block hb
    rcases Body.block?_addBlock_inv hb with hb | ⟨-, rfl⟩
    · exact h.slots id block hb
    · simp
  case edges =>
    intro p q he
    obtain ⟨h1, block, hb, hl⟩ := h.edges p q (Body.edge_addBlock.mp he)
    exact ⟨h1, block, old hb, hl⟩
  case loops =>
    exact fun loop hl => ⟨(h.loops loop hl).1.addBlock name, (h.loops loop hl).2.addBlock name⟩
  case joins =>
    intro id block hb
    simp only [Body.edge_addBlock]
    rcases Body.block?_addBlock_inv hb with hb | ⟨-, rfl⟩
    · exact h.joins id block hb
    · exact ⟨by simp, by simp⟩

/-- The block of the cursor ends, in a branch to blocks that may be branched to. -/
theorem leave (h : Shaped P b) {t : Ir.Term} (ht : ∀ q ∈ t.successors, b.Target q) :
    Shaped P (b.finish t).halt := by
  cases hc : b.cursor with
  | none =>
    rw [Body.finish_eq_self hc]
    exact { h with
      cursor := fun l hl => by cases hl
      ended := fun id block hb ho => by
        rcases h.ended id block hb ho with hcur | hm
        · rw [hc] at hcur
          cases hcur
        · exact .inr hm }
  | some c =>
    constructor
    case nodup => exact h.nodup
    case setup => simpa using h.setup
    case fresh =>
      intro id block hb
      obtain ⟨old, hold, -⟩ := Body.block?_finish_inv hc hb
      simpa using h.fresh id old hold
    case cursor =>
      intro l hl
      cases hl
    case empty => exact fun l hl => ⟨(h.empty l hl).1, h.empty_finish hl t⟩
    case ended =>
      intro id block hb ho
      obtain ⟨old, hold, -, -, ⟨-, hterm⟩ | ⟨hne, rfl⟩⟩ := Body.block?_finish_inv hc hb
      · simp [hterm] at ho
      · rcases h.ended id block hold ho with hcur' | hm
        · rw [hc] at hcur'
          cases hcur'
          exact absurd (Body.block?_id hold).symm hne
        · exact .inr hm
    case slots =>
      intro id block hb
      obtain ⟨old, hold, -, hlines, -⟩ := Body.block?_finish_inv hc hb
      exact hlines ▸ h.slots id old hold
    case edges =>
      intro p q he
      have hq : q.id ≠ 1 ∧ ∃ block, b.block? q.id = some block ∧ block.label = q := by
        rcases h.edge_finish.mp he with he | ⟨-, hq⟩
        · exact h.edges p q he
        · obtain ⟨h1, block, hb, hl, -⟩ := ht q hq
          exact ⟨h1, block, hb, hl⟩
      obtain ⟨h1, block, hb, hl⟩ := hq
      obtain ⟨block', hb', hl', -⟩ := Body.block?_finish_of_some t hb
      exact ⟨h1, block', hb', hl'.trans hl⟩
    case loops =>
      intro loop hl
      rw [Body.halt_loops, Body.finish_loops] at hl
      exact ⟨(h.loops loop hl).1.finish t, (h.loops loop hl).2.finish t⟩
    case joins =>
      intro id block hb
      obtain ⟨old, hold, hlabel, hlines, -⟩ := Body.block?_finish_inv hc hb
      obtain ⟨hfirst, hentries⟩ := h.joins id old hold
      refine ⟨hlines ▸ hfirst, fun line incoming hhead hphi => ?_⟩
      rw [hlines] at hhead
      obtain ⟨hne, hnd, hedge⟩ := hentries line incoming hhead hphi
      refine ⟨hne, hnd, fun p => (hedge p).trans ?_⟩
      rw [hlabel]
      refine ⟨fun he => h.edge_finish.mpr (.inl he), fun he => ?_⟩
      rcases h.edge_finish.mp he with he | ⟨-, hq⟩
      · exact he
      · -- A block that joins values is not branched to.
        obtain ⟨-, block', hb', -, hp⟩ := ht _ hq
        rw [Body.block?_id hold, hold] at hb'
        cases hb'
        have := hp line (List.mem_of_mem_head? hhead)
        simp [hphi, Ir.Inst.isPhi] at this

/-- An instruction goes to the block of the cursor, where a join of values has to be right and the
    block must not be the target of a loop. -/
theorem emit (h : Shaped P b) {inst : Ir.Inst} {type : Ir.Ty} (ha : inst.isAlloca = false)
    (hj : ∀ block, b.cursor = some block.label → b.block? block.label.id = some block →
      Ir.Block.Joins { block with lines := block.lines ++ [⟨b.lineCount, inst, type⟩] }
        (b.Edge · block.label))
    (ht : inst.isPhi = true → ∀ c, b.cursor = some c → ∀ loop ∈ b.loops,
      c.id ≠ loop.exit.id ∧ c.id ≠ loop.next.id) :
    Shaped P (b.emit inst type) := by
  cases hc : b.cursor with
  | none =>
    have he : b.emit inst type = b := by simp [Body.emit, hc]
    rwa [he]
  | some c =>
    obtain ⟨-, cur, hcur, hcl, -⟩ := h.cursor c hc
    constructor
    case nodup => exact h.nodup
    case setup => simpa using h.setup
    case fresh =>
      intro id block hb
      obtain ⟨old, hold, -⟩ := Body.block?_emit_inv hc hb
      simpa using h.fresh id old hold
    case cursor =>
      intro l hl
      rw [Body.emit_cursor] at hl
      obtain ⟨hm, block, hb, hlabel, hterm⟩ := h.cursor l hl
      obtain ⟨block', hb', hl', ht', -⟩ := Body.block?_emit_of_some inst type hb
      exact ⟨hm, block', hb', hl'.trans hlabel, ht'.trans hterm⟩
    case empty =>
      intro l hl
      obtain ⟨h1, hb⟩ := h.empty l hl
      refine ⟨h1, ?_⟩
      rw [Body.block?_emit hc, hb]
      simp [h.ne_cursor_of_pending hl hc]
    case ended =>
      intro id block hb ho
      obtain ⟨old, hold, hlabel, hterm, -⟩ := Body.block?_emit_inv hc hb
      rw [hlabel, Body.emit_cursor]
      exact h.ended id old hold (hterm ▸ ho)
    case slots =>
      intro id block hb line hl
      obtain ⟨old, hold, -, -, ⟨-, rfl⟩ | ⟨-, rfl⟩⟩ := Body.block?_emit_inv hc hb
      · rcases List.mem_append.mp hl with hl | hl
        · exact h.slots id old hold line hl
        · rwa [List.mem_singleton.mp hl]
      · exact h.slots id block hold line hl
    case edges =>
      intro p q he
      obtain ⟨h1, block, hb, hl⟩ := h.edges p q (Body.edge_emit.mp he)
      obtain ⟨block', hb', hl', -⟩ := Body.block?_emit_of_some inst type hb
      exact ⟨h1, block', hb', hl'.trans hl⟩
    case loops =>
      intro loop hl
      rw [Body.emit_loops] at hl
      obtain ⟨hexit, hnext⟩ := h.loops loop hl
      exact ⟨hexit.emit type fun hp c hc => (ht hp c hc loop hl).1,
        hnext.emit type fun hp c hc => (ht hp c hc loop hl).2⟩
    case joins =>
      intro id block hb
      simp only [Body.edge_emit]
      obtain ⟨old, hold, hlabel, -, ⟨hid, rfl⟩ | ⟨-, rfl⟩⟩ := Body.block?_emit_inv hc hb
      · subst hid
        rw [hcur] at hold
        cases hold
        exact hj cur (hcl ▸ hc) (hcl ▸ hcur)
      · exact h.joins id block hold

/-- An instruction that neither makes a stack slot nor joins values. -/
theorem line (h : Shaped P b) {inst : Ir.Inst} (type : Ir.Ty) (hp : inst.isPhi = false)
    (ha : inst.isAlloca = false) : Shaped P (b.emit inst type) :=
  h.emit ha (fun block _ hb => (h.joins _ block hb).append hp) (by simp [hp])

/-- The join of a conditional is entered; it comes last now. -/
theorem keepLast (h : Shaped (l :: P) b.halt) : Shaped P ((b.moveToEnd l).goto l) := by
  have hs : Shaped (l :: P) (b.moveToEnd l).halt := by
    have edge : ∀ p q, (b.moveToEnd l).halt.Edge p q ↔ b.halt.Edge p q := by
      intro p q
      simp only [Body.edge_iff, Body.block?_halt, Body.block?_moveToEnd]
    have target : ∀ q, (b.moveToEnd l).halt.Target q ↔ b.halt.Target q := by
      intro q
      simp only [Body.Target, Body.block?_halt, Body.block?_moveToEnd]
    constructor
    case nodup => exact h.nodup
    case setup => exact h.setup
    case loops => exact fun loop hl => by simpa only [target] using h.loops loop hl
    case edges =>
      intro p q he
      simpa using h.edges p q ((edge p q).mp he)
    case joins =>
      intro id block hb
      simp only [edge]
      exact h.joins id block (by simpa using hb)
    case cursor => simp
    case fresh => exact fun id block hb => h.fresh id block (by simpa using hb)
    case empty => simpa using h.empty
    case ended => simpa using h.ended
    case slots => simpa using h.slots
  exact hs.enter rfl

/-- A join that nothing leads to goes away. -/
theorem drop (h : Shaped (l :: P) b.halt) (hl : ∀ loop ∈ b.loops, l ≠ loop.exit ∧ l ≠ loop.next)
    (he : ∀ p, ¬b.Edge p l) : Shaped P (b.dropBlock l).halt := by
  have hl0 : b.block? l.id = some { label := l } := (h.empty l (by simp)).2
  have inv : ∀ {id block}, (b.dropBlock l).block? id = some block →
      id ≠ l.id ∧ b.block? id = some block := by
    intro id block hb
    rw [Body.block?_dropBlock] at hb
    split at hb
    · cases hb
    · exact ⟨‹_›, hb⟩
  have keep : ∀ {id block}, b.block? id = some block → id ≠ l.id →
      (b.dropBlock l).block? id = some block := by
    intro id block hb hid
    rw [Body.block?_dropBlock, if_neg hid, hb]
  -- A block found under its label is another one if its label is.
  have apart : ∀ {q block}, b.block? q.id = some block → block.label = q → q ≠ l →
      q.id ≠ l.id := by
    intro q block hb hq hne hid
    rw [hid, hl0] at hb
    cases hb
    exact hne hq.symm
  have target : ∀ {q}, b.Target q → q ≠ l → (b.dropBlock l).halt.Target q := by
    intro q hq hne
    obtain ⟨-, block, hb, hl, -⟩ := id hq
    exact hq.dropBlock (apart hb hl hne)
  have edge : ∀ {p q}, (b.dropBlock l).halt.Edge p q ↔ b.Edge p q := by
    intro p q
    constructor
    · exact Body.edge_dropBlock
    · rintro ⟨block, t, hb, hp, ht, hq⟩
      refine ⟨block, t, keep hb (apart hb hp fun hpl => ?_), hp, ht, hq⟩
      rw [hpl, ← Body.block?, hl0] at hb
      cases hb
      cases ht
  constructor
  case nodup => exact (List.nodup_cons.mp h.nodup).2
  case setup => exact h.setup
  case fresh => exact fun id block hb => h.fresh id block (inv hb).2
  case cursor => simp
  case empty =>
    intro q hq
    obtain ⟨h1, hb⟩ := h.empty q (List.mem_cons_of_mem _ hq)
    refine ⟨h1, keep hb (apart hb rfl fun hql => ?_)⟩
    exact (List.nodup_cons.mp h.nodup).1 (hql ▸ hq)
  case ended =>
    intro id block hb ht
    obtain ⟨hid, hb⟩ := inv hb
    rcases h.ended id block hb ht with hc | hm
    · cases hc
    · rcases List.mem_cons.mp hm with hbl | hm
      · exact absurd ((Body.block?_id hb).symm.trans (by rw [hbl])) hid
      · exact .inr hm
  case slots => exact fun id block hb => h.slots id block (inv hb).2
  case edges =>
    intro p q hpq
    have hpq := edge.mp hpq
    obtain ⟨h1, block, hb, hq⟩ := h.edges p q hpq
    exact ⟨h1, block, keep hb (apart hb hq fun hql => he p (hql ▸ hpq)), hq⟩
  case loops =>
    intro loop hloop
    obtain ⟨hexit, hnext⟩ := h.loops loop hloop
    exact ⟨target hexit (Ne.symm (hl loop hloop).1), target hnext (Ne.symm (hl loop hloop).2)⟩
  case joins =>
    intro id block hb
    simp only [edge]
    exact h.joins id block (inv hb).2

end Shaped

end TreeLowering
