import TreeLowering.Proofs.Growth

/-!
The blocks of a body by identity. `block?` finds a block, and every change of a body is described by
what it does to the blocks that `block?` finds; the order of the blocks, which joins change, does
not show. `Edge` is the graph that the terminators span.
-/
namespace TreeLowering

namespace Ir

/-- The block with an identity. -/
def findBlock (blocks : List Block) (id : Nat) : Option Block :=
  blocks.find? fun block => block.label.id = id

/-- The block `source` ends in a terminator that leads to `target`. -/
def Edge (blocks : List Block) (source target : Label) : Prop :=
  ∃ block t, findBlock blocks source.id = some block ∧ block.label = source ∧
    block.term = some t ∧ target ∈ t.successors

theorem findBlock_id {blocks : List Block} {id : Nat} {block : Block}
    (h : findBlock blocks id = some block) : block.label.id = id := by
  simpa using List.find?_some h

theorem findBlock_mem {blocks : List Block} {id : Nat} {block : Block}
    (h : findBlock blocks id = some block) : block ∈ blocks := List.mem_of_find?_eq_some h

/-- Blocks with distinct identities are found by theirs. -/
theorem findBlock_of_mem {blocks : List Block} {block : Block}
    (hn : (blocks.map fun block => block.label.id).Nodup) (h : block ∈ blocks) :
    findBlock blocks block.label.id = some block := by
  induction blocks with
  | nil => cases h
  | cons first rest ih =>
    rw [List.map_cons, List.nodup_cons] at hn
    unfold findBlock
    rw [List.find?_cons]
    rcases List.mem_cons.mp h with rfl | hr
    · simp
    · have hne : first.label.id ≠ block.label.id := by
        intro he
        exact hn.1 (he ▸ List.mem_map_of_mem hr)
      simp only [hne, decide_false]
      exact ih hn.2 hr

end Ir

namespace Body

/-- The block of a body with an identity. -/
def block? (b : Body) (id : Nat) : Option Ir.Block := Ir.findBlock b.blocks id

/-- The graph of a body. -/
def Edge (b : Body) (source target : Ir.Label) : Prop := Ir.Edge b.blocks source target

variable {b : Body} {l : Ir.Label} {id : Nat}

theorem block?_id {block : Ir.Block} (h : b.block? id = some block) : block.label.id = id :=
  Ir.findBlock_id h

/-! ## Changes of a body -/

theorem block?_updateBlock {f : Ir.Block → Ir.Block} (hf : ∀ block, (f block).label = block.label) :
    (b.updateBlock l f).block? id =
      (b.block? id).map fun block => if id = l.id then f block else block := by
  unfold block? updateBlock Ir.findBlock
  simp only [List.find?_map]
  -- The change keeps labels, so the same block is found, changed or not.
  have hp : ((fun block : Ir.Block => decide (block.label.id = id)) ∘ fun block =>
      if block.label.id = l.id then f block else block) =
      fun block => decide (block.label.id = id) := by
    funext block
    simp only [Function.comp]
    split <;> simp [hf]
  rw [hp]
  cases h : b.blocks.find? fun block => decide (block.label.id = id) with
  | none => rfl
  | some block =>
    have hid : block.label.id = id := by simpa using List.find?_some h
    simp [hid]

theorem block?_addBlock (name : String) :
    (b.addBlock name).block? id =
      (b.block? id).or (if b.blockCount + 2 = id then some { label := b.nextLabel name }
        else none) := by
  unfold block? Ir.findBlock
  rw [addBlock_blocks, List.find?_append, List.find?_cons]
  by_cases h : b.blockCount + 2 = id <;> simp [h]

theorem block?_dropBlock :
    (b.dropBlock l).block? id = if id = l.id then none else b.block? id := by
  unfold block? Ir.findBlock dropBlock
  rw [List.find?_filter]
  by_cases h : id = l.id
  · subst h
    simp
  · rw [if_neg h]
    congr 1
    funext block
    by_cases hb : block.label.id = id <;> simp [hb, h]

@[simp] theorem block?_moveToEnd : (b.moveToEnd l).block? id = b.block? id := by
  have hd : Ir.findBlock (b.blocks.filter fun block => block.label.id ≠ l.id) id =
      if id = l.id then none else b.block? id := block?_dropBlock
  unfold block? Ir.findBlock moveToEnd at *
  rw [List.find?_append, hd]
  by_cases h : id = l.id
  · subst h
    simp
  · have hn : (b.blocks.filter fun block => block.label.id = l.id).find?
        (fun block => block.label.id = id) = none := by
      rw [List.find?_eq_none]
      intro block hm hb
      simp only [List.mem_filter, decide_eq_true_eq] at hm hb
      exact h (hb.symm.trans hm.2)
    rw [if_neg h, hn, Option.or_none]

theorem block?_emit {inst : Ir.Inst} {type : Ir.Ty} (hc : b.cursor = some l) :
    (b.emit inst type).block? id = (b.block? id).map fun block =>
      if id = l.id then { block with lines := block.lines ++ [⟨b.lineCount, inst, type⟩] }
      else block := by
  have he : b.emit inst type = b.addLine l inst type := by simp [emit, hc]
  rw [he]
  exact block?_updateBlock fun _ => rfl

theorem block?_finish {t : Ir.Term} (hc : b.cursor = some l) :
    (b.finish t).block? id = (b.block? id).map fun block =>
      if id = l.id then { block with term := some t } else block := by
  have he : b.finish t = b.setTerm l t := by simp [finish, hc]
  rw [he]
  exact block?_updateBlock fun _ => rfl

@[simp] theorem block?_addVarsLine (inst : Ir.Inst) (type : Ir.Ty) :
    (b.addVarsLine inst type).block? id = b.block? id := rfl

@[simp] theorem block?_goto : (b.goto l).block? id = b.block? id := rfl

@[simp] theorem block?_halt : b.halt.block? id = b.block? id := rfl

@[simp] theorem block?_enterLoop (loop : Loop) : (b.enterLoop loop).block? id = b.block? id := rfl

@[simp] theorem block?_exitLoop : b.exitLoop.block? id = b.block? id := rfl

theorem block?_addBlock_of_some {block : Ir.Block} (name : String) (hb : b.block? id = some block) :
    (b.addBlock name).block? id = some block := by
  simp [block?_addBlock, hb]

theorem block?_finish_of_some {block : Ir.Block} (t : Ir.Term) (hb : b.block? id = some block) :
    ∃ block', (b.finish t).block? id = some block' ∧ block'.label = block.label ∧
      block'.lines = block.lines := by
  cases hc : b.cursor with
  | none => exact ⟨block, by rwa [finish_eq_self hc], rfl, rfl⟩
  | some l =>
    rw [block?_finish hc, hb]
    refine ⟨_, rfl, ?_⟩
    split <;> exact ⟨rfl, rfl⟩

theorem block?_emit_of_some {block : Ir.Block} (inst : Ir.Inst) (type : Ir.Ty)
    (hb : b.block? id = some block) :
    ∃ block', (b.emit inst type).block? id = some block' ∧ block'.label = block.label ∧
      block'.term = block.term ∧
      (block'.lines = block.lines ∨ (∃ l, b.cursor = some l ∧ id = l.id) ∧
        block'.lines = block.lines ++ [⟨b.lineCount, inst, type⟩]) := by
  cases hc : b.cursor with
  | none => exact ⟨block, by simpa [emit, hc] using hb, rfl, rfl, .inl rfl⟩
  | some l =>
    rw [block?_emit hc, hb]
    refine ⟨_, rfl, ?_⟩
    split
    · exact ⟨rfl, rfl, .inr ⟨⟨l, rfl, ‹_›⟩, rfl⟩⟩
    · exact ⟨rfl, rfl, .inl rfl⟩

/-- A block after one was added is an old one or the new one. -/
theorem block?_addBlock_inv {block : Ir.Block} {name : String}
    (hb : (b.addBlock name).block? id = some block) :
    b.block? id = some block ∨ id = b.blockCount + 2 ∧ block = { label := b.nextLabel name } := by
  rw [block?_addBlock, Option.or_eq_some_iff] at hb
  rcases hb with hb | ⟨-, hb⟩
  · exact .inl hb
  · split at hb
    · rename_i hid
      cases hb
      exact .inr ⟨hid.symm, rfl⟩
    · cases hb

/-- A block after that of the cursor has ended is this one, or as it was. -/
theorem block?_finish_inv {block : Ir.Block} {t : Ir.Term} (hc : b.cursor = some l)
    (hb : (b.finish t).block? id = some block) : ∃ old, b.block? id = some old ∧
      block.label = old.label ∧ block.lines = old.lines ∧
      (id = l.id ∧ block.term = some t ∨ id ≠ l.id ∧ block = old) := by
  rw [block?_finish hc, Option.map_eq_some_iff] at hb
  obtain ⟨old, hold, rfl⟩ := hb
  by_cases hid : id = l.id
  · exact ⟨old, hold, by simp [hid], by simp [hid], .inl ⟨hid, by simp [hid]⟩⟩
  · exact ⟨old, hold, by simp [hid], by simp [hid], .inr ⟨hid, by simp [hid]⟩⟩

/-- A block after an instruction was added is the one of the cursor, or as it was. -/
theorem block?_emit_inv {block : Ir.Block} {inst : Ir.Inst} {type : Ir.Ty}
    (hc : b.cursor = some l) (hb : (b.emit inst type).block? id = some block) :
    ∃ old, b.block? id = some old ∧ block.label = old.label ∧ block.term = old.term ∧
      (id = l.id ∧ block = { old with lines := old.lines ++ [⟨b.lineCount, inst, type⟩] } ∨
        id ≠ l.id ∧ block = old) := by
  rw [block?_emit hc, Option.map_eq_some_iff] at hb
  obtain ⟨old, hold, rfl⟩ := hb
  by_cases hid : id = l.id
  · exact ⟨old, hold, by simp [hid], by simp [hid], .inl ⟨hid, by simp [hid]⟩⟩
  · exact ⟨old, hold, by simp [hid], by simp [hid], .inr ⟨hid, by simp [hid]⟩⟩

/-! ## The graph -/

theorem edge_iff {p q : Ir.Label} :
    b.Edge p q ↔ ∃ block t, b.block? p.id = some block ∧ block.label = p ∧
      block.term = some t ∧ q ∈ t.successors := Iff.rfl

/-- Ending the block of the cursor adds the edges of the terminator, and hides those of a terminator
    that was there. -/
theorem edge_finish {t : Ir.Term} {p q : Ir.Label} (h : (b.finish t).Edge p q) :
    b.Edge p q ∨ (∃ l block, b.cursor = some l ∧ b.block? l.id = some block ∧ block.label = p) ∧
      q ∈ t.successors := by
  cases hc : b.cursor with
  | none =>
    rw [finish_eq_self hc] at h
    exact .inl h
  | some l =>
    obtain ⟨block, t', hb, hl, ht, hq⟩ := h
    rw [← block?, block?_finish hc, Option.map_eq_some_iff] at hb
    obtain ⟨block', hb, rfl⟩ := hb
    split at hl
    · rw [if_pos ‹_›] at ht
      cases ht
      exact .inr ⟨⟨l, block', rfl, ‹p.id = l.id› ▸ hb, hl⟩, hq⟩
    · rw [if_neg ‹_›] at ht
      exact .inl ⟨block', t', hb, hl, ht, hq⟩

theorem edge_finish_of_cursor {t : Ir.Term} {block : Ir.Block} {q : Ir.Label}
    (hc : b.cursor = some l) (hb : b.block? l.id = some block) (hl : block.label = l)
    (hq : q ∈ t.successors) : (b.finish t).Edge l q :=
  ⟨{ block with term := some t }, t, by rw [← block?, block?_finish hc]; simp [hb], hl, rfl, hq⟩

/-- The edges of blocks that have ended stay. -/
theorem edge_finish_of_edge {t : Ir.Term} {p q : Ir.Label}
    (hopen : ∀ l, b.cursor = some l → ∃ block, b.block? l.id = some block ∧ block.term = none)
    (h : b.Edge p q) : (b.finish t).Edge p q := by
  cases hc : b.cursor with
  | none => rwa [finish_eq_self hc]
  | some l =>
    obtain ⟨block, t', hb, hp, ht, hq⟩ := h
    have hne : p.id ≠ l.id := by
      intro he
      obtain ⟨block', hb', ht'⟩ := hopen l hc
      rw [he] at hb
      cases hb'.symm.trans hb
      simp [ht] at ht'
    refine ⟨block, t', ?_, hp, ht, hq⟩
    rw [← block?, block?_finish hc]
    simp [hne, show b.block? p.id = some block from hb]

theorem edge_emit {inst : Ir.Inst} {type : Ir.Ty} {p q : Ir.Label} :
    (b.emit inst type).Edge p q ↔ b.Edge p q := by
  cases hc : b.cursor with
  | none => simp [emit, hc]
  | some l =>
    simp only [edge_iff, block?_emit hc, Option.map_eq_some_iff]
    constructor
    · rintro ⟨_, t, ⟨block, hb, rfl⟩, hp, ht, hq⟩
      refine ⟨block, t, hb, ?_, ?_, hq⟩
      · split at hp <;> exact hp
      · split at ht <;> exact ht
    · rintro ⟨block, t, hb, hp, ht, hq⟩
      refine ⟨_, t, ⟨block, hb, rfl⟩, ?_, ?_, hq⟩
      · split <;> exact hp
      · split <;> exact ht

theorem edge_dropBlock {p q : Ir.Label} (h : (b.dropBlock l).Edge p q) : b.Edge p q := by
  obtain ⟨block, t, hb, hrest⟩ := h
  rw [← block?, block?_dropBlock] at hb
  split at hb
  · cases hb
  · exact ⟨block, t, hb, hrest⟩

theorem edge_addBlock {name : String} {p q : Ir.Label} :
    (b.addBlock name).Edge p q ↔ b.Edge p q := by
  simp only [edge_iff, block?_addBlock]
  constructor
  · rintro ⟨block, t, hb, hp, ht, hq⟩
    cases hf : b.block? p.id with
    | some block' =>
      rw [hf] at hb
      cases hb
      exact ⟨block, t, rfl, hp, ht, hq⟩
    | none =>
      rw [hf, Option.none_or] at hb
      split at hb
      · cases hb
        cases ht
      · cases hb
  · rintro ⟨block, t, hb, hp, ht, hq⟩
    exact ⟨block, t, by simp [hb], hp, ht, hq⟩

end Body

end TreeLowering
