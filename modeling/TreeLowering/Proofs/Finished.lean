import TreeLowering.Proofs.Construction
import TreeLowering.Proofs.Labels
import TreeLowering.Proofs.Verification

/-!
Finished functions. A function whose body was built from nothing and then ended follows the rules of
`Ir.Function.WellFormed`, its edges lead to its own blocks, and its joins match its edges.
-/
namespace TreeLowering

/-- The blocks of a function whose body was built by statements and then ended. -/
def Finished (fn : Ir.FuncId) (blocks : List Ir.Block) : Prop :=
  ∃ head result flow r b t, Builds none { fn, head, result } flow r b ∧
    t.successors = [] ∧ blocks = (b.finish t).closed

theorem shaped_start (fn : Ir.FuncId) (head : Option FuncHead) (result : Ty) :
    Shaped [] { fn, head, result } := by
  -- There is one block, and it is empty.
  have only : ∀ {id block}, Body.block? { fn, head, result } id = some block →
      id = 1 ∧ block = { label := entryLabel } := by
    intro id block hb
    have hm : block ∈ [({ label := entryLabel } : Ir.Block)] := Ir.findBlock_mem hb
    have hid := Body.block?_id hb
    rw [List.mem_singleton.mp hm] at hid ⊢
    exact ⟨hid.symm, rfl⟩
  constructor
  case nodup => exact .nil
  case fresh =>
    intro id block hb
    rw [(only hb).1]
    exact Nat.lt_succ_self 1
  case cursor =>
    intro l hl
    cases hl
    exact ⟨by simp, _, rfl, rfl, rfl⟩
  case empty => simp
  case ended =>
    intro id block hb _
    rw [(only hb).2]
    exact .inl rfl
  case slots =>
    intro id block hb
    rw [(only hb).2]
    simp
  case edges =>
    rintro p q ⟨block, t, hb, -, ht, -⟩
    rw [(only hb).2] at ht
    cases ht
  case loops => simp
  case joins =>
    intro id block hb
    rw [(only hb).2]
    exact ⟨by simp, by simp⟩
  case setup => simp

theorem labelled_start (fn : Ir.FuncId) (head : Option FuncHead) (result : Ty) :
    Labelled { fn, head, result } :=
  ⟨⟨[], rfl⟩, by simp [Body.labels], fun l hl => .inl (List.mem_singleton.mp hl)⟩

/-- A finished function is the closing of a body in shape in which nothing is left open. -/
theorem Finished.shaped {fn : Ir.FuncId} {blocks : List Ir.Block} (h : Finished fn blocks) :
    ∃ b : Body, Shaped [] b ∧ Labelled b ∧ b.cursor = none ∧ blocks = b.closed := by
  obtain ⟨head, result, flow, r, b, t, hb, ht, rfl⟩ := h
  obtain ⟨hs, -⟩ := hb.shaped (P := []) (shaped_start fn head result)
  have hl := hb.labelled (labelled_start fn head result)
  exact ⟨(b.finish t).halt, hs.leave (by simp [ht]), (hl.finish t).halt, rfl, rfl⟩

theorem Labelled.block?_of_mem {b : Body} (h : Labelled b) {block : Ir.Block}
    (hm : block ∈ b.blocks) : b.block? block.label.id = some block := by
  refine Ir.findBlock_of_mem ?_ hm
  have := h.nodup
  rwa [Body.labels, List.map_map] at this

/-! ## The rules of finished functions -/

section
variable {b : Body} (hs : Shaped [] b) (hl : Labelled b) (hc : b.cursor = none)
include hs hl hc

theorem Shaped.block_ended {block : Ir.Block} (hm : block ∈ b.blocks) : block.term.isSome := by
  cases ht : block.term with
  | some t => rfl
  | none =>
    rcases hs.ended _ block (hl.block?_of_mem hm) ht with h | h
    · rw [hc] at h
      cases h
    · cases h

theorem Shaped.wellFormed {f : Ir.Function} (hf : f.blocks = b.closed) : f.WellFormed := by
  obtain ⟨rest, hfirst⟩ := hl.first
  obtain ⟨entry, blocks, hblocks, hentry, -⟩ := List.map_eq_cons_iff.mp hfirst
  have names := hl.names_nodup
  have mem {block : Ir.Block} (hm : block ∈ entry :: blocks) : block ∈ b.blocks := hblocks ▸ hm
  rw [Body.closed, hblocks] at hf names
  refine fun _ => ⟨_, entry, blocks, hf, ?_⟩
  constructor
  case first => rfl
  case second => exact congrArg Ir.Label.name hentry
  case enters => exact ⟨entryLabel, rfl, congrArg Ir.Label.id hentry.symm⟩
  case ended =>
    intro block hm
    rcases List.mem_cons.mp hm with rfl | hm
    · simp
    · exact Option.isSome_iff_ne_none.mp (hs.block_ended hl hc (mem hm))
  case slots =>
    intro block hm ha
    obtain ⟨line, hline, hslot⟩ := Ir.hasAlloca_iff.mp ha
    exact absurd hslot (by simp [hs.slots _ block (hl.block?_of_mem (mem hm)) line hline])
  case distinct => exact names

end

theorem Finished.block_ended {fn : Ir.FuncId} {blocks : List Ir.Block} (h : Finished fn blocks) :
    ∀ block ∈ blocks, block.term.isSome := by
  obtain ⟨b, hs, hl, hc, rfl⟩ := h.shaped
  intro block hm
  rcases List.mem_cons.mp hm with rfl | hm
  · rfl
  · exact hs.block_ended hl hc hm

theorem Finished.wellFormed {fn : Ir.FuncId} {f : Ir.Function} (h : Finished fn f.blocks) :
    f.WellFormed := by
  obtain ⟨b, hs, hl, hc, hf⟩ := h.shaped
  exact hs.wellFormed hl hc hf

/-! ## The graph of finished functions -/

/-- The block `source` is among the blocks and ends in a terminator that leads to `target`. -/
def Ir.Precedes (blocks : List Ir.Block) (source target : Ir.Label) : Prop :=
  ∃ block ∈ blocks, block.label = source ∧ ∃ t, block.term = some t ∧ target ∈ t.successors

/-- How the blocks of a function hang together. -/
structure Ir.Connected (blocks : List Ir.Block) : Prop where
  /-- The block with the stack slots comes first, then the first one of control flow. -/
  starts : ∃ vars entry rest, blocks = vars :: entry :: rest ∧ vars.label = varsLabel ∧
    entry.label = entryLabel
  distinct : (blocks.map Ir.Block.label).Nodup
  /-- Every terminator leads to blocks of the function. -/
  inside : ∀ p q, Ir.Precedes blocks p q → q ∈ blocks.map Ir.Block.label
  /-- Nothing leads to the stack slots. -/
  vars : ∀ p, ¬Ir.Precedes blocks p varsLabel
  /-- Only the stack slots lead to the first block of control flow. -/
  entry : ∀ p, Ir.Precedes blocks p entryLabel ↔ p = varsLabel
  /-- A join of values comes first in its block and has one entry for each block that leads there,
      and none for any other. -/
  joins : ∀ block ∈ blocks, ∀ (i : Nat) line incoming, block.lines[i]? = some line →
    line.inst = .phi incoming → i = 0 ∧ (incoming.map Prod.snd).Nodup ∧
      ∀ p, p ∈ incoming.map Prod.snd ↔ Ir.Precedes blocks p block.label

theorem Labelled.precedes_closed {b : Body} (hl : Labelled b) {p q : Ir.Label} :
    Ir.Precedes b.closed p q ↔ p = varsLabel ∧ q = entryLabel ∨ b.Edge p q := by
  constructor
  · rintro ⟨block, hm, hp, t, ht, hq⟩
    rcases List.mem_cons.mp hm with rfl | hm
    · cases ht
      exact .inl ⟨hp.symm, List.mem_singleton.mp hq⟩
    · exact .inr ⟨block, t, hp ▸ hl.block?_of_mem hm, hp, ht, hq⟩
  · rintro (⟨rfl, rfl⟩ | ⟨block, t, hb, hp, ht, hq⟩)
    · exact ⟨_, List.mem_cons_self, rfl, _, rfl, List.mem_singleton.mpr rfl⟩
    · exact ⟨block, List.mem_cons_of_mem _ (Ir.findBlock_mem hb), hp, t, ht, hq⟩

theorem Labelled.id_pos {b : Body} (h : Labelled b) {l : Ir.Label} (hl : l ∈ b.labels) :
    l.id ≠ 0 := by
  rcases h.named l hl with rfl | ⟨name, n, -, rfl⟩
  · exact Nat.one_ne_zero
  · exact Nat.succ_ne_zero _

/-- The joins of a block, by position. -/
theorem Ir.Block.Joins.get {block : Ir.Block} {edge : Ir.Label → Prop} (h : block.Joins edge)
    {i : Nat} {line : Ir.Line} {incoming : List (Ir.Value × Ir.Label)}
    (hi : block.lines[i]? = some line) (hp : line.inst = .phi incoming) :
    i = 0 ∧ incoming ≠ [] ∧ (incoming.map Prod.snd).Nodup ∧
      ∀ p, p ∈ incoming.map Prod.snd ↔ edge p := by
  cases i with
  | zero => exact ⟨rfl, h.entries line incoming (by rw [List.head?_eq_getElem?, hi]) hp⟩
  | succ i =>
    have hm : line ∈ block.lines.tail :=
      List.mem_of_getElem? (by rw [List.getElem?_tail]; exact hi)
    have := h.first line hm
    simp [hp, Ir.Inst.isPhi] at this

theorem Finished.connected {fn : Ir.FuncId} {blocks : List Ir.Block} (h : Finished fn blocks) :
    Ir.Connected blocks := by
  obtain ⟨b, hs, hl, -, rfl⟩ := h.shaped
  have hlabels : b.closed.map Ir.Block.label = varsLabel :: b.labels := rfl
  constructor
  case starts =>
    obtain ⟨rest, hfirst⟩ := hl.first
    obtain ⟨entry, blocks, hblocks, hentry, -⟩ := List.map_eq_cons_iff.mp hfirst
    exact ⟨_, entry, blocks, by rw [Body.closed, hblocks], rfl, hentry⟩
  case distinct =>
    rw [hlabels, List.nodup_cons]
    refine ⟨fun hm => hl.id_pos hm rfl, ?_⟩
    exact (List.pairwise_map.mp hl.nodup).imp fun hne he => hne (by rw [he])
  case inside =>
    intro p q hpq
    rw [hlabels]
    rcases hl.precedes_closed.mp hpq with ⟨-, rfl⟩ | he
    · obtain ⟨rest, hfirst⟩ := hl.first
      simp [hfirst]
    · obtain ⟨-, block, hb, rfl⟩ := hs.edges p q he
      exact List.mem_cons_of_mem _ (List.mem_map_of_mem (Ir.findBlock_mem hb))
  case vars =>
    intro p hp
    rcases hl.precedes_closed.mp hp with ⟨-, hq⟩ | he
    · exact absurd hq (by decide)
    · obtain ⟨-, block, hb, hq⟩ := hs.edges p _ he
      exact hl.id_pos (List.mem_map_of_mem (Ir.findBlock_mem hb)) (by rw [hq]; rfl)
  case entry =>
    intro p
    rw [hl.precedes_closed]
    constructor
    · rintro (⟨hp, -⟩ | he)
      · exact hp
      · exact absurd rfl (hs.edges p _ he).1
    · exact fun hp => .inl ⟨hp, rfl⟩
  case joins =>
    intro block hm i line incoming hi hp
    rcases List.mem_cons.mp hm with rfl | hm
    · -- Nothing is joined where the stack slots are made.
      have := hs.setup line (List.mem_of_getElem? hi)
      simp [hp, Ir.Inst.isPhi] at this
    · have hb := hl.block?_of_mem hm
      obtain ⟨hzero, hne, hnd, hedge⟩ := (hs.joins _ block hb).get hi hp
      -- Something leads to a join, so it is not the first block.
      have hnotentry : block.label ≠ entryLabel := by
        intro he
        obtain ⟨x, hx⟩ := List.exists_mem_of_ne_nil incoming hne
        exact (hs.edges _ _ ((hedge x.2).mp (List.mem_map_of_mem hx))).1 (by rw [he]; rfl)
      refine ⟨hzero, hnd, fun p => (hedge p).trans ?_⟩
      rw [hl.precedes_closed]
      simp [hnotentry]

end TreeLowering
