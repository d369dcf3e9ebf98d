import TreeLowering.Proofs.Growth

/-!
The labels of a body. `entry` comes first, every other label was made under its own number, and no
number is used twice; so block names are distinct too.
-/
namespace TreeLowering

/-- The label that the block with number `n` after `entry` gets. -/
def numberedLabel (name : String) (n : Nat) : Ir.Label :=
  ⟨n + 2, name ++ "." ++ toString (n + 1)⟩

/-- The labels of a body, in the order of its blocks. -/
def Body.labels (b : Body) : List Ir.Label := b.blocks.map Ir.Block.label

namespace Body

variable (b : Body)

theorem updateBlock_labels (l : Ir.Label) {f : Ir.Block → Ir.Block}
    (hf : ∀ block, (f block).label = block.label) : (b.updateBlock l f).labels = b.labels := by
  unfold labels updateBlock
  rw [List.map_map]
  refine List.map_congr_left fun block _ => ?_
  simp only [Function.comp]
  split <;> simp [hf]

@[simp] theorem emit_labels (inst : Ir.Inst) (type : Ir.Ty) :
    (b.emit inst type).labels = b.labels := by
  unfold emit
  split
  · rename_i l _
    exact b.updateBlock_labels l (f := fun block =>
      { block with lines := block.lines ++ [⟨b.lineCount, inst, type⟩] }) fun _ => rfl
  · rfl

@[simp] theorem finish_labels (t : Ir.Term) : (b.finish t).labels = b.labels := by
  unfold finish
  split
  · exact b.updateBlock_labels _ fun _ => rfl
  · rfl

@[simp] theorem goto_labels (l : Ir.Label) : (b.goto l).labels = b.labels := rfl

@[simp] theorem addBlock_labels (name : String) :
    (b.addBlock name).labels = b.labels ++ [b.nextLabel name] := by
  simp [labels]

end Body

/-- How the blocks of a body are labelled. -/
structure Labelled (b : Body) : Prop where
  first : ∃ rest, b.labels = entryLabel :: rest
  nodup : (b.labels.map Ir.Label.id).Nodup
  named : ∀ l ∈ b.labels, l = entryLabel ∨ ∃ name n, n < b.blockCount ∧ l = numberedLabel name n

namespace Labelled

variable {b b' : Body} {l : Ir.Label}

theorem of_labels_eq (h : Labelled b) (he : b'.labels = b.labels)
    (hc : b.blockCount ≤ b'.blockCount) : Labelled b' := by
  refine ⟨he ▸ h.first, he ▸ h.nodup, fun l hl => ?_⟩
  rcases h.named l (he ▸ hl) with rfl | ⟨name, n, hn, rfl⟩
  · exact .inl rfl
  · exact .inr ⟨name, n, by omega, rfl⟩

theorem id_lt (h : Labelled b) (hl : l ∈ b.labels) : l.id < b.blockCount + 2 := by
  rcases h.named l hl with rfl | ⟨name, n, hn, rfl⟩
  · show 1 < _
    omega
  · show n + 2 < _
    omega

theorem addBlock (h : Labelled b) (name : String) : Labelled (b.addBlock name) := by
  have hl : (b.addBlock name).labels = b.labels ++ [numberedLabel name b.blockCount] :=
    b.addBlock_labels name
  obtain ⟨rest, hfirst⟩ := h.first
  refine ⟨⟨rest ++ [numberedLabel name b.blockCount], by rw [hl, hfirst]; rfl⟩, ?_, ?_⟩
  -- The new number is larger than all before.
  · rw [hl, List.map_append, List.nodup_append]
    refine ⟨h.nodup, by simp, ?_⟩
    intro i hi j hj hij
    obtain ⟨l, hm, rfl⟩ := List.mem_map.mp hi
    have hj : j = b.blockCount + 2 := by simpa [numberedLabel] using hj
    have := h.id_lt hm
    omega
  · intro l hm
    rw [hl, List.mem_append, List.mem_singleton] at hm
    rcases hm with hm | rfl
    · rcases h.named l hm with rfl | ⟨name', n, hn, rfl⟩
      · exact .inl rfl
      · exact .inr ⟨name', n, Nat.lt_succ_of_lt hn, rfl⟩
    · exact .inr ⟨name, b.blockCount, Nat.lt_succ_self _, rfl⟩

theorem updateBlock (h : Labelled b) {f : Ir.Block → Ir.Block}
    (hf : ∀ block, (f block).label = block.label) : Labelled (b.updateBlock l f) :=
  h.of_labels_eq (Body.updateBlock_labels b l hf) (Nat.le_refl _)

theorem emit (h : Labelled b) (inst : Ir.Inst) (type : Ir.Ty) : Labelled (b.emit inst type) :=
  h.of_labels_eq (by simp) (by simp)

theorem finish (h : Labelled b) (t : Ir.Term) : Labelled (b.finish t) :=
  h.of_labels_eq (by simp) (by simp)

theorem goto (h : Labelled b) (l : Ir.Label) : Labelled (b.goto l) :=
  h.of_labels_eq rfl (Nat.le_refl _)

theorem halt (h : Labelled b) : Labelled b.halt := h.of_labels_eq rfl (Nat.le_refl _)

theorem enterLoop (h : Labelled b) (loop : Loop) : Labelled (b.enterLoop loop) :=
  h.of_labels_eq rfl (Nat.le_refl _)

theorem exitLoop (h : Labelled b) : Labelled b.exitLoop := h.of_labels_eq rfl (Nat.le_refl _)

theorem dropBlock_labels : (b.dropBlock l).labels = b.labels.filter fun l' => l'.id ≠ l.id := by
  simp only [Body.labels, Body.dropBlock, List.filter_map]
  rfl

theorem dropBlock (h : Labelled b) (hl : l.id ≠ 1) : Labelled (b.dropBlock l) := by
  refine ⟨?_, ?_, ?_⟩
  · obtain ⟨rest, hfirst⟩ := h.first
    refine ⟨rest.filter fun l' => l'.id ≠ l.id, ?_⟩
    rw [dropBlock_labels, hfirst, List.filter_cons_of_pos]
    simp [entryLabel, Ne.symm hl]
  · rw [dropBlock_labels]
    exact h.nodup.sublist (List.filter_sublist.map _)
  · intro l' hm
    rw [dropBlock_labels, List.mem_filter] at hm
    exact h.named l' hm.1

theorem moveToEnd (h : Labelled b) (hl : l.id ≠ 1) : Labelled (b.moveToEnd l) := by
  have he : (b.moveToEnd l).labels = (b.labels.filter fun l' => l'.id ≠ l.id) ++
      b.labels.filter fun l' => l'.id = l.id := by
    simp only [Body.labels, Body.moveToEnd, List.map_append, List.filter_map]
    rfl
  -- The labels are the same, in another order.
  have hp : (b.moveToEnd l).labels.Perm b.labels := by
    rw [he]
    refine List.perm_append_comm.trans ?_
    simpa using List.filter_append_perm (fun l' : Ir.Label => decide (l'.id = l.id)) b.labels
  refine ⟨?_, (hp.map _).nodup_iff.mpr h.nodup, fun l' hm => h.named l' (hp.mem_iff.mp hm)⟩
  obtain ⟨rest, hfirst⟩ := (h.dropBlock hl).first
  rw [dropBlock_labels] at hfirst
  rw [he, hfirst]
  exact ⟨_, rfl⟩

theorem closeJoin (h : Labelled b) (hl : l.id ≠ 1) (r : Bool) : Labelled (b.closeJoin l r) := by
  cases r with
  | true => exact (h.moveToEnd hl).goto l
  | false => exact (h.dropBlock hl).halt

end Labelled

/-! ## Instructions -/

/-- The instructions of a body outside of the block with the stack slots. -/
def Body.lines (b : Body) : List Ir.Line := b.blocks.flatMap Ir.Block.lines

@[simp] theorem Body.goto_lines (b : Body) (l : Ir.Label) : (b.goto l).lines = b.lines := rfl

@[simp] theorem Body.addBlock_lines (b : Body) (name : String) :
    (b.addBlock name).lines = b.lines := by
  simp [lines]

@[simp] theorem Body.finish_lines (b : Body) (t : Ir.Term) : (b.finish t).lines = b.lines := by
  unfold finish
  split
  · simp only [lines, setTerm, updateBlock, List.flatMap_map]
    congr 1
    funext block
    split <;> rfl
  · rfl

/-- An instruction goes to one block only, as labels are distinct. -/
theorem Ir.lines_append {blocks : List Ir.Block} (l : Ir.Label) (line : Ir.Line)
    (hn : (blocks.map fun block => block.label.id).Nodup) :
    if l.id ∈ blocks.map fun block => block.label.id then
      ((blocks.map fun block => if block.label.id = l.id then
        { block with lines := block.lines ++ [line] } else block).flatMap Ir.Block.lines).Perm
          (line :: blocks.flatMap Ir.Block.lines)
    else (blocks.map fun block => if block.label.id = l.id then
      { block with lines := block.lines ++ [line] } else block) = blocks := by
  have unchanged : ∀ {blocks : List Ir.Block}, (l.id ∉ blocks.map fun block => block.label.id) →
      (blocks.map fun block => if block.label.id = l.id then
        { block with lines := block.lines ++ [line] } else block) = blocks := by
    intro blocks hl
    refine (List.map_congr_left fun block hm => if_neg fun he => ?_).trans (List.map_id _)
    exact hl (List.mem_map.mpr ⟨block, hm, he⟩)
  split
  · rename_i hl
    induction blocks with
    | nil => cases hl
    | cons first rest ih =>
      rw [List.map_cons, List.nodup_cons] at hn
      simp only [List.map_cons, List.flatMap_cons]
      by_cases hid : first.label.id = l.id
      · -- No block behind has the label.
        rw [if_pos hid, unchanged (hid ▸ hn.1)]
        simp only [List.append_assoc]
        exact List.perm_middle
      · rw [if_neg hid]
        have later := ih hn.2 ((List.mem_cons.mp hl).resolve_left fun he => hid he.symm)
        exact (later.append_left _).trans List.perm_middle
  · rename_i hl
    exact unchanged hl

/-! ## Growth -/

theorem Grows.labelled {Q : Ir.Value → Prop} {b b' : Body} {c : Code} (h : Grows Q b c b')
    (hl : Labelled b) : Labelled b' := by
  induction h with
  | nil => exact hl
  | seq _ _ ih₁ ih₂ => exact ih₂ (ih₁ hl)
  | vars _ _ _ => exact hl.of_labels_eq rfl (Nat.le_refl _)
  | line _ _ _ _ _ => exact hl.emit _ _
  | decide _ _ _ _ _ _ ih =>
    have hf := ih ((((hl.addBlock _).addBlock _).finish _).goto _)
    exact ((hf.finish _).goto _).emit _ _

theorem Tests.labelled {b b' : Body} {cond : Option Cond} {start exit : Ir.Label}
    (h : Tests b cond start exit b') (hl : Labelled b) : Labelled b' := by
  cases h with
  | always _ => exact hl.finish _
  | on _ hg => exact (hg.labelled hl).finish _

theorem Builds.labelled {k : Option Ir.Label} {b b' : Body} {f : Flow} {r : Bool}
    (h : Builds k b f r b') (hl : Labelled b) : Labelled b' := by
  induction h with
  | skip _ => exact hl
  | code _ hg => exact hg.labelled hl
  | seq _ _ ih₁ ih₂ => exact ih₂ (ih₁ hl)
  | jump _ _ _ => exact (hl.finish _).halt
  | ret _ _ hg => exact ((hg.labelled hl).finish _).halt
  | whileLoop _ hg _ ih =>
    have h₁ := hg.labelled
      (((((hl.addBlock _).addBlock _).addBlock _).finish _).goto _)
    exact (((ih (((h₁.finish _).enterLoop _).goto _)).finish _).exitLoop).goto _
  | forLoop _ ht _ _ ih₁ ih₂ =>
    have h₁ := ht.labelled
      ((((((hl.addBlock _).addBlock _).addBlock _).addBlock _).finish _).goto _)
    have h₂ := ih₁ ((h₁.enterLoop _).goto _)
    exact ((ih₂ (((h₂.finish _).exitLoop).goto _)).finish _).goto _
  | choose _ ih => exact (ih (hl.addBlock _)).closeJoin (by simp) _
  | last _ hg _ ih =>
    exact ((ih ((((hg.labelled hl).addBlock _).finish _).goto _)).finish _).goto _
  | arm _ _ hg _ _ ih₁ ih₂ =>
    have h₁ := ih₁ (((((hg.labelled hl).addBlock _).addBlock _).finish _).goto _)
    exact ih₂ ((h₁.finish _).goto _)
  | final _ ih => exact (ih hl).finish _

/-! ## Names -/

/-- What follows the last dot of a text is determined by the text. -/
theorem after_last_dot {as bs xs ys : List Char} (hx : '.' ∉ xs) (hy : '.' ∉ ys)
    (h : as ++ '.' :: xs = bs ++ '.' :: ys) : xs = ys := by
  rcases List.append_eq_append_iff.mp h with ⟨cs, rfl, hc⟩ | ⟨cs, rfl, hc⟩
  · cases cs with
    | nil => simpa using hc
    | cons c cs =>
      rw [List.cons_append, List.cons.injEq] at hc
      exact absurd (by rw [hc.2]; simp) hx
  · cases cs with
    | nil => simpa using hc.symm
    | cons c cs =>
      rw [List.cons_append, List.cons.injEq] at hc
      exact absurd (by rw [hc.2]; simp) hy

theorem numberedLabel_toList (name : String) (n : Nat) :
    (numberedLabel name n).name.toList = name.toList ++ '.' :: Nat.toDigits 10 (n + 1) := by
  simp [numberedLabel]

theorem dot_not_mem_toDigits (n : Nat) : '.' ∉ Nat.toDigits 10 n := by
  intro h
  have := Nat.isDigit_of_mem_toDigits (by decide) (by decide) h
  revert this
  decide

theorem numberedLabel_name_inj {name name' : String} {m n : Nat}
    (h : (numberedLabel name m).name = (numberedLabel name' n).name) : m = n := by
  have h := congrArg String.toList h
  rw [numberedLabel_toList, numberedLabel_toList] at h
  have h := after_last_dot (dot_not_mem_toDigits _) (dot_not_mem_toDigits _) h
  -- Digits determine the number they are the digits of.
  have h := congrArg (Nat.ofDigitChars 10 · 0) h
  simp only [Nat.ofDigitChars_toDigits (by decide : 1 < 10) (by decide : 10 ≤ 10)] at h
  omega

/-- A text without a dot is no numbered name. -/
theorem numberedLabel_name_ne {name text : String} {n : Nat} (ht : '.' ∉ text.toList) :
    (numberedLabel name n).name ≠ text := by
  intro h
  rw [← h, numberedLabel_toList] at ht
  simp at ht

/-- The names of the blocks of a finished function are distinct. -/
theorem Labelled.names_nodup {b : Body} (h : Labelled b) :
    (b.closed.map fun block => block.label.name).Nodup := by
  have hb : (b.closed.map fun block => block.label.name) =
      Abi.varsBlock :: b.labels.map Ir.Label.name := by
    simp [Body.closed, Body.labels, varsLabel]
  rw [hb, List.nodup_cons]
  constructor
  · intro hm
    obtain ⟨l, hl, hn⟩ := List.mem_map.mp hm
    rcases h.named l hl with rfl | ⟨name, n, -, rfl⟩
    · -- `entry` is not `vars`, and a numbered name has a dot.
      exact absurd hn (by decide)
    · exact numberedLabel_name_ne (by decide) hn
  · -- Labels with one name have one number, and numbers are distinct.
    have inj : ∀ l ∈ b.labels, ∀ l' ∈ b.labels, l.name = l'.name → l.id = l'.id := by
      intro l hl l' hl' hn
      rcases h.named l hl with rfl | ⟨name, n, -, rfl⟩ <;>
        rcases h.named l' hl' with rfl | ⟨name', n', -, rfl⟩
      · rfl
      · exact absurd hn.symm (numberedLabel_name_ne (by decide))
      · exact absurd hn (numberedLabel_name_ne (by decide))
      · cases numberedLabel_name_inj hn
        rfl
    have hp := List.pairwise_map.mp h.nodup
    exact List.pairwise_map.mpr (hp.imp_of_mem fun hl hl' hne hn => hne (inj _ hl _ hl' hn))

end TreeLowering
