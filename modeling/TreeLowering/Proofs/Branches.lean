import Mathlib.Data.List.Nodup
import TreeLowering.Proofs.Traversal
import TreeLowering.Proofs.Unit

/-!
How the blocks of top-level code end. Code and control flow end blocks in branches only, a `return`
is rejected outside of functions, and the functions inside are lowered in bodies of their own; so
each step keeps `Unreturned`, and with it the run over the declarations (`topCode_unreturned`). When
the declarations are done one block is open, the one of the cursor (`topCode_opens`), and what ends
it is the only terminator of the function that is not a branch (`Body.Open.returnsAt`).
-/
namespace TreeLowering

namespace Ir

/-- Whether a terminator leads to other blocks of the function. -/
def Term.isBranch : Term → Bool
  | .br _ | .condBr _ _ _ => true
  | .ret _ | .unreachable => false

theorem Term.isBranch_of_successors {t : Term} (h : t.successors ≠ []) : t.isBranch = true := by
  cases t with
  | br | condBr => rfl
  | ret | unreachable => exact absurd rfl h

/-- The block has ended in a branch. -/
def Block.Branches (block : Block) : Prop := ∃ t, block.term = some t ∧ t.isBranch = true

/-- One block among `blocks` returns the value, and every other one ends in a branch. -/
structure ReturnsAt (blocks : List Block) (last : Block) (value : Option Value) : Prop where
  term : last.term = some (.ret value)
  others : ∃ before after, blocks = before ++ last :: after ∧
    ∀ block ∈ before ++ after, block.Branches

end Ir

/-- The blocks of a body that have ended did so in branches. -/
abbrev Body.Branches (b : Body) : Prop := b.All (fun _ => True) fun t => t.isBranch = true

/-- The body is that of top-level code, and the blocks that have ended did so in branches. -/
structure Body.Unreturned (b : Body) : Prop where
  head : b.head = none
  terms : b.Branches

theorem Grows.branches {Q : Ir.Value → Prop} {b b' : Body} {c : Code} (h : Grows Q b c b')
    (hb : b.Branches) : b'.Branches := by
  induction h with
  | nil => exact hb
  | seq _ _ ih₁ ih₂ => exact ih₂ (ih₁ hb)
  | vars type _ _ => exact hb.addVarsLine type trivial
  | line type _ _ _ _ => exact hb.emit type trivial
  | @decide b b₁ _ x _ _ _ isAnd _ _ _ _ _ ih =>
    have decision : (b.decision isAnd x).isBranch = true := by cases isAnd <;> rfl
    have fork : (b.fork isAnd x).Branches := (((hb.addBlock _).addBlock _).finish decision).goto _
    have rejoin : (b₁.rejoin (b.joinLabel isAnd)).Branches :=
      ((ih fork).finish (t := .br (b.joinLabel isAnd)) rfl).goto _
    exact rejoin.emit _ trivial

namespace Body.Unreturned

variable {b b' : Body}

theorem start (fn : Ir.FuncId) : Unreturned { fn } := ⟨rfl, .start fn none .missing⟩

theorem grow {Q : Ir.Value → Prop} {c : Code} (h : b.Unreturned) (hg : Grows Q b c b') :
    b'.Unreturned := ⟨hg.kept.head.trans h.head, hg.branches h.terms⟩

theorem steer (h : b.Unreturned) (hs : b.Steers (fun _ => True) b') : b'.Unreturned :=
  ⟨hs.owner.2.1.trans h.head, hs.all (fun _ ht _ => Ir.Term.isBranch_of_successors ht) h.terms⟩

end Body.Unreturned

namespace Lower

variable {α : Type} {c : Context} {s s' : State}

/-- The step ends the blocks of top-level code in branches only. -/
abbrev Branches (m : Lower α) : Prop := Always (Preserves fun s => s.body.Unreturned) m

theorem Branches.of_lays {m : Lower α} (h : Lays m) : Branches m := by
  intro s a s' hm unreturned
  obtain ⟨-, code, hg⟩ := h s a s' hm
  exact unreturned.grow hg

theorem Branches.of_declares {m : Lower α} (h : Declares m) : Branches m :=
  .of_lays (.of_declares h)

/-- A `return` belongs to a function. -/
theorem branches_leave (site : Site) (result : Expr) : Branches (leave c site result) := by
  intro s u s' h unreturned
  unfold leave at h
  rw [get_bind_apply] at h
  simp [unreturned.head] at h

theorem introduces_branches (c : Context) :
    Introduces c (fun _ => True) (fun _ => ([] : List Empty))
      fun _ => Preserves fun s => s.body.Unreturned where
  absent := rfl
  steer _ _ hs unreturned := unreturned.steer hs.any
  expression e _ := Branches.of_lays (lays_valueOf c e)
  condition _ _ e _ := .of_always (Branches.of_lays (lays_condition c e))
    fun _ _ hs unreturned => unreturned.steer hs
  leave site e _ := branches_leave site e
  varDecl d _ := Branches.of_lays (lays_defineVariable c d)
  structDecl d _ := Branches.of_declares (.of_steady (steady_enterStruct c d))
  report _ _ unreturned := unreturned
  prototype h body _ := Branches.of_declares (declares_enterPrototype c h body)
  fillBody h body _ _ := by
    refine Branches.of_declares fun s u s' hf => ?_
    exact fillBody_advances (realizes_blockStatements c body) hf

theorem topCode_unreturned {decls : List Node} {u : Unit} (hl : s.body.cursor.isSome)
    (h : topCode c decls s = .ok u s') (unreturned : s.body.Unreturned) : s'.body.Unreturned :=
  have t := introduces_branches c
  t.declarations (fun _ _ => trivial) (t.walks.eachStatement decls fun _ _ => trivial) s u s' h hl
    unreturned

end Lower

/-! ## The open block -/

namespace Body

/-- The blocks of a body around the one of the cursor, which alone is open. -/
structure Open (b : Body) (before : List Ir.Block) (last : Ir.Block) (after : List Ir.Block) :
    Prop where
  blocks : b.blocks = before ++ last :: after
  cursor : b.cursor = some last.label
  distinct : ∀ block ∈ before ++ after, block.label.id ≠ last.label.id
  branches : ∀ block ∈ before ++ after, block.Branches

/-- In a body in shape with nothing pending, only the block of the cursor is open. -/
theorem Unreturned.exists_open {b : Body} (h : b.Unreturned) (shaped : Shaped [] b)
    (labelled : Labelled b) (hl : b.cursor.isSome) :
    ∃ before last after, b.Open before last after := by
  obtain ⟨l, hc⟩ := Option.isSome_iff_exists.mp hl
  obtain ⟨-, last, hlast, rfl, -⟩ := shaped.cursor l hc
  obtain ⟨before, after, hsplit⟩ := List.append_of_mem (Ir.findBlock_mem hlast)
  have distinct : ∀ block ∈ before ++ after, block.label.id ≠ last.label.id := by
    intro block hm he
    have nodup := labelled.nodup
    rw [labels, List.map_map, hsplit, List.map_append, List.map_cons, List.nodup_middle,
      ← List.map_append, List.nodup_cons] at nodup
    exact nodup.1 (List.mem_map.mpr ⟨block, hm, he⟩)
  refine ⟨before, last, after, hsplit, hc, distinct, fun block hm => ?_⟩
  have mem : block ∈ b.blocks := by
    rw [hsplit]
    exact List.perm_middle.mem_iff.mpr (List.mem_cons_of_mem _ hm)
  cases ht : block.term with
  | some t => exact ⟨t, ht, (h.terms.blocks block mem).term t ht⟩
  | none =>
    rcases shaped.ended _ block (labelled.block?_of_mem mem) ht with hcur | hp
    · have same := Option.some.inj (hc.symm.trans hcur)
      exact absurd (congrArg Ir.Label.id same.symm) (distinct block hm)
    · cases hp

namespace Open

variable {b : Body} {before after : List Ir.Block} {last : Ir.Block}

/-- A change of the block of the cursor leaves the others. -/
theorem updateBlock (h : b.Open before last after) (f : Ir.Block → Ir.Block) :
    (b.updateBlock last.label f).blocks = before ++ f last :: after := by
  have others : ∀ blocks : List Ir.Block, (∀ block ∈ blocks, block ∈ before ++ after) →
      (blocks.map fun block => if block.label.id = last.label.id then f block else block) =
        blocks := by
    intro blocks hm
    refine (List.map_congr_left fun block hb => ?_).trans (List.map_id _)
    exact if_neg (h.distinct block (hm block hb))
  show b.blocks.map _ = _
  rw [h.blocks, List.map_append, List.map_cons, if_pos rfl,
    others before fun _ => List.mem_append_left after,
    others after fun _ => List.mem_append_right before]

/-- An instruction goes to the open block. -/
theorem emit (h : b.Open before last after) (inst : Ir.Inst) (type : Ir.Ty) :
    (b.emit inst type).Open before
      { last with lines := last.lines ++ [⟨b.lineCount, inst, type⟩] } after := by
  refine ⟨?_, by rw [emit_cursor, h.cursor], h.distinct, h.branches⟩
  unfold Body.emit
  rw [h.cursor]
  exact h.updateBlock _

theorem finish (h : b.Open before last after) (t : Ir.Term) :
    (b.finish t).blocks = before ++ { last with term := some t } :: after := by
  unfold Body.finish
  rw [h.cursor]
  exact h.updateBlock _

/-- When the open block returns, it is the only one; the block with the stack slots leads on. -/
theorem returnsAt (h : b.Open before last after) (value : Option Ir.Value) :
    Ir.ReturnsAt (b.finish (.ret value)).closed { last with term := some (.ret value) } value := by
  refine ⟨rfl, _ :: before, after, congrArg (List.cons _) (h.finish _), fun block hm => ?_⟩
  rcases List.mem_cons.mp hm with rfl | hm
  · exact ⟨_, rfl, rfl⟩
  · exact h.branches block hm

end Open

end Body

/-- When the declarations of a unit are done, only the block of the cursor is open. -/
theorem Lower.topCode_opens {c : Context} {decls : List Node} {fn : Ir.FuncId} {s s' : State}
    {u : Unit} (h : topCode c decls (s.setBody { fn }) = .ok u s')
    (hl : s'.body.cursor.isSome) :
    s'.body.fn = fn ∧ ∃ before last after, s'.body.Open before last after := by
  obtain ⟨-, flow, r, built⟩ := topCode_builds rfl h
  obtain ⟨shaped, -⟩ := built.shaped (P := []) (shaped_start fn none .missing)
  have labelled := built.labelled (labelled_start fn none .missing)
  have unreturned := topCode_unreturned rfl h (.start fn)
  exact ⟨built.kept.fn, unreturned.exists_open shaped labelled hl⟩

end TreeLowering
