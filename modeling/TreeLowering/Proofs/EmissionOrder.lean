import Mathlib.Algebra.Order.Group.Multiset
import Mathlib.Tactic.Abel
import TreeLowering.Lower.Emission

/-!
The emission order is a stable classification that loses nothing. One pass gives the groups that
four filters over the declarations give, in source order (`emissionOrder_eq`), so the groups of two
parts in a row are those of the first followed by those of the second (`emissionOrder_append`), and
together they hold each declaration once and each function that is not external once more
(`entries_emissionOrder`). In a namespace the variables that are neither constant nor global change
from the last group to the globals, and nothing else changes.
-/
namespace TreeLowering

/-! ## What a declaration is -/

namespace Node

/-- The variable definition that a declaration is, labels removed. -/
def varDecl? (n : Node) : Option VarDecl :=
  match n.unwrap with
  | .varDecl d => some d
  | _ => none

/-- The function definition that a declaration is, labels removed. -/
def funcDecl? (n : Node) : Option (FuncHead × Block) :=
  match n.unwrap with
  | .funcDecl h body => some (h, body)
  | _ => none

/-- Whether a declaration is a function that is not external. -/
def isInternalFunction (n : Node) : Bool :=
  n.funcDecl?.any fun p => !p.1.isExternal

theorem unwrap_unwrap (n : Node) : n.unwrap.unwrap = n.unwrap := by
  fun_induction unwrap n with
  | case1 _ _ x ih => exact ih
  | case2 n h =>
    unfold unwrap
    split
    · exact absurd rfl (h _ _ _)
    · rfl

@[simp] theorem varDecl?_unwrap (n : Node) : n.unwrap.varDecl? = n.varDecl? := by
  simp only [varDecl?, unwrap_unwrap]

theorem varDecl?_eq_some {n : Node} {d : VarDecl} :
    n.varDecl? = some d ↔ n.unwrap = .varDecl d := by
  unfold varDecl?
  cases n.unwrap <;> simp

theorem funcDecl?_eq_some {n : Node} {h : FuncHead} {body : Block} :
    n.funcDecl? = some (h, body) ↔ n.unwrap = .funcDecl h body := by
  unfold funcDecl?
  cases n.unwrap <;> simp

/-- A declaration is a variable, a function or neither. -/
theorem variable_or_function (n : Node) :
    (∃ d, n.unwrap = .varDecl d ∧ n.varDecl? = some d ∧ n.funcDecl? = none) ∨
    (∃ h body, n.unwrap = .funcDecl h body ∧ n.varDecl? = none ∧
      n.funcDecl? = some (h, body)) ∨
    (n.varDecl? = none ∧ n.funcDecl? = none) := by
  unfold varDecl? funcDecl?
  cases n.unwrap with
  | varDecl d => exact .inl ⟨d, rfl, rfl, rfl⟩
  | funcDecl h body => exact .inr (.inl ⟨h, body, rfl, rfl, rfl⟩)
  | _ => exact .inr (.inr ⟨rfl, rfl⟩)

end Node

/-- A variable that is defined ahead of its turn is the one that the declaration defines. -/
theorem unwrap_of_classify {a : Analysis} {inSpace : Bool} {n : Node} {d : VarDecl}
    (h : classify a inSpace n = .const d ∨ classify a inSpace n = .global d) :
    n.unwrap = .varDecl d := by
  unfold classify at h
  split at h
  · rename_i d' hn
    rw [hn]
    unfold classifyVariable at h
    split at h
    · simp at h
    · split at h
      · simpa using h
      · split at h
        · simpa using h
        · simp at h
  · simp at h
  · simp at h

/-- The declarations classified as functions are the functions, labels removed. -/
theorem classify_eq_func {a : Analysis} {inSpace : Bool} {n : Node} {h : FuncHead}
    {body : Block} : classify a inSpace n = .func h body ↔ n.unwrap = .funcDecl h body := by
  unfold classify
  split
  · rename_i d hn
    rw [hn]
    unfold classifyVariable
    split
    · simp
    · split
      · simp
      · split <;> simp
  · rename_i h' body' hn
    rw [hn]
    simp
  · rename_i hn
    simpa using hn h body

namespace Analysis

variable (a : Analysis)

/-- The flags of the variable that a definition resolves to. -/
def flagsOf? (d : VarDecl) : Option VariableFlags :=
  (a.resolve d.name (some d.site)).bind fun v => a.store.objects[v]?.bind Object.flags?

/-- Whether a definition resolves to a constant variable. -/
def definesConst (d : VarDecl) : Bool :=
  (a.flagsOf? d).any fun flags => flags.isConstant

/-- Whether a definition resolves to a global variable that is not constant. -/
def definesGlobal (d : VarDecl) : Bool :=
  (a.flagsOf? d).any fun flags => !flags.isConstant && flags.isGlobal

/-- Whether a definition resolves to a variable that is neither constant nor global. -/
def definesLocal (d : VarDecl) : Bool :=
  (a.flagsOf? d).any fun flags => !flags.isConstant && !flags.isGlobal

/-- Which definitions count as global: those of global variables, and in a namespace all that
    resolve to a variable that is not constant. -/
def countsGlobal (inSpace : Bool) (d : VarDecl) : Bool :=
  a.definesGlobal d || inSpace && a.definesLocal d

/-- Which declarations remain for the last group: all but the definitions of constants and
    globals and the external functions. -/
def remains (inSpace : Bool) (n : Node) : Bool :=
  n.varDecl?.all (fun d => !a.definesConst d && !a.countsGlobal inSpace d) &&
    n.funcDecl?.all fun p => !p.1.isExternal

/-- A definition is of one of the three kinds, or it resolves to no variable. -/
theorem defines_cases (d : VarDecl) :
    (a.definesConst d = true ∧ a.definesGlobal d = false ∧ a.definesLocal d = false) ∨
    (a.definesConst d = false ∧ (a.definesGlobal d = false ∨ a.definesLocal d = false)) := by
  unfold definesConst definesGlobal definesLocal
  cases a.flagsOf? d with
  | none => simp
  | some flags =>
    simp only [Option.any_some]
    cases flags.isConstant <;> cases flags.isGlobal <;> simp

theorem countsGlobal_of_const {inSpace : Bool} {d : VarDecl} (h : a.definesConst d = true) :
    a.countsGlobal inSpace d = false := by
  rcases a.defines_cases d with ⟨-, hg, hl⟩ | ⟨hc, -⟩
  · simp [countsGlobal, hg, hl]
  · simp [h] at hc

end Analysis

namespace EmissionOrder

/-- One order after another, group by group. -/
def append (b b' : EmissionOrder) : EmissionOrder where
  consts := b.consts ++ b'.consts
  globals := b.globals ++ b'.globals
  funcs := b.funcs ++ b'.funcs
  other := b.other ++ b'.other

/-- All entries of the groups, as declarations. -/
def entries (b : EmissionOrder) : List Node :=
  b.consts.map .varDecl ++ b.globals.map .varDecl ++
    b.funcs.map (fun p => .funcDecl p.1 p.2) ++ b.other

theorem length_entries (b : EmissionOrder) : b.entries.length = b.size := by
  simp only [entries, size, List.length_append, List.length_map]

/-- A group of entries of its own for each declaration. -/
theorem entries_append (b b' : EmissionOrder) :
    (b.append b').entries.Perm (b.entries ++ b'.entries) := by
  rw [← Multiset.coe_eq_coe]
  simp only [entries, append, List.map_append, ← Multiset.coe_add]
  abel

end EmissionOrder

namespace Node

/-- An order has a declaration as its only entry. -/
def InOneGroup (n : Node) (b : EmissionOrder) : Prop :=
  (∃ d, n.varDecl? = some d ∧ (b = { consts := [d] } ∨ b = { globals := [d] })) ∨
  (∃ p, n.funcDecl? = some p ∧ b = { funcs := [p] }) ∨
  b = { other := [n.unwrap] }

/-- An order has a function among the functions and among the others, and no other entry. -/
def InTwoGroups (n : Node) (b : EmissionOrder) : Prop :=
  ∃ p, n.funcDecl? = some p ∧ b = { funcs := [p], other := [n.unwrap] }

end Node

/-! ## One pass is four filters -/

variable (a : Analysis) (inSpace : Bool)

theorem classifyVariable_eq (d : VarDecl) :
    classifyVariable a inSpace d =
      if a.definesConst d then .const d
      else if a.countsGlobal inSpace d then .global d
      else .other (.varDecl d) := by
  unfold classifyVariable Analysis.countsGlobal Analysis.definesConst Analysis.definesGlobal
    Analysis.definesLocal
  have asked : ((a.resolve d.name (some d.site)).bind fun v =>
    a.store.objects[v]?.bind Object.flags?) = a.flagsOf? d := rfl
  rw [asked]
  cases a.flagsOf? d with
  | none => cases inSpace <;> rfl
  | some flags => cases hc : flags.isConstant <;> cases hg : flags.isGlobal <;> cases inSpace <;>
      simp [hc, hg]

/-- One declaration by what it is and what it resolves to. -/
theorem emissionOrder_singleton (n : Node) :
    emissionOrder a inSpace [n] =
      { consts := n.varDecl?.toList.filter a.definesConst
        globals := n.varDecl?.toList.filter (a.countsGlobal inSpace)
        funcs := n.funcDecl?.toList
        other := if a.remains inSpace n then [n.unwrap] else [] } := by
  change ({} : EmissionOrder).push (classify a inSpace n) = _
  rcases n.variable_or_function with ⟨d, hn, hv, hf⟩ | ⟨h, body, hn, hv, hf⟩ | ⟨hv, hf⟩
  · simp only [classify, hn, classifyVariable_eq, Analysis.remains, hv, hf, EmissionOrder.push]
    cases hc : a.definesConst d with
    | true => simp [hc, a.countsGlobal_of_const hc]
    | false => cases hg : a.countsGlobal inSpace d <;> simp [hc, hg]
  · cases hx : h.isExternal <;>
      simp [classify, hn, Analysis.remains, hv, hf, EmissionOrder.push, hx]
  · have hk : classify a inSpace n = .other n.unwrap := by
      unfold classify
      split
      · rename_i hn
        simp [Node.varDecl?, hn] at hv
      · rename_i hn
        simp [Node.funcDecl?, hn] at hf
      · rfl
    simp [hk, Analysis.remains, hv, hf, EmissionOrder.push]

/-- A declaration is in one group, a function that is not external in two. -/
theorem emissionOrder_one (n : Node) :
    if n.isInternalFunction then n.InTwoGroups (emissionOrder a inSpace [n])
    else n.InOneGroup (emissionOrder a inSpace [n]) := by
  rw [emissionOrder_singleton]
  rcases n.variable_or_function with ⟨d, hn, hv, hf⟩ | ⟨h, body, hn, hv, hf⟩ | ⟨hv, hf⟩
  · rw [if_neg (by simp [Node.isInternalFunction, hf])]
    cases hc : a.definesConst d with
    | true =>
      exact .inl ⟨d, hv, .inl (by
        simp [Analysis.remains, hv, hf, hc, a.countsGlobal_of_const hc])⟩
    | false =>
      cases hg : a.countsGlobal inSpace d with
      | true => exact .inl ⟨d, hv, .inr (by simp [Analysis.remains, hv, hf, hc, hg])⟩
      | false => exact .inr (.inr (by simp [Analysis.remains, hv, hf, hc, hg]))
  · cases hx : h.isExternal with
    | true =>
      rw [if_neg (by simp [Node.isInternalFunction, hf, hx])]
      exact .inr (.inl ⟨(h, body), hf, by simp [Analysis.remains, hv, hf, hx]⟩)
    | false =>
      rw [if_pos (by simp [Node.isInternalFunction, hf, hx])]
      exact ⟨(h, body), hf, by simp [Analysis.remains, hv, hf, hx]⟩
  · rw [if_neg (by simp [Node.isInternalFunction, hf])]
    exact .inr (.inr (by simp [Analysis.remains, hv, hf]))

/-- The pass over two parts in a row gives the groups of the first before those of the second. -/
theorem emissionOrder_append (xs ys : List Node) :
    emissionOrder a inSpace (xs ++ ys) =
      (emissionOrder a inSpace xs).append (emissionOrder a inSpace ys) := by
  -- The pass goes from the right, so a declaration of the first part is put in front of both.
  have pushed (k : DeclClass) (b b' : EmissionOrder) :
      (b.append b').push k = (b.push k).append b' := by
    cases k with
    | func h body =>
      cases hx : h.isExternal <;> simp only [EmissionOrder.push, EmissionOrder.append, hx] <;> rfl
    | const | global | other => rfl
  induction xs with
  | nil => rfl
  | cons n ns ih =>
    change (emissionOrder a inSpace (ns ++ ys)).push (classify a inSpace n) = _
    rw [ih, pushed]
    rfl

/-- The groups are filters of the declarations in source order. -/
theorem emissionOrder_eq (decls : List Node) :
    emissionOrder a inSpace decls =
      { consts := (decls.filterMap Node.varDecl?).filter a.definesConst
        globals := (decls.filterMap Node.varDecl?).filter (a.countsGlobal inSpace)
        funcs := decls.filterMap Node.funcDecl?
        other := (decls.filter (a.remains inSpace)).map Node.unwrap } := by
  induction decls with
  | nil => rfl
  | cons n ns ih =>
    have first (p : VarDecl → Bool) : ((n :: ns).filterMap Node.varDecl?).filter p =
        n.varDecl?.toList.filter p ++ (ns.filterMap Node.varDecl?).filter p := by
      rw [← List.filter_append]
      cases hv : n.varDecl? <;> simp [hv]
    have funcs : (n :: ns).filterMap Node.funcDecl? =
        n.funcDecl?.toList ++ ns.filterMap Node.funcDecl? := by
      cases hf : n.funcDecl? <;> simp [hf]
    have rest : ((n :: ns).filter (a.remains inSpace)).map Node.unwrap =
        (if a.remains inSpace n then [n.unwrap] else []) ++
          (ns.filter (a.remains inSpace)).map Node.unwrap := by
      cases hr : a.remains inSpace n <;> simp [hr]
    rw [first, first, funcs, rest, ← List.singleton_append, emissionOrder_append, ih,
      emissionOrder_singleton]
    rfl

/-- A variable that is defined ahead of its turn is one of the declarations. -/
theorem mem_emissionOrder {a : Analysis} {inSpace : Bool} {decls : List Node} {d : VarDecl}
    (h : d ∈ (emissionOrder a inSpace decls).consts ∨
      d ∈ (emissionOrder a inSpace decls).globals) :
    ∃ n ∈ decls, n.unwrap = .varDecl d := by
  rw [emissionOrder_eq] at h
  have hd : d ∈ decls.filterMap Node.varDecl? := by
    rcases h with h | h <;> exact List.mem_of_mem_filter h
  obtain ⟨n, hn, hv⟩ := List.mem_filterMap.mp hd
  exact ⟨n, hn, Node.varDecl?_eq_some.mp hv⟩

theorem mem_funcs_emissionOrder {a : Analysis} {inSpace : Bool} {decls : List Node}
    {h : FuncHead} {body : Block} :
    (h, body) ∈ (emissionOrder a inSpace decls).funcs ↔
      ∃ n ∈ decls, n.unwrap = .funcDecl h body := by
  rw [emissionOrder_eq, List.mem_filterMap]
  simp only [Node.funcDecl?_eq_some]

/-- Together the groups hold each declaration, and each function that is not external again. -/
theorem entries_emissionOrder (decls : List Node) :
    (emissionOrder a inSpace decls).entries.Perm
      (decls.map Node.unwrap ++ (decls.filter Node.isInternalFunction).map Node.unwrap) := by
  have one (n : Node) : (emissionOrder a inSpace [n]).entries =
      n.unwrap :: if n.isInternalFunction then [n.unwrap] else [] := by
    rw [emissionOrder_singleton]
    rcases n.variable_or_function with ⟨d, hn, hv, hf⟩ | ⟨h, body, hn, hv, hf⟩ | ⟨hv, hf⟩
    · cases hc : a.definesConst d with
      | true => simp [EmissionOrder.entries, Node.isInternalFunction, Analysis.remains, hn, hv, hf,
          hc, a.countsGlobal_of_const hc]
      | false => cases hg : a.countsGlobal inSpace d <;>
          simp [EmissionOrder.entries, Node.isInternalFunction, Analysis.remains, hn, hv, hf, hc, hg]
    · cases hx : h.isExternal <;>
        simp [EmissionOrder.entries, Node.isInternalFunction, Analysis.remains, hn, hv, hf, hx]
    · simp [EmissionOrder.entries, Node.isInternalFunction, Analysis.remains, hv, hf]
  induction decls with
  | nil => exact .nil
  | cons n ns ih =>
    rw [← List.singleton_append, emissionOrder_append]
    refine (EmissionOrder.entries_append _ _).trans ?_
    rw [one]
    refine ((ih.append_left _)).trans ?_
    cases hi : n.isInternalFunction with
    | false => simp [hi]
    | true =>
      simp only [if_true, List.map_cons, List.filter_cons_of_pos hi, List.cons_append,
        List.nil_append]
      exact (List.perm_middle.symm).cons _

/-! ## In a namespace -/

/-- In a namespace the definitions of variables that are neither constant nor global do not
    remain. -/
theorem Analysis.remains_inSpace (n : Node) :
    a.remains true n = (a.remains false n && !n.varDecl?.any a.definesLocal) := by
  unfold Analysis.remains Analysis.countsGlobal
  cases n.varDecl? with
  | none => simp
  | some d => simp [Bool.and_assoc, Bool.and_comm, Bool.and_left_comm]

theorem Analysis.remains_of_local {n : Node} {d : VarDecl} (hn : n.varDecl? = some d)
    (h : a.definesLocal d = true) : a.remains false n = true := by
  rcases a.defines_cases d with ⟨-, -, hl⟩ | ⟨hc, hg | hl⟩
  · simp [h] at hl
  · rcases n.variable_or_function with ⟨-, -, -, hf⟩ | ⟨-, -, -, hv, -⟩ | ⟨hv, -⟩
    · simp [Analysis.remains, Analysis.countsGlobal, hn, hf, hc, hg]
    · simp [hn] at hv
    · simp [hn] at hv
  · simp [h] at hl

/-- All definitions of variables that are neither constant nor global are in the last group. -/
theorem locals_other (decls : List Node) :
    ((emissionOrder a false decls).other.filterMap Node.varDecl?).filter a.definesLocal =
      (decls.filterMap Node.varDecl?).filter a.definesLocal := by
  rw [emissionOrder_eq, List.filterMap_map, List.filterMap_filter, List.filter_filterMap,
    List.filter_filterMap]
  -- Without labels a definition is what it was, so each declaration can be looked at by itself.
  refine List.filterMap_congr fun n _ => ?_
  simp only [Function.comp_apply, Node.varDecl?_unwrap]
  cases hn : n.varDecl? with
  | none => simp
  | some d =>
    cases hl : a.definesLocal d with
    | false => cases a.remains false n <;> simp [Option.filter_some, hl]
    | true => rw [if_pos (a.remains_of_local hn hl)]

/-- The groups are, in source order, the definitions of constants, those of globals, all functions,
    and everything else with the functions that are not external. Each declaration is in one group,
    but for these functions, which are in two; the groups of two parts in a row are those of the
    parts in a row. In a namespace the definitions of variables that are neither constant nor global
    are among the globals instead of the others. -/
theorem emissionOrder_partitions :
    (∀ decls, let b := emissionOrder a false decls
      b.consts = (decls.filterMap Node.varDecl?).filter a.definesConst ∧
      b.globals = (decls.filterMap Node.varDecl?).filter a.definesGlobal ∧
      b.funcs = decls.filterMap Node.funcDecl? ∧
      b.other = (decls.filter fun n =>
        n.varDecl?.all (fun d => !a.definesConst d && !a.definesGlobal d) &&
          n.funcDecl?.all fun p => !p.1.isExternal).map Node.unwrap) ∧
    (∀ inSpace (n : Node),
      if n.isInternalFunction then n.InTwoGroups (emissionOrder a inSpace [n])
      else n.InOneGroup (emissionOrder a inSpace [n])) ∧
    (∀ inSpace decls, let b := emissionOrder a inSpace decls
      b.entries.Perm
        (decls.map Node.unwrap ++ (decls.filter Node.isInternalFunction).map Node.unwrap) ∧
      b.size = decls.length + decls.countP Node.isInternalFunction) ∧
    (∀ inSpace xs ys, emissionOrder a inSpace (xs ++ ys) =
      (emissionOrder a inSpace xs).append (emissionOrder a inSpace ys)) ∧
    (∀ decls, let b := emissionOrder a false decls; let m := emissionOrder a true decls
      m.consts = b.consts ∧ m.funcs = b.funcs ∧
      m.globals = (decls.filterMap Node.varDecl?).filter
        (fun d => a.definesGlobal d || a.definesLocal d) ∧
      m.globals.filter a.definesGlobal = b.globals ∧
      m.globals.filter a.definesLocal = (b.other.filterMap Node.varDecl?).filter a.definesLocal ∧
      m.other = b.other.filter fun n => !n.varDecl?.any a.definesLocal) := by
  have alone : a.countsGlobal false = a.definesGlobal := by
    funext d
    simp [Analysis.countsGlobal]
  refine ⟨fun decls => ?_, fun inSpace n => emissionOrder_one a inSpace n, fun inSpace decls => ?_,
    fun inSpace xs ys => emissionOrder_append a inSpace xs ys, fun decls => ?_⟩
  · rw [emissionOrder_eq, alone]
    refine ⟨rfl, rfl, rfl, ?_⟩
    unfold Analysis.remains
    rw [alone]
  · have entries := entries_emissionOrder a inSpace decls
    refine ⟨entries, ?_⟩
    rw [← EmissionOrder.length_entries, entries.length_eq, List.length_append, List.length_map,
      List.length_map, List.countP_eq_length_filter]
  · have locals := locals_other a decls
    intro b m
    have hb : b = _ := emissionOrder_eq a false decls
    have hm : m = _ := emissionOrder_eq a true decls
    refine ⟨by rw [hb, hm], by rw [hb, hm], by rw [hm]; rfl, ?_, ?_, ?_⟩
    · rw [hb, hm, alone, List.filter_filter]
      refine List.filter_congr fun d _ => ?_
      cases hg : a.definesGlobal d <;> simp [Analysis.countsGlobal, hg]
    · rw [locals, hm, List.filter_filter]
      refine List.filter_congr fun d _ => ?_
      cases hl : a.definesLocal d <;> simp [Analysis.countsGlobal, hl]
    · rw [hb, hm, List.filter_map, List.filter_filter]
      refine congrArg _ (List.filter_congr fun n _ => ?_)
      rw [a.remains_inSpace, Bool.and_comm]
      simp only [Function.comp_apply, Node.varDecl?_unwrap]

end TreeLowering
