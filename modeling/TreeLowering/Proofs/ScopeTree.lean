import Mathlib.Data.List.Nodup
import TreeLowering.Scope.Store

/-!
The scopes of a store over a history of operations.

A history creates objects and named types, sets their types, opens scopes, and inserts and defines
objects, in any order, from the store that holds only the universe (`Store.Reachable`). Of the
scopes an operation changes little: nothing, or it opens one, or it binds a free name in one
(`Store.Changes`). So the scopes stay a forest in which parents are older than their children and
know them in the order of creation (`Store.Forest`), and what is bound stays bound.

Main statement: `scopes_invariant`.
-/
namespace TreeLowering

namespace Store

/-! ## Reading scopes -/

/-- The scope that a scope was opened in. -/
def parentOf (st : Store) (s : ScopeId) : Option ScopeId := st.scopes[s]?.bind Scope.parent

/-- The scopes that were opened in a scope. -/
def childrenOf (st : Store) (s : ScopeId) : List ScopeId :=
  (st.scopes[s]?.map Scope.children).getD []

/-- The function whose body a scope opens. -/
def functionOf (st : Store) (s : ScopeId) : Option NodeId := st.scopes[s]?.bind Scope.function

/-- What a scope binds a name to, with the scope. -/
def binding (st : Store) (name : String) (s : ScopeId) : Option (ObjectId × ScopeId) :=
  (st.lookup s name).map fun o => (o, s)

/-- The loop that asks a scope, then its parent and so on, until one answers or none is left: from
    where it stands, what it ends with. -/
inductive Searches {α : Type} (st : Store) (ask : ScopeId → Option α) :
    Option ScopeId → Option α → Prop where
  | gone : Searches st ask none none
  | found {s : ScopeId} {a : α} : ask s = some a → Searches st ask (some s) (some a)
  | up {s : ScopeId} {r : Option α} : ask s = none → Searches st ask (st.parentOf s) r →
      Searches st ask (some s) r

/-! ## Operations -/

/-- What can be done to a store. -/
inductive Operation where
  /-- Makes an object that no scope binds. -/
  | create (o : Object)
  /-- Makes a named type, with a type name or without. -/
  | declare (name? : Option (String × Position))
  | setType (o : ObjectId) (t : Ty)
  | setUnderlying (id : NamedId) (t : Ty)
  | newScope (parent : Option ScopeId) (function : Option NodeId) (comment : String)
  | insert (s : ScopeId) (o : ObjectId)
  | define (s : ScopeId) (position : Position) (name : String) (t : Ty) (isConstant : Bool)

namespace Operation

/-- Whether an operation only refers to what a store holds. -/
def Admissible (st : Store) : Operation → Prop
  | create o => o.parent = none
  | declare _ => True
  | setType o _ => o < st.objects.size
  | setUnderlying id _ => id < st.named.size
  | newScope parent _ _ => ∀ p ∈ parent, p < st.scopes.size
  | insert s o => s < st.scopes.size ∧ o < st.objects.size
  | define s _ _ _ _ => s < st.scopes.size

/-- The store after an operation. -/
def apply (st : Store) : Operation → Store
  | create o => (st.addObject o).1
  | declare name? => (st.addNamed name?).1
  | setType o t => st.setType o t
  | setUnderlying id t => st.setUnderlying id t
  | newScope parent function comment => (st.newScope parent function comment).1
  | insert s o => (st.insert s o).1
  | define s position name t isConstant => (st.define s position name t isConstant).1

instance (st : Store) (op : Operation) : Decidable (op.Admissible st) :=
  match op with
  | create o => decidable_of_iff (o.parent.isNone = true) Option.isNone_iff_eq_none
  | declare _ => .isTrue trivial
  | setType _ _ | setUnderlying _ _ | define _ _ _ _ _ => inferInstanceAs (Decidable (_ < _))
  | newScope parent _ _ => inferInstanceAs (Decidable (∀ p ∈ parent, _))
  | insert _ _ => inferInstanceAs (Decidable (_ ∧ _))

end Operation

/-- Every operation refers to what is there when its turn comes. -/
def Admits (st : Store) : List Operation → Prop
  | [] => True
  | op :: ops => op.Admissible st ∧ (op.apply st).Admits ops

/-- The store after a history of operations. -/
def run (st : Store) (ops : List Operation) : Store := ops.foldl Operation.apply st

instance decidableAdmits (st : Store) : (ops : List Operation) → Decidable (st.Admits ops)
  | [] => .isTrue trivial
  | op :: ops =>
    have := decidableAdmits (op.apply st) ops
    inferInstanceAs (Decidable (op.Admissible st ∧ (op.apply st).Admits ops))

/-- A store comes of a history that starts with the universe. -/
def Reachable (st : Store) : Prop := ∃ ops, initial.Admits ops ∧ initial.run ops = st

/-! ## Inserting and defining -/

variable {st st' : Store} {s t p : ScopeId} {o old : ObjectId} {name : String}

/-- A scope binds one more name. -/
def bindName (st : Store) (s : ScopeId) (name : String) (o : ObjectId) : Store :=
  { st with scopes := st.scopes.modify s fun scope =>
      { scope with bindings := scope.bindings ++ [(name, o)] } }

/-- A scope binds one more object, which remembers the scope. -/
def adopt (st : Store) (s : ScopeId) (o : ObjectId) : Store :=
  { st.bindName s (st.nameOf o) o with
    objects := st.objects.modify o fun obj => { obj with parent := some s } }

theorem insert_of_taken (h : st.lookup s (st.nameOf o) = some old) :
    st.insert s o = (st, some old) := by
  unfold insert
  rw [h]

theorem insert_of_free (h : st.lookup s (st.nameOf o) = none) :
    st.insert s o = (st.adopt s o, none) := by
  unfold insert
  rw [h]
  rfl

@[simp] theorem lookup_addObject (st : Store) (obj : Object) :
    (st.addObject obj).1.lookup s name = st.lookup s name := rfl

@[simp] theorem nameOf_addObject (st : Store) (obj : Object) :
    (st.addObject obj).1.nameOf st.objects.size = obj.name := by
  simp [addObject, nameOf]

/-- A name that is taken is not defined again. -/
theorem define_of_taken (h : st.lookup s name = some old) (position : Position) (t : Ty)
    (isConstant : Bool) : st.define s position name t isConstant = (st, .error old) := by
  have taken (obj : Object) (hname : obj.name = name) :
      (st.addObject obj).1.insert s st.objects.size = ((st.addObject obj).1, some old) :=
    insert_of_taken (by simpa [hname] using h)
  unfold define
  simp only [addObject] at taken ⊢
  rw [taken _ rfl]

/-- A free name is defined as a new object. -/
theorem define_of_free (h : st.lookup s name = none) (position : Position) (t : Ty)
    (isConstant : Bool) :
    st.define s position name t isConstant =
      ((st.addObject { name, type := t, position
                       kind := .variable { isConstant, isGlobal := true } }).1.adopt s
        st.objects.size, .ok st.objects.size) := by
  have free (obj : Object) (hname : obj.name = name) :
      (st.addObject obj).1.insert s st.objects.size =
        ((st.addObject obj).1.adopt s st.objects.size, none) :=
    insert_of_free (by simpa [hname] using h)
  unfold define
  simp only [addObject] at free ⊢
  rw [free _ rfl]

/-! ## What operations do to scopes -/

/-- What becomes of the scopes of a store by an operation: they stay, one is opened, or one binds a
    name that it did not bind. -/
inductive Changes (st st' : Store) : Prop where
  | kept : st'.scopes = st.scopes → Changes st st'
  | opened (parent : Option ScopeId) (function : Option NodeId) (comment : String) :
      (∀ p ∈ parent, p < st.scopes.size) →
      st'.scopes = (st.newScope parent function comment).1.scopes → Changes st st'
  | bound (s : ScopeId) (name : String) (o : ObjectId) : st.lookup s name = none →
      st'.scopes = (st.bindName s name o).scopes → Changes st st'

theorem changes_insert (st : Store) (s : ScopeId) (o : ObjectId) :
    Changes st (st.insert s o).1 := by
  cases h : st.lookup s (st.nameOf o) with
  | some old => exact .kept (by rw [insert_of_taken h])
  | none => exact .bound s _ o h (by rw [insert_of_free h]; rfl)

theorem changes_define (st : Store) (s : ScopeId) (position : Position) (name : String) (t : Ty)
    (isConstant : Bool) : Changes st (st.define s position name t isConstant).1 := by
  cases h : st.lookup s name with
  | some old => exact .kept (by rw [define_of_taken h])
  | none =>
    refine .bound s name st.objects.size h ?_
    rw [define_of_free h]
    simp [adopt, bindName, addObject, nameOf]

theorem scopes_addNamed (st : Store) (name? : Option (String × Position)) :
    (st.addNamed name?).1.scopes = st.scopes := by
  cases name? <;> rfl

/-- What an operation can do to the scopes. -/
theorem Operation.changes {op : Operation} (h : op.Admissible st) : Changes st (op.apply st) := by
  cases op with
  | create o => exact .kept rfl
  | declare name? => exact .kept (scopes_addNamed st name?)
  | setType o t => exact .kept rfl
  | setUnderlying id t => exact .kept rfl
  | newScope parent function comment => exact .opened parent function comment h rfl
  | insert s o => exact changes_insert st s o
  | define s position name t isConstant => exact changes_define st s position name t isConstant

section
variable {parent : Option ScopeId} {function : Option NodeId} {comment : String}

theorem getElem?_scopes_newScope (st : Store) (s : ScopeId) :
    (st.newScope parent function comment).1.scopes[s]? =
      if s = st.scopes.size then some { parent, function, comment }
      else st.scopes[s]?.map fun scope =>
        if parent = some s then { scope with children := scope.children ++ [st.scopes.size] }
        else scope := by
  cases parent with
  | none => simp [newScope, Array.getElem?_push]
  | some p =>
    simp only [newScope, Array.getElem?_push, Array.size_modify, Array.getElem?_modify]
    by_cases hp : p = s <;> simp [hp]

theorem parentOf_newScope (st : Store) (s : ScopeId) :
    (st.newScope parent function comment).1.parentOf s =
      if s = st.scopes.size then parent else st.parentOf s := by
  rw [parentOf, getElem?_scopes_newScope]
  by_cases hs : s = st.scopes.size
  · simp [hs]
  · simp only [hs, if_false, parentOf, Option.bind_map]
    congr 1
    funext scope
    by_cases hp : parent = some s <;> simp [hp]

/-- A new scope is the last child of its parent. -/
theorem childrenOf_newScope (st : Store) (hparent : ∀ p ∈ parent, p < st.scopes.size)
    (p : ScopeId) :
    (st.newScope parent function comment).1.childrenOf p =
      st.childrenOf p ++ if parent = some p then [st.scopes.size] else [] := by
  rw [childrenOf, getElem?_scopes_newScope]
  by_cases hsize : p = st.scopes.size
  · have hne : parent ≠ some p := fun h => Nat.ne_of_lt (hparent p h) hsize
    simp [hsize, childrenOf, hsize ▸ hne]
  · simp only [hsize, if_false, childrenOf]
    cases hp : st.scopes[p]? with
    | some scope => by_cases hpar : parent = some p <;> simp [hpar]
    | none =>
      -- The parent of the new scope is there, and `p` is not.
      have hne : parent ≠ some p := fun h =>
        absurd (hparent p h) (Nat.not_lt.mpr (Array.getElem?_eq_none_iff.mp hp))
      simp [hne]

@[simp] theorem lookup_newScope (st : Store) (s : ScopeId) (name : String) :
    (st.newScope parent function comment).1.lookup s name = st.lookup s name := by
  rw [lookup, getElem?_scopes_newScope]
  by_cases hs : s = st.scopes.size
  · simp [hs, lookup]
  · simp only [hs, if_false, lookup, Option.bind_map]
    congr 1
    funext scope
    by_cases hp : parent = some s <;> simp [hp]

theorem size_scopes_newScope (st : Store) :
    (st.newScope parent function comment).1.scopes.size = st.scopes.size + 1 := by
  cases parent <;> simp [newScope]

end

@[simp] theorem size_scopes_bindName (st : Store) (s : ScopeId) (name : String) (o : ObjectId) :
    (st.bindName s name o).scopes.size = st.scopes.size := by
  simp [bindName]

theorem getElem?_scopes_bindName (st : Store) (s : ScopeId) (name : String) (o : ObjectId)
    (t : ScopeId) :
    (st.bindName s name o).scopes[t]? = st.scopes[t]?.map fun scope =>
      if s = t then { scope with bindings := scope.bindings ++ [(name, o)] } else scope := by
  rw [bindName, Array.getElem?_modify]
  by_cases h : s = t <;> simp [h]

@[simp] theorem parentOf_bindName (st : Store) (s : ScopeId) (name : String) (o : ObjectId) :
    (st.bindName s name o).parentOf = st.parentOf := by
  funext t
  rw [parentOf, getElem?_scopes_bindName, parentOf]
  cases st.scopes[t]? <;> by_cases h : s = t <;> simp [h]

@[simp] theorem childrenOf_bindName (st : Store) (s : ScopeId) (name : String) (o : ObjectId) :
    (st.bindName s name o).childrenOf = st.childrenOf := by
  funext t
  rw [childrenOf, getElem?_scopes_bindName, childrenOf]
  cases st.scopes[t]? <;> by_cases h : s = t <;> simp [h]

/-- A scope that binds one more name binds it unless it did before; nothing else is bound. -/
theorem lookup_bindName (st : Store) (s : ScopeId) (name : String) (o : ObjectId) (t : ScopeId)
    (n : String) :
    (st.bindName s name o).lookup t n =
      (st.lookup t n).or (if t = s ∧ n = name ∧ s < st.scopes.size then some o else none) := by
  rw [lookup, getElem?_scopes_bindName, lookup]
  by_cases h : s = t
  · subst h
    have here : [(name, o)].lookup n = if n = name then some o else none := by
      by_cases hn : n = name
      · rw [hn, List.lookup_cons_self, if_pos rfl]
      · rw [List.lookup_cons, beq_false_of_ne hn, if_neg hn]
        rfl
    by_cases hs : s < st.scopes.size
    · simp [List.lookup_append, hs, here]
    · simp [hs]
  · simp [h, Ne.symm h]

/-! ## The forest -/

/-- Parents are older than their children, and know them in the order of creation. -/
structure Forest (st : Store) : Prop where
  parent_lt : ∀ {s p}, st.parentOf s = some p → p < s
  children : ∀ p, st.childrenOf p =
    (List.range st.scopes.size).filter fun s => st.parentOf s = some p

theorem parentOf_congr (h : st'.scopes = st.scopes) : st'.parentOf = st.parentOf := by
  funext s
  rw [parentOf, h, parentOf]

theorem childrenOf_congr (h : st'.scopes = st.scopes) : st'.childrenOf = st.childrenOf := by
  funext s
  rw [childrenOf, h, childrenOf]

namespace Forest

theorem of_scopes_eq (hf : Forest st) (h : st'.scopes = st.scopes) : Forest st' where
  parent_lt hs := hf.parent_lt (parentOf_congr h ▸ hs)
  children p := by rw [childrenOf_congr h, parentOf_congr h, h, hf.children]

theorem newScope (hf : Forest st) {parent : Option ScopeId} (function : Option NodeId)
    (comment : String) (hparent : ∀ p ∈ parent, p < st.scopes.size) :
    Forest (st.newScope parent function comment).1 where
  parent_lt {s p} h := by
    rw [parentOf_newScope] at h
    split at h
    · rename_i hs
      exact hs ▸ hparent p h
    · exact hf.parent_lt h
  children p := by
    rw [childrenOf_newScope st hparent, size_scopes_newScope, List.range_succ, List.filter_append,
      hf.children]
    congr 1
    · refine List.filter_congr fun s hs => ?_
      rw [parentOf_newScope, if_neg (Nat.ne_of_lt (List.mem_range.mp hs))]
    · by_cases hp : parent = some p <;> simp [parentOf_newScope, hp]

theorem bindName (hf : Forest st) (s : ScopeId) (name : String) (o : ObjectId) :
    Forest (st.bindName s name o) :=
  ⟨fun h => hf.parent_lt (by simpa using h), fun p => by simpa using hf.children p⟩

/-- The scopes stay a forest. -/
theorem changes (hf : Forest st) (h : Changes st st') : Forest st' := by
  cases h with
  | kept h => exact hf.of_scopes_eq h
  | opened parent function comment hparent h =>
    exact (hf.newScope function comment hparent).of_scopes_eq h
  | bound s name o _ h => exact (hf.bindName s name o).of_scopes_eq h

theorem run (hf : Forest st) (ops : List Operation) (h : st.Admits ops) : Forest (st.run ops) := by
  induction ops generalizing st with
  | nil => exact hf
  | cons op ops ih => exact ih (hf.changes (Operation.changes h.1)) h.2

/-- The universe has no parent and no children. -/
theorem root_only (comment : String) : Forest { scopes := #[{ comment }] } := by
  have hp : ∀ s, parentOf { scopes := #[{ comment }] } s = none := by
    intro s
    cases s <;> simp [parentOf]
  refine ⟨fun h => ?_, fun p => ?_⟩
  · simp [hp] at h
  · cases p <;> simp [hp, childrenOf]

theorem addObject (hf : Forest st) (obj : Object) : Forest (st.addObject obj).1 :=
  hf.of_scopes_eq rfl

theorem predeclare (hf : Forest st) (name : String) (t : Ty) : Forest (st.predeclare name t) :=
  (hf.addObject { name, type := t, kind := .typeName }).changes (changes_insert _ _ _)

theorem initial : Forest initial := by
  have scalars : ∀ (ks : List Scalar) (st : Store), Forest st →
      Forest (ks.foldl (fun st k => st.predeclare k.name (.scalar k)) st) := by
    intro ks
    induction ks with
    | nil => exact fun _ hf => hf
    | cons k ks ih => exact fun st hf => ih _ (hf.predeclare _ _)
  exact (scalars _ _ (root_only _)).predeclare _ _

theorem of_reachable (h : st.Reachable) : Forest st := by
  obtain ⟨ops, hops, rfl⟩ := h
  exact initial.run ops hops

end Forest

/-! ## Chains of parents -/

theorem chain_of_le (h : st.scopes.size ≤ s) : st.chain s = [] := by
  rw [chain, Array.getElem?_eq_none h]

theorem parentOf_of_le (h : st.scopes.size ≤ s) : st.parentOf s = none := by
  rw [parentOf, Array.getElem?_eq_none h, Option.bind_none]

namespace Forest

variable (hf : Forest st)
include hf

/-- The chain of a scope goes on with that of its parent. -/
theorem chain_eq (hs : s < st.scopes.size) :
    st.chain s = s :: ((st.parentOf s).map st.chain).getD [] := by
  have hscope := Array.getElem?_eq_getElem hs
  have hparent : st.parentOf s = st.scopes[s].parent := by rw [parentOf, hscope, Option.bind_some]
  rw [chain, hscope]
  cases hp : st.scopes[s].parent with
  | none => simp [hparent, hp]
  | some p => simp [hparent, hp, hf.parent_lt (hparent.trans hp)]

theorem lt_size_of_parentOf (h : st.parentOf s = some p) : p < st.scopes.size := by
  refine Nat.lt_trans (hf.parent_lt h) (Nat.lt_of_not_le fun hs => ?_)
  simp [parentOf_of_le hs] at h

/-- Searching the chain of a scope: the scope itself, then the chain of its parent. -/
theorem findSome?_chain {α : Type} (ask : ScopeId → Option α) (hs : s < st.scopes.size) :
    (st.chain s).findSome? ask =
      (ask s).or ((st.parentOf s).bind fun p => (st.chain p).findSome? ask) := by
  rw [hf.chain_eq hs, List.findSome?_cons]
  cases ask s <;> cases st.parentOf s <;> rfl

/-- The loop over the parents ends, with what the search of the chain gives. -/
theorem searches_iff {α : Type} (ask : ScopeId → Option α) {r : Option α}
    (hs : s < st.scopes.size) :
    st.Searches ask (some s) r ↔ r = (st.chain s).findSome? ask := by
  constructor
  · intro h
    -- The loop may have gone past the last scope: its place is an option.
    have gives : ∀ {p r}, st.Searches ask p r → (∀ s ∈ p, s < st.scopes.size) →
        r = p.bind fun s => (st.chain s).findSome? ask := by
      intro p r h
      induction h with
      | gone => exact fun _ => rfl
      | found ha =>
        intro hp
        rw [Option.bind_some, hf.findSome?_chain ask (hp _ rfl), ha, Option.some_or]
      | up ha _ ih =>
        intro hp
        rw [Option.bind_some, hf.findSome?_chain ask (hp _ rfl), ha, Option.none_or]
        exact ih fun _ h => hf.lt_size_of_parentOf h
    exact gives h fun _ h => Option.some.inj h ▸ hs
  · rintro rfl
    induction s using Nat.strongRecOn with
    | ind s ih =>
      rw [hf.findSome?_chain ask hs]
      cases ha : ask s with
      | some a => exact .found ha
      | none =>
        refine .up ha ?_
        cases hp : st.parentOf s with
        | none => exact .gone
        | some p => exact ih p (hf.parent_lt hp) (hf.lt_size_of_parentOf hp)

theorem wellFounded_parentOf : WellFounded fun p s => st.parentOf s = some p :=
  Subrelation.wf hf.parent_lt Nat.lt_wfRel.wf

theorem count_childrenOf (h : st.parentOf s = some p) : (st.childrenOf p).count s = 1 := by
  have hs : s < st.scopes.size := Nat.lt_of_not_le fun hs => by simp [parentOf_of_le hs] at h
  rw [hf.children]
  exact List.count_eq_one_of_mem (List.nodup_range.filter _) (by simp [hs, h])

end Forest

/-! ## Later states -/

/-- What a scope binds stays bound, and new children come after the old ones. -/
structure Keeps (st st' : Store) : Prop where
  lookup : ∀ {s name o}, st.lookup s name = some o → st'.lookup s name = some o
  children : ∀ p, st.childrenOf p <+: st'.childrenOf p

namespace Keeps

theorem refl (st : Store) : Keeps st st := ⟨fun h => h, fun _ => List.prefix_rfl⟩

theorem trans {st'' : Store} (h : Keeps st st') (h' : Keeps st' st'') : Keeps st st'' :=
  ⟨fun hl => h'.lookup (h.lookup hl), fun p => (h.children p).trans (h'.children p)⟩

theorem of_scopes_eq (h : st'.scopes = st.scopes) : Keeps st st' where
  lookup {s name o} hl := by rwa [Store.lookup, h]
  children p := childrenOf_congr h ▸ List.prefix_rfl

theorem newScope (st : Store) {parent : Option ScopeId} (function : Option NodeId)
    (comment : String) (hparent : ∀ p ∈ parent, p < st.scopes.size) :
    Keeps st (st.newScope parent function comment).1 where
  lookup hl := by rwa [lookup_newScope]
  children p := by
    rw [childrenOf_newScope st hparent]
    exact List.prefix_append _ _

theorem bindName (st : Store) (s : ScopeId) (name : String) (o : ObjectId) :
    Keeps st (st.bindName s name o) where
  lookup hl := by rw [lookup_bindName, hl, Option.some_or]
  children p := childrenOf_bindName st s name o ▸ List.prefix_rfl

theorem of_changes (h : Changes st st') : Keeps st st' := by
  cases h with
  | kept h => exact .of_scopes_eq h
  | opened parent function comment hparent h =>
    exact (newScope st function comment hparent).trans (.of_scopes_eq h)
  | bound s name o _ h => exact (bindName st s name o).trans (.of_scopes_eq h)

theorem run (st : Store) (ops : List Operation) (h : st.Admits ops) : Keeps st (st.run ops) := by
  induction ops generalizing st with
  | nil => exact refl st
  | cons op ops ih => exact (of_changes (Operation.changes h.1)).trans (ih _ h.2)

end Keeps

end Store

/-- In every store that comes of a history: chains of parents are finite, and the loops over them
    end with what the searches give; every scope knows the scopes opened in it, each once and in the
    order of creation; in every later store these come first among its children, and what it binds
    is bound to the same object; and where a name is taken, inserting and defining return the object
    that has it and change nothing. -/
theorem scopes_invariant {st : Store} (reachable : st.Reachable) :
    (WellFounded fun p s => st.parentOf s = some p) ∧
    (∀ s < st.scopes.size,
      (∀ name r, st.Searches (st.binding name) (some s) r ↔ r = st.lookupChain s name) ∧
      ∀ r, st.Searches st.functionOf (some s) r ↔ r = st.enclosingFunction s) ∧
    (∀ p, st.childrenOf p = (List.range st.scopes.size).filter fun s => st.parentOf s = some p) ∧
    (∀ s p, st.parentOf s = some p → (st.childrenOf p).count s = 1) ∧
    (∀ ops, st.Admits ops → (∀ p, st.childrenOf p <+: (st.run ops).childrenOf p) ∧
      ∀ s name o, st.lookup s name = some o → (st.run ops).lookup s name = some o) ∧
    (∀ s o old, st.lookup s (st.nameOf o) = some old → st.insert s o = (st, some old)) ∧
    ∀ s name old, st.lookup s name = some old → ∀ position t isConstant,
      st.define s position name t isConstant = (st, .error old) := by
  have hf := Store.Forest.of_reachable reachable
  refine ⟨hf.wellFounded_parentOf, fun s hs => ⟨fun name r => hf.searches_iff _ hs,
    fun r => hf.searches_iff _ hs⟩, hf.children, fun s p h => hf.count_childrenOf h,
    fun ops hops => ?_, fun s o old h => Store.insert_of_taken h,
    fun s name old h position t isConstant => Store.define_of_taken h position t isConstant⟩
  have keeps := Store.Keeps.run st ops hops
  exact ⟨keeps.children, fun _ _ _ h => keeps.lookup h⟩

/-- A package that defines `x`, a function in it with two blocks, of which the first has an `x` of
    its own, and a scope without a parent; then the package defines `x` again. -/
def shadowing : List Store.Operation := [
  .newScope (some 0) none "package",
  .newScope (some 1) (some 7) "function",
  .newScope (some 2) none "first",
  .newScope (some 2) none "second",
  .newScope none none "detached",
  .define 1 {} "x" (.scalar .i32) false,
  .create { name := "x", type := .scalar .f64, kind := .variable {} },
  .insert 3 15,
  .define 1 {} "x" .string true]

/-- The store after `shadowing`. -/
def shadowed : Store := Store.initial.run shadowing

theorem reachable_shadowed : shadowed.Reachable := ⟨shadowing, by decide, rfl⟩

theorem scopes_invariant_shadowing : shadowed.Reachable ∧
    (WellFounded fun p s => shadowed.parentOf s = some p) ∧
    shadowed.Searches (shadowed.binding "x") (some 3) (some (15, 3)) ∧
    shadowed.Searches (shadowed.binding "x") (some 4) (some (14, 1)) ∧
    shadowed.Searches (shadowed.binding "x") (some 5) none ∧
    shadowed.Searches shadowed.functionOf (some 4) (some 7) ∧
    shadowed.childrenOf 2 = [3, 4] ∧ (shadowed.childrenOf 2).count 4 = 1 ∧
    (shadowed.run [.newScope (some 2) none "third"]).lookup 3 "x" = some 15 ∧
    shadowed.insert 1 15 = (shadowed, some 14) ∧
    shadowed.define 3 {} "x" .string true = (shadowed, .error 15) := by
  obtain ⟨finite, searches, children, once, later, inserted, defined⟩ :=
    scopes_invariant reachable_shadowed
  refine ⟨reachable_shadowed, finite, ?_, ?_, ?_, ?_, ?_, ?_, ?_, ?_, ?_⟩
  · exact ((searches 3 (by decide +kernel)).1 "x" _).mpr (by decide +kernel)
  · exact ((searches 4 (by decide +kernel)).1 "x" _).mpr (by decide +kernel)
  · exact ((searches 5 (by decide +kernel)).1 "x" _).mpr (by decide +kernel)
  · exact ((searches 4 (by decide +kernel)).2 _).mpr (by decide +kernel)
  · rw [children]
    decide +kernel
  · exact once 4 2 (by decide +kernel)
  · exact (later _ (by decide +kernel)).2 3 "x" 15 (by decide +kernel)
  · exact inserted 1 15 14 (by decide +kernel)
  · exact defined 3 "x" 15 (by decide +kernel) {} .string true

end TreeLowering
