import Mathlib.Logic.Relation
import TreeLowering.Proofs.ScopeTree
import TreeLowering.Scope.Facts

/-!
Lexical resolution of names.

A search for a name from a scope sees the scopes on the chain of parents up to the first that binds
the name (`Store.Sees`), and answers with the binding that it finds there
(`lookupChain_eq_some_iff`). It reads no other scope (`lookupChain_congr`), so an insertion is
noticed only where the scope that it changes is seen under the new name. A type name is looked up in
the universe too if no scope on the chain binds it: an object that is inserted there is noticed from
scopes without the universe on their chain (`type_seen_from_detached`).

Main statement: `insertion_noticed`.
-/
namespace TreeLowering

namespace Store

/-- A scope lies within another one, itself included: its chain of parents leads there. -/
def Within (st : Store) : ScopeId → ScopeId → Prop :=
  Relation.ReflTransGen fun s p => st.parentOf s = some p

/-- A scope lies within another one and is not that one: it is nearer to all scopes within it. -/
def Inside (st : Store) : ScopeId → ScopeId → Prop :=
  Relation.TransGen fun s p => st.parentOf s = some p

/-- A search for a name from the scope `s` comes to the scope `t`: `t` is on the chain of `s`, and
    none on the chain that is nearer binds the name. -/
structure Sees (st : Store) (s : ScopeId) (name : String) (t : ScopeId) : Prop where
  within : st.Within s t
  clear : ∀ u, st.Within s u → st.Inside u t → st.lookup u name = none

/-- No scope on the chain of a scope binds a name. -/
def Unbound (st : Store) (s : ScopeId) (name : String) : Prop :=
  ∀ t, st.Within s t → st.lookup t name = none

/-- The type that an object names; a variable names none. -/
def typeNamed (st : Store) (o : ObjectId) : Ty :=
  match st.objects[o]? with
  | some obj => if obj.kind = .typeName then obj.type else .missing
  | none => .missing

variable {st st' : Store} {s t u p : ScopeId} {o : ObjectId} {name : String}

/-- The chain of a scope without a parent is that scope. -/
theorem Within.eq_of_parentOf_none (h : st.Within s t) (hs : st.parentOf s = none) : t = s := by
  rcases h.cases_head with rfl | ⟨p, hp, -⟩
  · rfl
  · simp [hs] at hp

theorem Within.eq_or_of_parentOf (h : st.Within s t) (hs : st.parentOf s = some p) :
    t = s ∨ st.Within p t := by
  rcases h.cases_head with rfl | ⟨q, hq, h⟩
  · exact .inl rfl
  · obtain rfl : p = q := Option.some.inj (hs.symm.trans hq)
    exact .inr h

theorem Within.eq_or_inside (h : st.Within s t) : t = s ∨ st.Inside s t := by
  rcases Relation.reflTransGen_iff_eq_or_transGen.mp h with h | h
  · exact .inl h
  · exact .inr h

/-- A search goes on to the parent of a scope that does not bind the name. -/
theorem Sees.of_parentOf (hp : st.parentOf s = some p) (hs : st.lookup s name = none)
    (h : st.Sees p name t) : st.Sees s name t := by
  refine ⟨.head hp h.within, fun u hw hi => ?_⟩
  rcases hw.eq_or_of_parentOf hp with rfl | hw
  · exact hs
  · exact h.clear u hw hi

namespace Forest

variable (hf : Forest st)
include hf

theorem lt_of_inside (h : st.Inside s t) : t < s := by
  induction h with
  | single hp => exact hf.parent_lt hp
  | tail _ hp ih => exact Nat.lt_trans (hf.parent_lt hp) ih

theorem le_of_within (h : st.Within s t) : t ≤ s := by
  rcases h.eq_or_inside with rfl | hi
  · exact Nat.le_refl t
  · exact Nat.le_of_lt (hf.lt_of_inside hi)

/-- A search always comes to the scope where it starts. -/
theorem sees_self (s : ScopeId) (name : String) : st.Sees s name s :=
  ⟨.refl, fun _ hw hi => absurd (hf.lt_of_inside hi) (Nat.not_lt.mpr (hf.le_of_within hw))⟩

/-- What a search for a name answers: the binding of the scope, else the answer from the parent. -/
theorem lookupChain_eq (s : ScopeId) (name : String) :
    st.lookupChain s name =
      (st.binding name s).or ((st.parentOf s).bind fun p => st.lookupChain p name) := by
  by_cases hs : s < st.scopes.size
  · exact hf.findSome?_chain (st.binding name) hs
  · have hs := Nat.not_lt.mp hs
    have hnone : st.binding name s = none := by
      simp [binding, lookup, Array.getElem?_eq_none hs]
    rw [parentOf_of_le hs, hnone, lookupChain, chain_of_le hs]
    rfl

/-- A search finds the binding of the nearest scope on the chain that binds the name. -/
theorem lookupChain_eq_some_iff :
    st.lookupChain s name = some (o, t) ↔ st.Sees s name t ∧ st.lookup t name = some o := by
  -- Up the chain: parents are older, so the number of the scope goes down.
  induction s using Nat.strongRecOn with
  | ind s ih =>
    rw [hf.lookupChain_eq]
    cases hs : st.lookup s name with
    | some old =>
      have hbinding : st.binding name s = some (old, s) := by rw [binding, hs]; rfl
      rw [hbinding, Option.some_or]
      constructor
      · intro h
        obtain ⟨rfl, rfl⟩ : old = o ∧ s = t := by simpa using h
        exact ⟨hf.sees_self s name, hs⟩
      · rintro ⟨h, ht⟩
        rcases h.within.eq_or_inside with rfl | hi
        · cases hs.symm.trans ht
          rfl
        · cases hs.symm.trans (h.clear s .refl hi)
    | none =>
      have hbinding : st.binding name s = none := by rw [binding, hs]; rfl
      rw [hbinding, Option.none_or]
      cases hp : st.parentOf s with
      | none =>
        simp only [Option.bind_none, reduceCtorEq, false_iff]
        rintro ⟨h, ht⟩
        rw [h.within.eq_of_parentOf_none hp, hs] at ht
        cases ht
      | some p =>
        rw [Option.bind_some, ih p (hf.parent_lt hp)]
        refine ⟨fun h => ⟨h.1.of_parentOf hp hs, h.2⟩, fun ⟨h, ht⟩ => ⟨⟨?_, ?_⟩, ht⟩⟩
        · -- `t` binds the name and `s` does not, so `t` is further up.
          rcases h.within.eq_or_of_parentOf hp with rfl | hw
          · cases hs.symm.trans ht
          · exact hw
        · exact fun u hw hi => h.clear u (.head hp hw) hi

/-- A search finds nothing if and only if no scope on the chain binds the name. -/
theorem lookupChain_eq_none_iff : st.lookupChain s name = none ↔ st.Unbound s name := by
  constructor
  · induction s using Nat.strongRecOn with
    | ind s ih =>
      rw [hf.lookupChain_eq, Option.or_eq_none_iff]
      rintro ⟨hs, hparent⟩ t ht
      have hs : st.lookup s name = none := by simpa [binding] using hs
      cases hp : st.parentOf s with
      | none => rwa [ht.eq_of_parentOf_none hp]
      | some p =>
        rcases ht.eq_or_of_parentOf hp with rfl | ht
        · exact hs
        · exact ih p (hf.parent_lt hp) (by simpa [hp] using hparent) t ht
  · intro h
    refine Option.eq_none_iff_forall_not_mem.mpr fun ⟨o, t⟩ ht => ?_
    obtain ⟨hsees, ht⟩ := hf.lookupChain_eq_some_iff.mp ht
    cases (h t hsees.within).symm.trans ht

/-- The answer of a search depends only on the chains and on the scopes that it sees. -/
theorem lookupChain_congr (hf' : Forest st') (hparent : st'.parentOf = st.parentOf)
    (h : ∀ t, st.Sees s name t → st'.lookup t name = st.lookup t name) :
    st'.lookupChain s name = st.lookupChain s name := by
  induction s using Nat.strongRecOn with
  | ind s ih =>
    have hs := h s (hf.sees_self s name)
    have hbinding : st'.binding name s = st.binding name s := by rw [binding, hs, binding]
    rw [hf'.lookupChain_eq, hf.lookupChain_eq, hbinding, hparent]
    cases hl : st.lookup s name with
    | some old => simp [binding, hl]
    | none =>
      cases hp : st.parentOf s with
      | none => rfl
      | some p =>
        simp only [Option.bind_some]
        rw [ih p (hf.parent_lt hp) fun t ht => h t (ht.of_parentOf hp hl)]

end Forest

/-! ## Insertion -/

/-- An object that is inserted into the scope `t` is noticed from the scope `s`: a search for its
    name sees `t`. -/
def Notices (st : Store) (s : ScopeId) (name : String) (t : ScopeId) (o : ObjectId) : Prop :=
  name = st.nameOf o ∧ st.Sees s name t

/-- An object that is inserted into the scope `t` is the one that a type name falls back to. -/
def FallsBack (st : Store) (s : ScopeId) (name : String) (t : ScopeId) (o : ObjectId) : Prop :=
  name = st.nameOf o ∧ t = root ∧ st.Unbound s name

theorem eq_adopt_of_insert (h : st.insert t o = (st', none)) :
    st.lookup t (st.nameOf o) = none ∧ st' = st.adopt t o := by
  cases hl : st.lookup t (st.nameOf o) with
  | some old =>
    rw [insert_of_taken hl] at h
    cases h
  | none =>
    rw [insert_of_free hl] at h
    cases h
    exact ⟨rfl, rfl⟩

@[simp] theorem parentOf_adopt (st : Store) (t : ScopeId) (o : ObjectId) :
    (st.adopt t o).parentOf = st.parentOf := parentOf_bindName st t (st.nameOf o) o

theorem lookup_adopt (ht : t < st.scopes.size) (o : ObjectId) (u : ScopeId) (name : String) :
    (st.adopt t o).lookup u name =
      (st.lookup u name).or (if u = t ∧ name = st.nameOf o then some o else none) := by
  rw [show (st.adopt t o).lookup u name = (st.bindName t (st.nameOf o) o).lookup u name from rfl,
    lookup_bindName]
  simp [ht]

/-- Insertion changes only the parent of an object. -/
theorem map_object_adopt {α : Type} {f : Object → α} (st : Store) (t : ScopeId) (o v : ObjectId)
    (hf : ∀ obj parent, f { obj with parent } = f obj) :
    (st.adopt t o).objects[v]?.map f = st.objects[v]?.map f := by
  rw [adopt, Array.getElem?_modify]
  by_cases h : o = v
  · simp [h, Function.comp_def, hf]
  · simp [h]

@[simp] theorem nameOf_adopt (st : Store) (t : ScopeId) (o : ObjectId) :
    (st.adopt t o).nameOf = st.nameOf := by
  funext v
  rw [nameOf, map_object_adopt st t o v fun _ _ => rfl, nameOf]

@[simp] theorem flags?_adopt (st : Store) (t : ScopeId) (o v : ObjectId) :
    (st.adopt t o).objects[v]?.bind Object.flags? = st.objects[v]?.bind Object.flags? := by
  have h := map_object_adopt (f := Object.flags?) st t o v fun _ _ => rfl
  simpa only [Option.bind_map, Function.id_comp] using congrArg (Option.bind · id) h

theorem typeNamed_eq (st : Store) (v : ObjectId) :
    st.typeNamed v =
      (st.objects[v]?.map fun obj => if obj.kind = .typeName then obj.type else .missing).getD
        .missing := by
  rw [typeNamed]
  cases st.objects[v]? <;> rfl

@[simp] theorem typeNamed_adopt (st : Store) (t : ScopeId) (o : ObjectId) :
    (st.adopt t o).typeNamed = st.typeNamed := by
  funext v
  rw [typeNamed_eq, map_object_adopt st t o v fun _ _ => rfl, typeNamed_eq]

/-- The type that a name denotes is the one that the object names which the search finds, or the
    universe if it finds none. -/
theorem lookupType_eq (st : Store) (s : ScopeId) (name : String) :
    st.lookupType (some s) name =
      ((((st.lookupChain s name).map Prod.fst).or (st.lookup root name)).map st.typeNamed).getD
        .missing := by
  rw [lookupType, Option.getD_some]
  cases st.lookupChain s name with
  | some found => rfl
  | none => cases st.lookup root name <;> rfl

namespace Forest

variable (hf : Forest st)
include hf

theorem adopt (t : ScopeId) (o : ObjectId) : Forest (st.adopt t o) :=
  (hf.bindName t (st.nameOf o) o).of_scopes_eq rfl

theorem lookupChain_adopt_of_not_notices (ht : t < st.scopes.size)
    (h : ¬st.Notices s name t o) :
    (st.adopt t o).lookupChain s name = st.lookupChain s name := by
  refine hf.lookupChain_congr (hf.adopt t o) (parentOf_adopt st t o) fun u hu => ?_
  have hne : ¬(u = t ∧ name = st.nameOf o) := fun ⟨hut, hname⟩ => h ⟨hname, hut ▸ hu⟩
  rw [lookup_adopt ht, if_neg hne, Option.or_none]

theorem lookupChain_adopt_of_notices (ht : t < st.scopes.size)
    (free : st.lookup t (st.nameOf o) = none) (h : st.Notices s name t o) :
    (st.adopt t o).lookupChain s name = some (o, t) := by
  obtain ⟨rfl, hsees⟩ := h
  refine (hf.adopt t o).lookupChain_eq_some_iff.mpr ⟨⟨?_, fun u hw hi => ?_⟩, ?_⟩
  · rw [Within, parentOf_adopt]
    exact hsees.within
  · rw [Within, parentOf_adopt] at hw
    rw [Inside, parentOf_adopt] at hi
    have hne : u ≠ t := Nat.ne_of_gt (hf.lt_of_inside hi)
    rw [lookup_adopt ht, hsees.clear u hw hi, Option.none_or, if_neg fun h => hne h.1]
  · rw [lookup_adopt ht, free, Option.none_or, if_pos ⟨rfl, rfl⟩]

/-- A type name denotes what it did, unless the object is noticed or is what it falls back to. -/
theorem lookupType_adopt_of_not (ht : t < st.scopes.size) (hn : ¬st.Notices s name t o)
    (hb : ¬st.FallsBack s name t o) :
    (st.adopt t o).lookupType (some s) name = st.lookupType (some s) name := by
  rw [lookupType_eq, lookupType_eq, hf.lookupChain_adopt_of_not_notices ht hn, typeNamed_adopt]
  cases hl : st.lookupChain s name with
  | some found => rfl
  | none =>
    have hne : ¬(root = t ∧ name = st.nameOf o) := fun ⟨hr, hname⟩ =>
      hb ⟨hname, hr.symm, hf.lookupChain_eq_none_iff.mp hl⟩
    rw [lookup_adopt ht, if_neg hne, Option.or_none]

theorem lookupType_adopt (ht : t < st.scopes.size) (free : st.lookup t (st.nameOf o) = none)
    (h : st.Notices s name t o ∨ st.FallsBack s name t o) :
    (st.adopt t o).lookupType (some s) name = st.typeNamed o := by
  rw [lookupType_eq, typeNamed_adopt]
  by_cases hn : st.Notices s name t o
  · rw [hf.lookupChain_adopt_of_notices ht free hn]
    rfl
  · -- The chain still binds nothing, and the universe now binds the name.
    obtain ⟨rfl, rfl, hunbound⟩ := h.resolve_left hn
    rw [hf.lookupChain_adopt_of_not_notices ht hn, hf.lookupChain_eq_none_iff.mpr hunbound,
      lookup_adopt ht, free, if_pos ⟨rfl, rfl⟩]
    rfl

end Forest

end Store

namespace Analysis

variable {st : Store} {t : ScopeId} {o : ObjectId} {name : String}

/-- The variable that a name denotes is the one recorded for the site, else the one that the search
    finds. -/
theorem resolve_eq (st : Store) (facts : Facts) (name : String) (site : Option Site) :
    resolve ⟨st, facts⟩ name site =
      ((facts.definitions.lookup (site.map Site.id)).filter fun v => st.nameOf v = name).or
        (((st.lookupChain (scopeAt ⟨st, facts⟩ site) name).map Prod.fst).filter fun v =>
          (st.objects[v]?.bind Object.flags?).isSome) := by
  rw [resolve]
  cases (facts.definitions.lookup (site.map Site.id)).filter fun v => st.nameOf v = name <;> rfl

theorem resolve_adopt_of_not_notices (hf : st.Forest) (ht : t < st.scopes.size) {facts : Facts}
    {site : Option Site} (h : ¬st.Notices (scopeAt ⟨st, facts⟩ site) name t o) :
    resolve ⟨st.adopt t o, facts⟩ name site = resolve ⟨st, facts⟩ name site := by
  have same : scopeAt ⟨st.adopt t o, facts⟩ site = scopeAt ⟨st, facts⟩ site := rfl
  rw [resolve_eq, resolve_eq, same, hf.lookupChain_adopt_of_not_notices ht h]
  simp only [Store.nameOf_adopt, Store.flags?_adopt]

/-- Where no variable of the name is recorded, an object that is noticed is what its name denotes if
    it is a variable. -/
theorem resolve_adopt_of_notices (hf : st.Forest) (ht : t < st.scopes.size) {facts : Facts}
    {site : Option Site} (free : st.lookup t (st.nameOf o) = none)
    (h : st.Notices (scopeAt ⟨st, facts⟩ site) name t o)
    (unrecorded : ∀ v, facts.definitions.lookup (site.map Site.id) = some v → st.nameOf v ≠ name) :
    resolve ⟨st.adopt t o, facts⟩ name site =
      if (st.objects[o]?.bind Object.flags?).isSome then some o else none := by
  have same : scopeAt ⟨st.adopt t o, facts⟩ site = scopeAt ⟨st, facts⟩ site := rfl
  have passed : ((facts.definitions.lookup (site.map Site.id)).filter
      fun v => (st.adopt t o).nameOf v = name) = none := by
    simpa [Option.filter_eq_none_iff] using unrecorded
  rw [resolve_eq, same, passed, hf.lookupChain_adopt_of_notices ht free h]
  simp [Option.filter_some]

/-- A variable that is recorded under its name is what the name denotes. -/
theorem resolve_of_recorded {facts : Facts} {site : Option Site} {v : ObjectId}
    (recorded : facts.definitions.lookup (site.map Site.id) = some v) (hv : st.nameOf v = name) :
    resolve ⟨st, facts⟩ name site = some v := by
  simp [resolve_eq, recorded, hv]

end Analysis

/-- In every store that comes of a history, a search for a name from a scope finds the binding of
    the nearest scope on the chain that binds it. When an object is inserted into a scope, searches
    from other scopes, and with them the variables that names denote there, notice it only where the
    name is the object's and the search sees that scope, and there they find the object. A variable
    that is recorded for a site under its name stays what the name denotes there; one of another
    name is passed over. The types that names denote change only where the object is noticed, and
    for an object of the universe also where no scope on the chain binds the name. -/
theorem insertion_noticed {st : Store} (reachable : st.Reachable) :
    (∀ s name o t, st.lookupChain s name = some (o, t) ↔
      st.Sees s name t ∧ st.lookup t name = some o) ∧
    ∀ t o st', t < st.scopes.size → st.insert t o = (st', none) →
      (∀ s name, ¬st.Notices s name t o → st'.lookupChain s name = st.lookupChain s name) ∧
      (∀ s name, st.Notices s name t o → st'.lookupChain s name = some (o, t)) ∧
      (∀ facts site name, ¬st.Notices (Analysis.scopeAt ⟨st, facts⟩ site) name t o →
        Analysis.resolve ⟨st', facts⟩ name site = Analysis.resolve ⟨st, facts⟩ name site) ∧
      (∀ facts site name, st.Notices (Analysis.scopeAt ⟨st, facts⟩ site) name t o →
        (∀ v, facts.definitions.lookup (site.map Site.id) = some v → st.nameOf v ≠ name) →
          Analysis.resolve ⟨st', facts⟩ name site =
            if (st.objects[o]?.bind Object.flags?).isSome then some o else none) ∧
      (∀ facts site name v, facts.definitions.lookup (site.map Site.id) = some v →
        st.nameOf v = name → Analysis.resolve ⟨st', facts⟩ name site = some v ∧
          Analysis.resolve ⟨st, facts⟩ name site = some v) ∧
      (∀ s name, ¬st.Notices s name t o → ¬st.FallsBack s name t o →
        st'.lookupType (some s) name = st.lookupType (some s) name) ∧
      ∀ s name, st.Notices s name t o ∨ st.FallsBack s name t o →
        st'.lookupType (some s) name = st.typeNamed o := by
  have hf := Store.Forest.of_reachable reachable
  refine ⟨fun s name o t => hf.lookupChain_eq_some_iff, fun t o st' ht inserted => ?_⟩
  obtain ⟨free, rfl⟩ := Store.eq_adopt_of_insert inserted
  exact ⟨fun s name h => hf.lookupChain_adopt_of_not_notices ht h,
    fun s name h => hf.lookupChain_adopt_of_notices ht free h,
    fun facts site name h => Analysis.resolve_adopt_of_not_notices hf ht h,
    fun facts site name h hr => Analysis.resolve_adopt_of_notices hf ht free h hr,
    fun facts site name v hr hv => ⟨Analysis.resolve_of_recorded hr
      ((congrFun (Store.nameOf_adopt st t o) v).trans hv), Analysis.resolve_of_recorded hr hv⟩,
    fun s name hn hb => hf.lookupType_adopt_of_not ht hn hb,
    fun s name h => hf.lookupType_adopt ht free h⟩

/-- An `x` that is inserted into the function is found from its second block, also where an object
    of another name is recorded, and not from the first, which has an `x` of its own, nor from the
    package around it. -/
theorem insertion_noticed_shadowing : shadowed.Reachable ∧
    (2 < shadowed.scopes.size ∧ shadowed.insert 2 15 = (shadowed.adopt 2 15, none)) ∧
    (shadowed.lookupChain 4 "x" = some (14, 1) ∧ shadowed.Notices 4 "x" 2 15 ∧
      (shadowed.adopt 2 15).lookupChain 4 "x" = some (15, 2) ∧
      Analysis.resolve ⟨shadowed.adopt 2 15, { scope := some 4 }⟩ "x" none = some 15 ∧
      Analysis.resolve ⟨shadowed.adopt 2 15, { scope := some 4, definitions := [(none, 0)] }⟩ "x"
        none = some 15) ∧
    (¬shadowed.Notices 3 "x" 2 15 ∧ (shadowed.adopt 2 15).lookupChain 3 "x" = some (15, 3)) ∧
    (¬shadowed.Notices 1 "x" 2 15 ∧ (shadowed.adopt 2 15).lookupChain 1 "x" = some (14, 1)) := by
  have size : 2 < shadowed.scopes.size := by decide +kernel
  have free : shadowed.lookup 2 (shadowed.nameOf 15) = none := by decide +kernel
  have block : shadowed.parentOf 4 = some 2 := by decide +kernel
  have hf := Store.Forest.of_reachable reachable_shadowed
  have inserted := Store.insert_of_free free
  obtain ⟨-, noticing⟩ := insertion_noticed reachable_shadowed
  obtain ⟨others, found, -, resolved, -, -, -⟩ := noticing 2 15 _ size inserted
  have second : shadowed.Notices 4 "x" 2 15 := by
    refine ⟨by decide +kernel, .single block, fun u hw hi => ?_⟩
    rcases hw.eq_or_of_parentOf block with rfl | hw
    · decide +kernel
    · exact absurd (hf.lt_of_inside hi) (Nat.not_lt.mpr (hf.le_of_within hw))
  have first : ¬shadowed.Notices 3 "x" 2 15 := fun ⟨_, hsees⟩ =>
    absurd (hsees.clear 3 .refl (.single (by decide +kernel))) (by decide +kernel)
  have package : ¬shadowed.Notices 1 "x" 2 15 := fun ⟨_, hsees⟩ =>
    absurd (hf.le_of_within hsees.within) (by decide)
  refine ⟨reachable_shadowed, ⟨size, inserted⟩,
    ⟨by decide +kernel, second, found 4 "x" second, ?_, ?_⟩, ⟨first, ?_⟩, package, ?_⟩
  · rw [resolved { scope := some 4 } none "x" second (by simp)]
    decide +kernel
  · -- The object recorded for the site has another name.
    have other : shadowed.nameOf 0 ≠ "x" := by decide +kernel
    rw [resolved { scope := some 4, definitions := [(none, 0)] } none "x" second
      (by simpa using other)]
    decide +kernel
  · rw [others 3 "x" first]
    decide +kernel
  · rw [others 1 "x" package]
    decide +kernel

/-- A scope without a parent, and a type name that no scope binds yet. -/
def detached : Store :=
  Store.initial.run [.newScope none none "detached",
    .create { name := "Point", type := .scalar .i32, kind := .typeName }]

/-- A type name that is inserted into the universe is seen from a scope on whose chain the universe
    is not. -/
theorem type_seen_from_detached : detached.Reachable ∧ 0 < detached.scopes.size ∧
    detached.insert Store.root 14 = (detached.adopt Store.root 14, none) ∧
    ¬detached.Within 1 Store.root ∧
    detached.lookupType (some 1) "Point" = .missing ∧
    (detached.adopt Store.root 14).lookupType (some 1) "Point" = .scalar .i32 := by
  have orphan : detached.parentOf 1 = none := by decide +kernel
  have missed : detached.lookupChain 1 "Point" = none := by decide +kernel
  have free : detached.lookup Store.root "Point" = none := by decide +kernel
  have missed' : (detached.adopt Store.root 14).lookupChain 1 "Point" = none := by decide +kernel
  have taken : (detached.adopt Store.root 14).lookup Store.root "Point" = some 14 := by
    decide +kernel
  refine ⟨⟨_, by decide, rfl⟩, by decide +kernel, Store.insert_of_free (by decide +kernel),
    fun h => ?_, ?_, ?_⟩
  · exact absurd (h.eq_of_parentOf_none orphan) (by decide)
  · rw [Store.lookupType_eq, missed, free]
    rfl
  · rw [Store.lookupType_eq, missed', taken, Store.typeNamed_adopt]
    rfl

end TreeLowering
