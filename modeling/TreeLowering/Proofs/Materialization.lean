import Mathlib.Data.Finset.Card
import Mathlib.Logic.Relation
import TreeLowering.Proofs.TypeTable

/-!
Recursive types are mapped in finitely many steps. The declared types that a list of types comes to
(`Store.Reached`) form a finite graph. If no declared type comes back to itself through declared
types that are no structs (`Store.Grounded`), mapping ends: a struct is entered once, and between
two structs the declared types only go down (`Store.rank`). So the number of structs not yet
entered, and then the rank, bounds the depth.

Main statement: `instructionTypes_materialize`.
-/
namespace TreeLowering

open Lower Relation

/-! ## The graph of declared types -/

namespace Ty

mutual

/-- The declared types that mapping a type comes to first; a pointer to `void` hides its base. -/
def visits (store : Store) : Ty → List NamedId
  | .array t => visits store t
  | .pointer t => if store.isVoid t then [] else visits store t
  | .struct fields => visitsAll store fields
  | .func params result _ => visits store result ++ visitsAll store params
  | .named id => [id]
  | _ => []

/-- The declared types that mapping fields or parameters comes to first. -/
def visitsAll (store : Store) : List (String × Ty) → List NamedId
  | [] => []
  | (_, t) :: rest => visits store t ++ visitsAll store rest

end

mutual

/-- No part of a type is missing, but for the result of a function. -/
def Whole : Ty → Prop
  | .missing => False
  | .array t => Whole t
  | .pointer t => Whole t
  | .struct fields => WholeAll fields
  | .func params result _ => (result.isMissing = false → Whole result) ∧ WholeAll params
  | _ => True

/-- No part of any field or parameter is missing. -/
def WholeAll : List (String × Ty) → Prop
  | [] => True
  | (_, t) :: rest => Whole t ∧ WholeAll rest

end

theorem whole_of_mem : ∀ fields, WholeAll fields → ∀ f ∈ fields, Whole f.2
  | (_, _) :: rest, hw, f, hf => by
    rcases List.mem_cons.mp hf with rfl | hf
    · exact hw.1
    · exact whole_of_mem rest hw.2 f hf

theorem mem_visitsAll {store : Store} {id : NamedId} :
    ∀ fields, ∀ f ∈ fields, id ∈ visits store f.2 → id ∈ visitsAll store fields
  | (_, _) :: rest, f, hf, h => by
    rcases List.mem_cons.mp hf with rfl | hf
    · exact List.mem_append_left _ h
    · exact List.mem_append_right _ (mem_visitsAll rest f hf h)

end Ty

/-- The declared types that a list of types comes to, through what declared types stand for. -/
inductive Store.Reached (store : Store) (ts : List Ty) : NamedId → Prop where
  | root {t : Ty} {id : NamedId} : t ∈ ts → id ∈ t.visits store → store.Reached ts id
  | under {id id' : NamedId} : store.Reached ts id →
      id' ∈ (store.underlying (.named id)).visits store → store.Reached ts id'

/-- The first declared type is no struct and comes to the second. -/
def Store.Unfolds (store : Store) (a b : NamedId) : Prop :=
  store.structFields? (.named a) = none ∧ b ∈ (store.underlying (.named a)).visits store

/-- A finite graph of types: every declared type in it has a type name and stands for something, and
    every cycle goes through a declared struct. -/
structure Store.Grounded (store : Store) (ts : List Ty) : Prop where
  whole : ∀ t ∈ ts, t.Whole
  declared : ∀ {id}, store.Reached ts id → (store.declaration id).isSome
  known : ∀ {id}, store.Reached ts id → (store.underlying (.named id)).Whole
  acyclic : ∀ {id}, store.Reached ts id → ¬TransGen (store.Unfolds) id id

/-! ## Reading what is reached -/

namespace Lower

section
variable {store : Store} {table : Table}

mutual

theorem isSome_of_readType :
    ∀ t T, readType store table t = some T → ∀ id ∈ t.visits store, (table id).isSome
  | .missing, _, _ => by simp [Ty.visits]
  | .scalar _, _, _ => by simp [Ty.visits]
  | .string, _, _ => by simp [Ty.visits]
  | .array t, T, h => by
    obtain ⟨e, he, -⟩ := Option.bind_eq_some_iff.mp h
    exact isSome_of_readType t e he
  | .pointer t, T, h => by
    unfold readType at h
    unfold Ty.visits
    split at h
    · next hv => simp [hv]
    · next hv =>
      obtain ⟨e, he, -⟩ := Option.bind_eq_some_iff.mp h
      rw [if_neg hv]
      exact isSome_of_readType t e he
  | .struct fields, T, h => by
    obtain ⟨ts, hts, -⟩ := Option.bind_eq_some_iff.mp h
    exact isSome_of_readFields fields ts hts
  | .func params result _, T, h => by
    obtain ⟨r, hr, hrest⟩ := Option.bind_eq_some_iff.mp h
    obtain ⟨ps, hps, -⟩ := Option.bind_eq_some_iff.mp hrest
    intro id hid
    rcases List.mem_append.mp hid with hid | hid
    · split at hr
      · next hm =>
        cases result with
        | missing => simp [Ty.visits] at hid
        | _ => cases hm
      · exact isSome_of_readType result r hr id hid
    · exact isSome_of_readFields params ps hps id hid
  | .named x, T, h => by
    intro id hid
    obtain rfl := List.mem_singleton.mp hid
    exact Option.isSome_of_eq_some h

theorem isSome_of_readFields :
    ∀ fields Ts, readFields store table fields = some Ts →
      ∀ id ∈ Ty.visitsAll store fields, (table id).isSome
  | [], _, _ => by simp [Ty.visitsAll]
  | (_, t) :: rest, Ts, h => by
    obtain ⟨T, hT, hrest⟩ := Option.bind_eq_some_iff.mp h
    obtain ⟨Us, hU, -⟩ := Option.bind_eq_some_iff.mp hrest
    intro id hid
    rcases List.mem_append.mp hid with hid | hid
    · exact isSome_of_readType t T hT id hid
    · exact isSome_of_readFields rest Us hU id hid

end

mutual

theorem exists_readType : ∀ t : Ty, t.Whole → (∀ id ∈ t.visits store, (table id).isSome) →
    ∃ T, readType store table t = some T
  | .missing, hw, _ => hw.elim
  | .scalar k, _, _ => ⟨_, rfl⟩
  | .string, _, _ => ⟨_, rfl⟩
  | .array t, hw, hv => by
    obtain ⟨e, he⟩ := exists_readType t hw hv
    exact ⟨arrayStruct e, by rw [readType, he]; rfl⟩
  | .pointer t, hw, hv => by
    unfold readType
    unfold Ty.visits at hv
    split
    · exact ⟨_, rfl⟩
    · next h =>
      rw [if_neg h] at hv
      obtain ⟨e, he⟩ := exists_readType t hw hv
      exact ⟨.pointer e, by rw [he]; rfl⟩
  | .struct fields, hw, hv => by
    obtain ⟨ts, hts⟩ := exists_readFields fields hw hv
    exact ⟨.struct ts, by rw [readType, hts]; rfl⟩
  | .func params result _, hw, hv => by
    obtain ⟨ps, hps⟩ := exists_readFields params hw.2 fun id h => hv id (List.mem_append_right _ h)
    unfold readType
    rw [hps]
    cases hm : result.isMissing with
    | true => exact ⟨_, rfl⟩
    | false =>
      obtain ⟨r, hr⟩ := exists_readType result (hw.1 hm)
        fun id h => hv id (List.mem_append_left _ h)
      exact ⟨.pointer (.func r ps), by simp [hr]⟩
  | .named id, _, hv => Option.isSome_iff_exists.mp (hv id (List.mem_singleton.mpr rfl))

theorem exists_readFields : ∀ fields, Ty.WholeAll fields →
    (∀ id ∈ Ty.visitsAll store fields, (table id).isSome) →
    ∃ Ts, readFields store table fields = some Ts
  | [], _, _ => ⟨_, rfl⟩
  | (_, t) :: rest, hw, hv => by
    obtain ⟨T, hT⟩ := exists_readType t hw.1 fun id h => hv id (List.mem_append_left _ h)
    obtain ⟨Ts, hTs⟩ := exists_readFields rest hw.2 fun id h => hv id (List.mem_append_right _ h)
    exact ⟨T :: Ts, by rw [readFields, hT, hTs]; rfl⟩

end

end

/-! ## More depth changes no result -/

section
variable {α β : Type} {store : Store}

/-- The second step succeeds wherever the first does, in the same way. -/
def Refines (m m' : Lower α) : Prop := ∀ s a s', m s = .ok a s' → m' s = .ok a s'

namespace Refines

theorem refl (m : Lower α) : Refines m m := fun _ _ _ h => h

theorem bind' {m m' : Lower α} {f f' : α → Lower β} (hm : Refines m m')
    (hf : ∀ a, Refines (f a) (f' a)) : Refines (m >>= f) (m' >>= f') := by
  intro s b s' h
  obtain ⟨a, s₁, h₁, h₂⟩ := bind_eq_ok.mp h
  exact bind_eq_ok.mpr ⟨a, s₁, hm s a s₁ h₁, hf a s₁ b s' h₂⟩

theorem mapM' {f f' : α → Lower β} (hf : ∀ a, Refines (f a) (f' a)) :
    ∀ l : List α, Refines (l.mapM f) (l.mapM f')
  | [] => .refl _
  | a :: l => by
    simp only [List.mapM_cons]
    exact .bind' (hf a) fun _ => .bind' (mapM' hf l) fun _ => .refl _

end Refines

section
variable {named named' : NamedId → Lower Ir.Ty}

mutual

theorem refines_mapType (hn : ∀ id, Refines (named id) (named' id)) :
    ∀ t, Refines (mapType store named t) (mapType store named' t)
  | .missing => .refl _
  | .scalar _ => .refl _
  | .string => .refl _
  | .array t => .bind' (refines_mapType hn t) fun _ => .refl _
  | .pointer t => by
    unfold mapType
    split
    · exact .refl _
    · exact .bind' (refines_mapType hn t) fun _ => .refl _
  | .struct fields => .bind' (refines_mapFields hn fields) fun _ => .refl _
  | .func params result _ => by
    unfold mapType
    split
    · exact .bind' (.refl _) fun _ => .bind' (refines_mapFields hn params) fun _ => .refl _
    · exact .bind' (refines_mapType hn result) fun _ =>
        .bind' (refines_mapFields hn params) fun _ => .refl _
  | .named id => hn id

theorem refines_mapFields (hn : ∀ id, Refines (named id) (named' id)) :
    ∀ fields, Refines (mapFields store named fields) (mapFields store named' fields)
  | [] => .refl _
  | (_, t) :: rest =>
    .bind' (refines_mapType hn t) fun _ => .bind' (refines_mapFields hn rest) fun _ => .refl _

end

end

theorem refines_declaredType {map map' : Ty → Lower Ir.Ty} (hm : ∀ t, Refines (map t) (map' t))
    (id : NamedId) : Refines (declaredType store map id) (declaredType store map' id) := by
  intro s T s' h
  cases hk : s.known id with
  | some U =>
    rw [declaredType_known hk] at h ⊢
    exact h
  | none =>
    cases hf : store.structFields? (.named id) with
    | some fields =>
      obtain ⟨o, ts, s₁, ho, hrun, hT, hs'⟩ := (declaredType_struct_eq_ok hk hf).mp h
      have hrun' := Refines.mapM' (fun f : String × Ty => hm f.2) fields _ _ _ hrun
      exact (declaredType_struct_eq_ok hk hf).mpr ⟨o, ts, s₁, ho, hrun', hT, hs'⟩
    | none =>
      obtain ⟨s₁, hrun, hs'⟩ := (declaredType_plain_eq_ok hk hf).mp h
      exact (declaredType_plain_eq_ok hk hf).mpr ⟨s₁, hm _ _ _ _ hrun, hs'⟩

theorem refines_succ (depth : Nat) : ∀ t,
    Refines (instructionTypeWithin store depth t) (instructionTypeWithin store (depth + 1) t) := by
  induction depth with
  | zero => exact refines_mapType (refines_declaredType fun _ _ _ _ h => (breach_ne_ok.mp h).elim)
  | succ depth ih => exact refines_mapType (refines_declaredType ih)

theorem refines_of_le {d d' : Nat} (h : d ≤ d') (t : Ty) :
    Refines (instructionTypeWithin store d t) (instructionTypeWithin store d' t) := by
  induction h with
  | refl => exact .refl _
  | step _ ih => exact fun s T s' hT => refines_succ _ t s T s' (ih s T s' hT)

end

/-! ## Mapping ends -/

section
variable {α β : Type} {P : State → Prop}

/-- The step succeeds from every state with a property, which it keeps. -/
def Succeeds (P : State → Prop) (m : Lower α) : Prop :=
  ∀ s, P s → ∃ a s', m s = .ok a s' ∧ P s'

namespace Succeeds

theorem pure' (a : α) : Succeeds P (pure a) := fun s hs => ⟨a, s, rfl, hs⟩

theorem bind' {m : Lower α} {f : α → Lower β} (hm : Succeeds P m) (hf : ∀ a, Succeeds P (f a)) :
    Succeeds P (m >>= f) := by
  intro s hs
  obtain ⟨a, s₁, h₁, hs₁⟩ := hm s hs
  obtain ⟨b, s', h₂, hs'⟩ := hf a s₁ hs₁
  exact ⟨b, s', bind_eq_ok.mpr ⟨a, s₁, h₁, h₂⟩, hs'⟩

theorem mapM' {f : α → Lower β} : ∀ l : List α, (∀ a ∈ l, Succeeds P (f a)) →
    Succeeds P (l.mapM f)
  | [], _ => .pure' _
  | a :: l, hf => by
    simp only [List.mapM_cons]
    exact .bind' (hf a List.mem_cons_self) fun _ =>
      .bind' (mapM' l fun b hb => hf b (List.mem_cons_of_mem _ hb)) fun _ => .pure' _

end Succeeds

variable {store : Store} {named : NamedId → Lower Ir.Ty}

mutual

theorem succeeds_mapType : ∀ t : Ty, t.Whole → (∀ id ∈ t.visits store, Succeeds P (named id)) →
    Succeeds P (mapType store named t)
  | .missing, hw, _ => hw.elim
  | .scalar _, _, _ => .pure' _
  | .string, _, _ => .pure' _
  | .array t, hw, hn => .bind' (succeeds_mapType t hw hn) fun _ => .pure' _
  | .pointer t, hw, hn => by
    unfold mapType
    unfold Ty.visits at hn
    split
    · exact .pure' _
    · next hv =>
      rw [if_neg hv] at hn
      exact .bind' (succeeds_mapType t hw hn) fun _ => .pure' _
  | .struct fields, hw, hn => .bind' (succeeds_mapFields fields hw hn) fun _ => .pure' _
  | .func params result _, hw, hn => by
    have rest : ∀ r : Ir.Ty, Succeeds P (do
        let ps ← mapFields store named params
        pure (Ir.Ty.pointer (.func r ps))) := fun _ =>
      .bind' (succeeds_mapFields params hw.2 fun id h => hn id (List.mem_append_right _ h))
        fun _ => .pure' _
    unfold mapType
    split
    · exact .bind' (.pure' _) rest
    · next hm =>
      exact .bind' (succeeds_mapType result (hw.1 (by simpa using hm))
        fun id h => hn id (List.mem_append_left _ h)) rest
  | .named id, _, hn => hn id (List.mem_singleton.mpr rfl)

theorem succeeds_mapFields : ∀ fields, Ty.WholeAll fields →
    (∀ id ∈ Ty.visitsAll store fields, Succeeds P (named id)) →
    Succeeds P (mapFields store named fields)
  | [], _, _ => .pure' _
  | (_, t) :: rest, hw, hn =>
    .bind' (succeeds_mapType t hw.1 fun id h => hn id (List.mem_append_left _ h)) fun _ =>
      .bind' (succeeds_mapFields rest hw.2 fun id h => hn id (List.mem_append_right _ h))
        fun _ => .pure' _

end

end

end Lower

/-! ## The measure -/

section
variable {store : Store} {ts : List Ty} {id : NamedId}

open Classical in
/-- How many declared types a declared type comes to before a struct. -/
noncomputable def Store.rank (store : Store) (id : NamedId) : Nat :=
  ((Finset.range store.named.size).filter (ReflTransGen (store.Unfolds) id)).card

/-- The declared structs without a definition. -/
def unentered (store : Store) (s : State) : Finset NamedId :=
  (Finset.range store.named.size).filter fun id =>
    (store.structFields? (.named id)).isSome ∧ (s.known id).isNone

theorem Store.rank_le (store : Store) (id : NamedId) : store.rank id ≤ store.named.size := by
  classical
  calc store.rank id ≤ (Finset.range store.named.size).card := Finset.card_filter_le _ _
    _ = store.named.size := Finset.card_range _

theorem card_unentered_le (s : State) : (unentered store s).card ≤ store.named.size := by
  calc (unentered store s).card ≤ (Finset.range store.named.size).card :=
        Finset.card_filter_le _ _
    _ = store.named.size := Finset.card_range _

theorem lt_size_of_declared (h : (store.declaration id).isSome) : id < store.named.size := by
  unfold Store.declaration at h
  cases hn : store.named[id]? with
  | none => simp [hn] at h
  | some n => exact (Array.getElem?_eq_some_iff.mp hn).1

namespace Store.Grounded

theorem lt_size (hg : store.Grounded ts) (h : store.Reached ts id) : id < store.named.size :=
  lt_size_of_declared (hg.declared h)

theorem rank_pos (hg : store.Grounded ts) (h : store.Reached ts id) : 0 < store.rank id := by
  classical
  refine Finset.card_pos.mpr ⟨id, Finset.mem_filter.mpr ⟨?_, .refl⟩⟩
  exact Finset.mem_range.mpr (hg.lt_size h)

/-- Along declared types that are no structs the rank goes down. -/
theorem rank_lt (hg : store.Grounded ts) {id' : NamedId} (h : store.Reached ts id)
    (hu : store.Unfolds id id') : store.rank id' < store.rank id := by
  classical
  refine Finset.card_lt_card ((Finset.ssubset_iff_of_subset ?_).mpr ⟨id, ?_, ?_⟩)
  · intro x hx
    obtain ⟨hlt, hx⟩ := Finset.mem_filter.mp hx
    exact Finset.mem_filter.mpr ⟨hlt, .head hu hx⟩
  · exact Finset.mem_filter.mpr ⟨Finset.mem_range.mpr (hg.lt_size h), .refl⟩
  · intro hx
    exact hg.acyclic h (.head' hu (Finset.mem_filter.mp hx).2)

end Store.Grounded

/-- Entering a struct uses one up. -/
theorem card_unentered_enterType (hlt : id < store.named.size)
    (hf : (store.structFields? (.named id)).isSome) {s : State} (hk : s.known id = none)
    (name : String) :
    (unentered store (s.enterType id name)).card < (unentered store s).card := by
  refine Finset.card_lt_card ((Finset.ssubset_iff_of_subset ?_).mpr ⟨id, ?_, ?_⟩)
  · intro x hx
    simp only [unentered, Finset.mem_filter, State.enterType_known] at hx ⊢
    refine ⟨hx.1, hx.2.1, ?_⟩
    by_cases h : x = id
    · simp [h] at hx
    · simpa [h] using hx.2.2
  · simp [unentered, hlt, hf, hk]
  · simp [unentered]

/-- At most `u` structs are without a definition, and only certain types are mapped. -/
structure Bounded (store : Store) (P : NamedId → Prop) (u : Nat) (s : State) : Prop where
  left : (unentered store s).card ≤ u
  within : ∀ {id}, (s.known id).isSome → P id

variable {P : NamedId → Prop}

namespace Bounded

variable {s : State} {u : Nat}

theorem recordType (hb : Bounded store P u s) (hp : P id) (T : Ir.Ty) :
    Bounded store P u (s.recordType id T) := by
  constructor
  · refine le_trans (Finset.card_le_card fun x hx => ?_) hb.left
    simp only [unentered, Finset.mem_filter, State.recordType_known] at hx ⊢
    refine ⟨hx.1, hx.2.1, ?_⟩
    by_cases h : x = id
    · simp [h] at hx
    · simpa [h] using hx.2.2
  · intro x hx
    by_cases h : x = id
    · exact h ▸ hp
    · exact hb.within (by simpa [h] using hx)

theorem enterType (hb : Bounded store P u s) (hlt : id < store.named.size) (hp : P id)
    (hf : (store.structFields? (.named id)).isSome) (hk : s.known id = none) (name : String) :
    ∃ v, u = v + 1 ∧ Bounded store P v (s.enterType id name) := by
  have less := card_unentered_enterType hlt hf hk name
  have left := hb.left
  refine ⟨u - 1, by omega, by omega, fun {x} hx => ?_⟩
  by_cases h : x = id
  · exact h ▸ hp
  · exact hb.within (by simpa [h] using hx)

end Bounded

/-- One declared type is mapped within one level more than what it stands for needs: a struct uses
    up a definition, any other declared type goes down in rank. -/
theorem succeeds_declaredType (hg : store.Grounded ts)
    (hP : ∀ x, store.Reached ts x → P x) {map : Ty → Lower Ir.Ty} {depth : Nat}
    (hm : ∀ u t, t.Whole → (∀ x ∈ t.visits store, store.Reached ts x ∧
      u * (store.named.size + 1) + store.rank x ≤ depth) → Succeeds (Bounded store P u) (map t))
    {u : Nat} (hr : store.Reached ts id)
    (hd : u * (store.named.size + 1) + store.rank id ≤ depth + 1) :
    Succeeds (Bounded store P u) (declaredType store map id) := by
  intro s hs
  cases hk : s.known id with
  | some T => exact ⟨T, s, declaredType_known hk, hs⟩
  | none =>
    have whole := hg.known hr
    cases hf : store.structFields? (.named id) with
    | some fields =>
      obtain ⟨o, ho⟩ := Option.isSome_iff_exists.mp (hg.declared hr)
      obtain ⟨v, rfl, hv⟩ :=
        hs.enterType (hg.lt_size hr) (hP id hr) (by simp [hf]) hk (store.nameOf o)
      have hu := underlying_of_structFields hf
      rw [hu] at whole
      have each : ∀ f ∈ fields, Succeeds (Bounded store P v) (map f.2) := by
        intro f hfm
        refine hm v f.2 (Ty.whole_of_mem fields whole f hfm) fun x hx => ?_
        have hx' : x ∈ Ty.visitsAll store fields := Ty.mem_visitsAll fields f hfm hx
        refine ⟨.under hr (by rw [hu]; exact hx'), ?_⟩
        have := store.rank_le x
        rw [Nat.add_mul] at hd
        omega
      obtain ⟨Ts, s₁, hrun, hs₁⟩ := Succeeds.mapM' fields each _ hv
      exact ⟨_, _, (declaredType_struct_eq_ok hk hf).mpr ⟨o, Ts, s₁, ho, hrun, rfl, rfl⟩,
        Nat.le_succ_of_le hs₁.left, hs₁.within⟩
    | none =>
      have below : Succeeds (Bounded store P u) (map (store.underlying (.named id))) := by
        refine hm u _ whole fun x hx => ⟨.under hr hx, ?_⟩
        have := hg.rank_lt hr ⟨hf, hx⟩
        omega
      obtain ⟨T, s₁, hrun, hs₁⟩ := below s hs
      exact ⟨T, _, (declaredType_plain_eq_ok hk hf).mpr ⟨s₁, hrun, rfl⟩,
        hs₁.recordType (hP id hr) T⟩

theorem succeeds_instructionTypeWithin (hg : store.Grounded ts)
    (hP : ∀ x, store.Reached ts x → P x) (depth : Nat) :
    ∀ u t, t.Whole → (∀ x ∈ t.visits store, store.Reached ts x ∧
      u * (store.named.size + 1) + store.rank x ≤ depth) →
      Succeeds (Bounded store P u) (instructionTypeWithin store depth t) := by
  induction depth with
  | zero =>
    intro u t hw hv
    refine succeeds_mapType t hw fun x hx => ?_
    have := hg.rank_pos (hv x hx).1
    have := (hv x hx).2
    omega
  | succ depth ih =>
    intro u t hw hv
    exact succeeds_mapType t hw fun x hx => succeeds_declaredType hg hP ih (hv x hx).1 (hv x hx).2

theorem succeeds_instructionType (hg : store.Grounded ts) (hP : ∀ x, store.Reached ts x → P x)
    {t : Ty} (hw : t.Whole) (hv : ∀ x ∈ t.visits store, store.Reached ts x) :
    Succeeds (Bounded store P store.named.size)
      (instructionTypeWithin store (declaredDepth store) t) := by
  refine succeeds_instructionTypeWithin hg hP _ _ t hw fun x hx => ⟨hv x hx, ?_⟩
  have := store.rank_le x
  calc store.named.size * (store.named.size + 1) + store.rank x
      ≤ store.named.size * (store.named.size + 1) + (store.named.size + 1) := by omega
    _ = declaredDepth store := by rw [declaredDepth, Nat.add_mul, Nat.one_mul]

/-! ## Recursive types -/

/-- What is reached is mapped, once nothing is pending. -/
theorem Materialized.known_of_reached {s : State} (hs : Materialized store (fun _ => False) s)
    (hroot : ∀ t ∈ ts, ∃ T, readType store s.known t = some T) (hr : store.Reached ts id) :
    (s.known id).isSome := by
  induction hr with
  | root ht hid =>
    obtain ⟨T, hT⟩ := hroot _ ht
    exact isSome_of_readType _ T hT _ hid
  | @under id id' _ hid ih =>
    obtain ⟨T, hT⟩ := Option.isSome_iff_exists.mp ih
    cases hf : store.structFields? (.named id) with
    | none => exact isSome_of_readType _ T (hs.plain hT hf) _ hid
    | some fields =>
      obtain ⟨i, d, -, -, hread⟩ := hs.struct hT hf
      rw [underlying_of_structFields hf] at hid
      exact isSome_of_readFields fields _ (hread not_false) _ hid

theorem forall₂_of_mapM {α β : Type} {p : α → Option β} :
    ∀ (l : List α) (bs : List β), l.mapM p = some bs → List.Forall₂ (fun a b => p a = some b) l bs
  | [], bs, h => by
    obtain rfl : [] = bs := by simpa using h
    exact .nil
  | a :: l, bs, h => by
    rw [List.mapM_cons] at h
    obtain ⟨b, hb, hrest⟩ := Option.bind_eq_some_iff.mp h
    obtain ⟨bs', hbs, he⟩ := Option.bind_eq_some_iff.mp hrest
    obtain rfl : b :: bs' = bs := by simpa using he
    exact .cons hb (forall₂_of_mapM l bs' hbs)

theorem exists_of_forall₂ {α β : Type} {R : α → β → Prop} {l : List α} {l' : List β}
    (h : List.Forall₂ R l l') : ∀ a ∈ l, ∃ b, R a b := by
  induction h with
  | nil => simp
  | cons hab _ ih =>
    intro a ha
    rcases List.mem_cons.mp ha with rfl | ha
    · exact ⟨_, hab⟩
    · exact ih a ha

/-- Mapping a list of types whose cycles all go through declared structs ends, and no larger depth
    changes what it gives. Then every declared struct that is reached has exactly one type
    definition, there are no others, and its fields are the types of the struct's fields, in order.
    Mapping again what is reached gives the same types and changes nothing. -/
theorem instructionTypes_materialize {c : Context} (hg : c.analysis.store.Grounded ts) :
    ∃ Ts s, ts.mapM (instructionType c) { module := { triple := c.config.triple } } = .ok Ts s ∧
      (∀ depth, declaredDepth c.analysis.store ≤ depth →
        ts.mapM (instructionTypeWithin c.analysis.store depth)
          { module := { triple := c.config.triple } } = .ok Ts s) ∧
      (∀ id fields, c.analysis.store.Reached ts id →
        c.analysis.store.structFields? (.named id) = some fields →
        ∃ i d, instructionType c (.named id) s = .ok (.defined i d.name) s ∧
          s.module.types[i]? = some d ∧
          (fields.mapM fun f => instructionType c f.2) s = .ok d.fields s) ∧
      (∀ i < s.module.types.size, ∃! id, c.analysis.store.Reached ts id ∧
        (c.analysis.store.structFields? (.named id)).isSome ∧
        ∃ name, instructionType c (.named id) s = .ok (.defined i name) s) ∧
      List.Forall₂ (fun t T => instructionType c t s = .ok T s) ts Ts ∧
      ∀ t : Ty, t.Whole → (∀ id ∈ t.visits c.analysis.store, c.analysis.store.Reached ts id) →
        ∃ T, instructionType c t s = .ok T s := by
  set store := c.analysis.store with hstore
  set fresh : State := { module := { triple := c.config.triple } } with hfresh
  have roots : ∀ t ∈ ts,
      Succeeds (Bounded store (store.Reached ts) store.named.size) (instructionType c t) :=
    fun t ht => succeeds_instructionType hg (fun _ h => h) (hg.whole t ht) fun x hx => .root ht hx
  have unmapped : Bounded store (store.Reached ts) store.named.size fresh :=
    ⟨card_unentered_le fresh, fun h => by simp [hfresh, State.known] at h⟩
  obtain ⟨Ts, s, hrun, hb⟩ := Succeeds.mapM' ts roots fresh unmapped
  obtain ⟨hs, -, hread⟩ := Answers.mapM' lasts_readType
    (fun t => answers_instructionTypeWithin store (declaredDepth store) (fun _ => False) t) ts
    fresh Ts s (.start rfl rfl) hrun
  have each := forall₂_of_mapM ts Ts hread
  have again : ∀ {t T}, readType store s.known t = some T → instructionType c t s = .ok T s :=
    fun h => recalls_instructionTypeWithin store _ _ s _ h
  have known : ∀ {id}, store.Reached ts id → (s.known id).isSome := fun hr =>
    hs.known_of_reached (exists_of_forall₂ each) hr
  refine ⟨Ts, s, hrun, ?_, ?_, ?_, each.imp fun _ _ h => again h, ?_⟩
  · intro depth hd
    exact Refines.mapM' (refines_of_le hd) ts fresh Ts s hrun
  · intro id fields hr hf
    obtain ⟨T, hT⟩ := Option.isSome_iff_exists.mp (known hr)
    obtain ⟨i, d, rfl, hd, hfields⟩ := hs.struct hT hf
    refine ⟨i, d, again hT, hd, ?_⟩
    refine Recalls.mapM' (fun f : String × Ty => recalls_instructionTypeWithin store _ f.2) fields
      s d.fields ?_
    exact (readFields_eq_mapM s.known fields).symm.trans (hfields not_false)
  · intro i hi
    obtain ⟨id, name, hf, hk⟩ := hs.owner i hi
    refine ⟨id, ⟨hb.within (by simp [hk]), hf, name, again hk⟩, ?_⟩
    rintro y ⟨hr, hfy, name', hy⟩
    obtain ⟨T, hT⟩ := Option.isSome_iff_exists.mp (known hr)
    have hyT : instructionType c (.named y) s = .ok T s := again hT
    obtain rfl : T = .defined i name' := by simpa [hyT] using hy
    exact hs.single hfy hf hT hk
  · intro t hw hv
    obtain ⟨T, hT⟩ := exists_readType t hw fun id hid => known (hv id hid)
    exact ⟨T, again hT⟩

end

/-! ## A graph with cycles -/

/-- A list through a declared pointer, with trees that hold such a list and functions over it. -/
def linkedStore : Store where
  objects := #[
    { name := "node", type := .named 0, kind := .typeName },
    { name := "link", type := .named 1, kind := .typeName },
    { name := "tree", type := .named 2, kind := .typeName }]
  named := #[
    ⟨some 0, .struct [("next", .named 1), ("trees", .array (.named 2))]⟩,
    ⟨some 1, .pointer (.named 0)⟩,
    ⟨some 2, .struct [("left", .pointer (.named 2)),
      ("visit", .func [("of", .named 1)] .missing false), ("raw", .pointer (.scalar .void))]⟩]

theorem reached_linkedStore {id : NamedId}
    (h : linkedStore.Reached [.named 1, .array (.named 0)] id) : id = 0 ∨ id = 1 ∨ id = 2 := by
  induction h with
  | root ht hid =>
    rcases List.mem_cons.mp ht with rfl | ht
    · simp [Ty.visits] at hid
      simp [hid]
    · obtain rfl := List.mem_singleton.mp ht
      simp [Ty.visits] at hid
      simp [hid]
  | under _ hid ih =>
    rcases ih with rfl | rfl | rfl <;>
      simp [linkedStore, Store.underlying, Store.isVoid, Store.scalar?, Ty.visits, Ty.visitsAll,
        Scalar.isVoid] at hid
    · rcases hid with rfl | rfl <;> simp
    · simp [hid]
    · rcases hid with rfl | rfl <;> simp

/-- The declared pointer is the only one that is no struct. -/
theorem unfolds_linkedStore {a b : NamedId} (h : linkedStore.Unfolds a b) : a = 1 ∧ b = 0 := by
  obtain ⟨hf, hb⟩ := h
  match a with
  | 0 => cases hf
  | 1 => exact ⟨rfl, by simpa [linkedStore, Store.underlying, Store.isVoid, Store.scalar?,
      Ty.visits] using hb⟩
  | 2 => cases hf
  | n + 3 => simp [linkedStore, Store.underlying, Ty.visits] at hb

theorem grounded_linkedStore : linkedStore.Grounded [.named 1, .array (.named 0)] where
  whole := by simp [Ty.Whole]
  declared h := by
    rcases reached_linkedStore h with rfl | rfl | rfl <;> rfl
  known h := by
    rcases reached_linkedStore h with rfl | rfl | rfl <;>
      simp [linkedStore, Store.underlying, Ty.Whole, Ty.WholeAll, Ty.isMissing]
  acyclic := by
    intro id _ cycle
    obtain ⟨b, hb, -⟩ := TransGen.head'_iff.mp cycle
    obtain ⟨a, -, ha⟩ := TransGen.tail'_iff.mp cycle
    have one := (unfolds_linkedStore hb).1
    have zero := (unfolds_linkedStore ha).2
    exact absurd (one.symm.trans zero) (by decide)

/-- Lowering with the types of `linkedStore`. -/
def linkedContext : Context := ⟨⟨linkedStore, {}⟩, {}⟩

/-- The declared pointer of `linkedStore` is mapped through both structs, which get one definition
    each. -/
theorem linkedStore_materializes :
    linkedStore.Grounded [.named 1, .array (.named 0)] ∧
    ∃ Ts s, [Ty.named 1, .array (.named 0)].mapM
        (instructionType linkedContext) { module := {} } = .ok Ts s ∧
      ∀ i < s.module.types.size, ∃! id, linkedStore.Reached [.named 1, .array (.named 0)] id ∧
        (linkedStore.structFields? (.named id)).isSome ∧
        ∃ name, instructionType linkedContext (.named id) s =
          .ok (.defined i name) s := by
  obtain ⟨Ts, s, hrun, -, -, hone, -⟩ :=
    instructionTypes_materialize (c := linkedContext) grounded_linkedStore
  exact ⟨grounded_linkedStore, Ts, s, hrun, hone⟩

end TreeLowering
