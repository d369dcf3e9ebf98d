import TreeLowering.Proofs.Steady

/-!
The table of declared types that are mapped already. `readType` says which instruction type a source
type has in a table, without a state and without a bound on the depth. `Materialized` is what the
table and the type definitions of the module satisfy between two steps: a declared type that is no
struct is mapped like what it stands for, and declared structs and type definitions correspond one
to one. While the fields of a struct are being mapped it is pending, and nothing is said about the
fields of its definition yet.

Main statements: every mapping of a source type keeps that, only adds to the table and to the
definitions, and returns what the table then says (`answers_instructionType`); a type that the table
knows is returned at once, and nothing changes (`recalls_instructionType`).
-/
namespace TreeLowering

/-! ## References of instruction types -/

namespace Ir.Ty

mutual

/-- The references to type definitions in a type. -/
def refs : Ty → List (Nat × String)
  | .pointer t => refs t
  | .array _ t => refs t
  | .struct fields => refsAll fields
  | .func result params => refs result ++ refsAll params
  | .defined index name => [(index, name)]
  | _ => []

/-- The references in a list of types. -/
def refsAll : List Ty → List (Nat × String)
  | [] => []
  | t :: ts => refs t ++ refsAll ts

end

/-- Every reference in a type is to a definition with its index and name. -/
def Resolves (defs : Array TypeDef) (t : Ty) : Prop :=
  ∀ r ∈ t.refs, (defs[r.1]?).map TypeDef.name = some r.2

mutual

/-- A type without a reference to an unnamed definition stands for itself. -/
theorem expand_eq_self (unnamed : List Ty) :
    ∀ t : Ty, (∀ r ∈ t.refs, r.2 ≠ "") → t.expand unnamed = t
  | .int _, _ => rfl
  | .float _, _ => rfl
  | .void, _ => rfl
  | .pointer t, h => congrArg Ty.pointer (expand_eq_self unnamed t h)
  | .array n t, h => congrArg (Ty.array n) (expand_eq_self unnamed t h)
  | .struct fields, h => congrArg Ty.struct (expandAll_eq_self unnamed fields h)
  | .func result params, h => by
    have hr := expand_eq_self unnamed result fun r hr => h r (List.mem_append_left _ hr)
    have hp := expandAll_eq_self unnamed params fun r hr => h r (List.mem_append_right _ hr)
    rw [expand, hr, hp]
  | .defined index name, h => if_neg (h (index, name) (List.mem_singleton.mpr rfl))

theorem expandAll_eq_self (unnamed : List Ty) :
    ∀ ts : List Ty, (∀ r ∈ refsAll ts, r.2 ≠ "") → expandAll unnamed ts = ts
  | [], _ => rfl
  | t :: ts, h => by
    have ht := expand_eq_self unnamed t fun r hr => h r (List.mem_append_left _ hr)
    have hs := expandAll_eq_self unnamed ts fun r hr => h r (List.mem_append_right _ hr)
    rw [expandAll, ht, hs]

end

end Ir.Ty

namespace Lower

variable {α β : Type} {store : Store}

/-! ## Reading a table -/

/-- What is known of declared types. -/
abbrev Table := NamedId → Option Ir.Ty

/-- The second table knows all that the first one does. -/
def Table.Le (t t' : Table) : Prop := ∀ id T, t id = some T → t' id = some T

mutual

/-- The instruction type of a source type in a table. -/
def readType (store : Store) (table : Table) : Ty → Option Ir.Ty
  | .missing => none
  | .scalar k => some (scalarType k)
  | .string => some (arrayStruct (.int 8))
  | .array t => (readType store table t).bind fun elem => some (arrayStruct elem)
  | .pointer t =>
    if store.isVoid t then some Ir.Ty.bytePointer
    else (readType store table t).bind fun base => some (.pointer base)
  | .struct fields => (readFields store table fields).bind fun ts => some (.struct ts)
  | .func params result _ =>
    (if result.isMissing then some .void else readType store table result).bind fun r =>
      (readFields store table params).bind fun ps => some (.pointer (.func r ps))
  | .named id => table id

/-- The instruction types of fields or parameters in a table. -/
def readFields (store : Store) (table : Table) : List (String × Ty) → Option (List Ir.Ty)
  | [] => some []
  | (_, t) :: rest =>
    (readType store table t).bind fun first =>
      (readFields store table rest).bind fun others => some (first :: others)

end

/-- An answer that larger tables give too. -/
def Lasts (p : Table → Option α) : Prop :=
  ∀ (t t' : Table) (a : α), t.Le t' → p t = some a → p t' = some a

namespace Lasts

theorem const (o : Option α) : Lasts fun _ => o := fun _ _ _ _ h => h

theorem bind {p : Table → Option α} {q : α → Table → Option β} (hp : Lasts p)
    (hq : ∀ a, Lasts (q a)) : Lasts fun t => (p t).bind fun a => q a t := by
  intro t t' b hle h
  obtain ⟨a, ha, hb⟩ := Option.bind_eq_some_iff.mp h
  exact Option.bind_eq_some_iff.mpr ⟨a, hp t t' a hle ha, hq a t t' b hle hb⟩

theorem ite {c : Prop} [Decidable c] {p q : Table → Option α} (hp : Lasts p) (hq : Lasts q) :
    Lasts fun t => if c then p t else q t := by
  by_cases h : c
  · simpa only [if_pos h] using hp
  · simpa only [if_neg h] using hq

theorem mapM {p : α → Table → Option β} (hp : ∀ a, Lasts (p a)) :
    ∀ l : List α, Lasts fun t => l.mapM fun a => p a t
  | [] => .const _
  | a :: l => by
    simp only [List.mapM_cons]
    exact .bind (hp a) fun _ => .bind (mapM hp l) fun _ => .const _

end Lasts

mutual

theorem lasts_readType : ∀ t, Lasts fun table => readType store table t
  | .missing => .const _
  | .scalar _ => .const _
  | .string => .const _
  | .array t => .bind (lasts_readType t) fun _ => .const _
  | .pointer t => .ite (.const _) (.bind (lasts_readType t) fun _ => .const _)
  | .struct fields => .bind (lasts_readFields fields) fun _ => .const _
  | .func params result _ =>
    .bind (.ite (.const _) (lasts_readType result)) fun _ =>
      .bind (lasts_readFields params) fun _ => .const _
  | .named id => fun _ _ T hle h => hle id T h

theorem lasts_readFields : ∀ fields, Lasts fun table => readFields store table fields
  | [] => .const _
  | (_, t) :: rest =>
    .bind (lasts_readType t) fun _ => .bind (lasts_readFields rest) fun _ => .const _

end

section
variable {table : Table} {P : Nat × String → Prop}

mutual

/-- The references of a type that was read are those of the table. -/
theorem readType_refs (h : ∀ id T, table id = some T → ∀ r ∈ T.refs, P r) :
    ∀ t T, readType store table t = some T → ∀ r ∈ T.refs, P r
  | .missing, T, ht => by simp [readType] at ht
  | .scalar k, T, ht => by
    obtain rfl : scalarType k = T := by simpa [readType] using ht
    cases k <;> simp [scalarType, Ir.Ty.refs]
  | .string, T, ht => by
    obtain rfl : arrayStruct (.int 8) = T := by simpa [readType] using ht
    simp [arrayStruct, Ir.Ty.refs, Ir.Ty.refsAll]
  | .array t, T, ht => by
    obtain ⟨e, he, hT⟩ := Option.bind_eq_some_iff.mp ht
    obtain rfl : arrayStruct e = T := by simpa using hT
    simpa [arrayStruct, Ir.Ty.refs, Ir.Ty.refsAll] using readType_refs h t e he
  | .pointer t, T, ht => by
    unfold readType at ht
    split at ht
    · obtain rfl : Ir.Ty.bytePointer = T := by simpa using ht
      simp [Ir.Ty.bytePointer, Ir.Ty.refs]
    · obtain ⟨e, he, hT⟩ := Option.bind_eq_some_iff.mp ht
      obtain rfl : Ir.Ty.pointer e = T := by simpa using hT
      simpa [Ir.Ty.refs] using readType_refs h t e he
  | .struct fields, T, ht => by
    obtain ⟨ts, hts, hT⟩ := Option.bind_eq_some_iff.mp ht
    obtain rfl : Ir.Ty.struct ts = T := by simpa using hT
    simpa [Ir.Ty.refs] using readFields_refs h fields ts hts
  | .func params result _, T, ht => by
    obtain ⟨r, hr, hrest⟩ := Option.bind_eq_some_iff.mp ht
    obtain ⟨ps, hps, hT⟩ := Option.bind_eq_some_iff.mp hrest
    obtain rfl : Ir.Ty.pointer (.func r ps) = T := by simpa using hT
    have hparams := readFields_refs h params ps hps
    have hresult : ∀ x ∈ r.refs, P x := by
      split at hr
      · obtain rfl : Ir.Ty.void = r := by simpa using hr
        simp [Ir.Ty.refs]
      · exact readType_refs h result r hr
    intro x hx
    rcases List.mem_append.mp hx with hx | hx
    · exact hresult x hx
    · exact hparams x hx
  | .named id, T, ht => h id T ht

theorem readFields_refs (h : ∀ id T, table id = some T → ∀ r ∈ T.refs, P r) :
    ∀ fields Ts, readFields store table fields = some Ts → ∀ r ∈ Ir.Ty.refsAll Ts, P r
  | [], Ts, hf => by
    obtain rfl : [] = Ts := by simpa [readFields] using hf
    simp [Ir.Ty.refsAll]
  | (_, t) :: rest, Ts, hf => by
    obtain ⟨T, hT, hrest⟩ := Option.bind_eq_some_iff.mp hf
    obtain ⟨Us, hU, hTs⟩ := Option.bind_eq_some_iff.mp hrest
    obtain rfl : T :: Us = Ts := by simpa using hTs
    intro x hx
    rcases List.mem_append.mp hx with hx | hx
    · exact readType_refs h t T hT x hx
    · exact readFields_refs h rest Us hU x hx

end

end

/-- Fields are read one by one. -/
theorem readFields_eq_mapM (table : Table) (fields : List (String × Ty)) :
    readFields store table fields = fields.mapM fun f => readType store table f.2 := by
  induction fields with
  | nil => rfl
  | cons f rest ih => rw [List.mapM_cons, readFields, ih]; rfl

end Lower

open Lower

/-! ## The table of a state -/

/-- The first entry of an association list, and the others. -/
theorem lookup_cons_eq {α β : Type} [DecidableEq α] (k x : α) (v : β) (l : List (α × β)) :
    ((k, v) :: l).lookup x = if x = k then some v else l.lookup x := by
  by_cases h : x = k
  · rw [if_pos h, h, List.lookup_cons_self]
  · rw [if_neg h, List.lookup_cons, beq_false_of_ne h]

namespace State

/-- What a state knows of declared types. -/
def known (s : State) : Table := fun id => s.mapped.lookup id

/-- The name that a type definition gets. -/
def typeName (s : State) (name : String) : String := (uniqueName s.typeNames name).1

/-- The state after a declared struct got a definition without fields. -/
def enterType (s : State) (id : NamedId) (name : String) : State :=
  { s with
    typeNames := (uniqueName s.typeNames name).2
    module := { s.module with types := s.module.types.push { name := s.typeName name } }
    mapped := (id, .defined s.module.types.size (s.typeName name)) :: s.mapped }

/-- The state after the fields of a definition are set. -/
def setFields (s : State) (i : Nat) (fields : List Ir.Ty) : State :=
  { s with module := { s.module with
      types := s.module.types.modify i fun d => { d with fields } } }

/-- The state after the type of a declared type is remembered. -/
def recordType (s : State) (id : NamedId) (T : Ir.Ty) : State :=
  { s with mapped := (id, T) :: s.mapped }

section
variable (s : State) (id : NamedId)

@[simp] theorem recordType_known (T : Ir.Ty) (x : NamedId) :
    (s.recordType id T).known x = if x = id then some T else s.known x :=
  lookup_cons_eq id x T s.mapped

@[simp] theorem recordType_module (T : Ir.Ty) : (s.recordType id T).module = s.module := rfl

@[simp] theorem enterType_known (name : String) (x : NamedId) :
    (s.enterType id name).known x =
      if x = id then some (.defined s.module.types.size (s.typeName name)) else s.known x :=
  lookup_cons_eq id x _ s.mapped

@[simp] theorem enterType_types (name : String) :
    (s.enterType id name).module.types = s.module.types.push { name := s.typeName name } := rfl

@[simp] theorem setFields_known (i : Nat) (fields : List Ir.Ty) :
    (s.setFields i fields).known = s.known := rfl

@[simp] theorem setFields_types (i : Nat) (fields : List Ir.Ty) :
    (s.setFields i fields).module.types =
      s.module.types.modify i fun d => { d with fields } := rfl

end

end State

/-- The table and the definitions are only added to. -/
structure Grown (s s' : State) : Prop where
  known : s.known.Le s'.known
  types : ∀ (i : Nat) (d : Ir.TypeDef), s.module.types[i]? = some d → s'.module.types[i]? = some d

theorem Grown.of_eq {s s' : State} (hm : s'.mapped = s.mapped)
    (ht : s'.module.types = s.module.types) : Grown s s' := by
  constructor
  · intro id T h
    rwa [State.known, hm]
  · intro i d h
    rwa [ht]

/-- Setting the fields of a new definition leaves the old ones as they are. -/
theorem Grown.setFields {s s' : State} (h : Grown s s') {i : Nat} (hi : s.module.types.size ≤ i)
    (fields : List Ir.Ty) : Grown s (s'.setFields i fields) := by
  refine ⟨h.known, fun j d hj => ?_⟩
  have hlt : j < s.module.types.size := (Array.getElem?_eq_some_iff.mp hj).1
  rw [State.setFields_types, Array.getElem?_modify, if_neg (by omega)]
  exact h.types j d hj

instance : Lasting Grown where
  refl _ := ⟨fun _ _ h => h, fun _ _ h => h⟩
  trans h₁ h₂ := ⟨fun id T h => h₂.known id T (h₁.known id T h),
    fun i d h => h₂.types i d (h₁.types i d h)⟩

/-- The table and the type definitions agree with the declared types, but for the fields of the
    pending structs. -/
structure Materialized (store : Store) (pending : NamedId → Prop) (s : State) : Prop where
  plain : ∀ {id T}, s.known id = some T → store.structFields? (.named id) = none →
    readType store s.known (store.underlying (.named id)) = some T
  struct : ∀ {id T fields}, s.known id = some T → store.structFields? (.named id) = some fields →
    ∃ i d, T = .defined i d.name ∧ s.module.types[i]? = some d ∧
      (¬pending id → readFields store s.known fields = some d.fields)
  single : ∀ {id id' i name name'}, (store.structFields? (.named id)).isSome →
    (store.structFields? (.named id')).isSome → s.known id = some (.defined i name) →
    s.known id' = some (.defined i name') → id = id'
  owner : ∀ i < s.module.types.size, ∃ id name, (store.structFields? (.named id)).isSome ∧
    s.known id = some (.defined i name)
  refs : ∀ {id T}, s.known id = some T → T.Resolves s.module.types

namespace Materialized

variable {store : Store} {pending : NamedId → Prop} {s : State} {id : NamedId}

/-- Nothing is mapped at the start. -/
theorem start {s : State} (hm : s.mapped = []) (ht : s.module.types = #[]) :
    Materialized store pending s := by
  have none : ∀ x T, s.known x ≠ some T := by simp [State.known, hm]
  exact ⟨fun h => (none _ _ h).elim, fun h => (none _ _ h).elim,
    fun _ _ h => (none _ _ h).elim, by simp [ht], fun h => (none _ _ h).elim⟩

/-- The table and the definitions are all that counts. -/
theorem congr {s' : State} (h : Materialized store pending s) (hm : s'.mapped = s.mapped)
    (ht : s'.module.types = s.module.types) : Materialized store pending s' := by
  have hk : s'.known = s.known := by
    unfold State.known
    rw [hm]
  constructor
  · rw [hk]
    exact h.plain
  · rw [hk, ht]
    exact h.struct
  · rw [hk]
    exact h.single
  · rw [hk, ht]
    exact h.owner
  · rw [hk, ht]
    exact h.refs

/-- The index of a declared struct lies in the module. -/
theorem index_lt (hs : Materialized store pending s) {i : Nat} {name : String}
    (hk : s.known id = some (.defined i name)) : i < s.module.types.size := by
  have hr := hs.refs hk (i, name) (List.mem_singleton.mpr rfl)
  obtain ⟨d, hd, -⟩ := Option.map_eq_some_iff.mp hr
  exact (Array.getElem?_eq_some_iff.mp hd).1

theorem grown_enterType (hk : s.known id = none) (name : String) :
    Grown s (s.enterType id name) := by
  constructor
  · intro x T hx
    have hne : x ≠ id := by rintro rfl; simp [hk] at hx
    simpa [hne] using hx
  · intro i d hi
    obtain ⟨hlt, rfl⟩ := Array.getElem?_eq_some_iff.mp hi
    rw [State.enterType_types, Array.getElem?_push_lt hlt]

/-- A struct that gets its definition is pending. -/
theorem enterType (hs : Materialized store pending s) {fields : List (String × Ty)}
    (hk : s.known id = none) (hf : store.structFields? (.named id) = some fields) (name : String) :
    Materialized store (fun x => pending x ∨ x = id) (s.enterType id name) := by
  have grown := grown_enterType hk name
  -- what the new table knows: the new struct, or what was known
  have back : ∀ {x T}, (s.enterType id name).known x = some T →
      (x = id ∧ T = .defined s.module.types.size (s.typeName name)) ∨
        (x ≠ id ∧ s.known x = some T) := by
    intro x T hx
    by_cases h : x = id
    · exact .inl ⟨h, by simpa [h, eq_comm] using hx⟩
    · exact .inr ⟨h, by simpa [h] using hx⟩
  constructor
  · intro x T hx hp
    rcases back hx with ⟨rfl, -⟩ | ⟨-, hx⟩
    · simp [hf] at hp
    · exact lasts_readType _ _ _ _ grown.known (hs.plain hx hp)
  · intro x T fs hx hfs
    rcases back hx with ⟨rfl, rfl⟩ | ⟨hne, hx⟩
    · exact ⟨_, { name := s.typeName name }, rfl, by simp, fun h => (h (.inr rfl)).elim⟩
    · obtain ⟨i, d, hT, hd, hread⟩ := hs.struct hx hfs
      refine ⟨i, d, hT, grown.types i d hd, fun h => ?_⟩
      exact lasts_readFields _ _ _ _ grown.known (hread fun hp => h (.inl hp))
  · intro x y i n n' hx hy kx ky
    rcases back kx with ⟨rfl, hT⟩ | ⟨hnx, kx'⟩ <;> rcases back ky with ⟨rfl, hU⟩ | ⟨hny, ky'⟩
    · rfl
    · obtain ⟨rfl, -⟩ : i = s.module.types.size ∧ _ := by simpa using hT
      exact absurd (hs.index_lt ky') (Nat.lt_irrefl _)
    · obtain ⟨rfl, -⟩ : i = s.module.types.size ∧ _ := by simpa using hU
      exact absurd (hs.index_lt kx') (Nat.lt_irrefl _)
    · exact hs.single hx hy kx' ky'
  · intro i hi
    rw [State.enterType_types, Array.size_push] at hi
    rcases Nat.lt_succ_iff_lt_or_eq.mp hi with hi | rfl
    · obtain ⟨x, n, hx, kx⟩ := hs.owner i hi
      exact ⟨x, n, hx, grown.known x _ kx⟩
    · exact ⟨id, s.typeName name, by simp [hf], by simp⟩
  · intro x T hx r hr
    rcases back hx with ⟨rfl, rfl⟩ | ⟨-, hx⟩
    · obtain rfl := List.mem_singleton.mp hr
      simp
    · obtain ⟨d, hd, hn⟩ := Option.map_eq_some_iff.mp (hs.refs hx r hr)
      exact Option.map_eq_some_iff.mpr ⟨d, grown.types _ d hd, hn⟩

/-- A struct whose fields are set is pending no more. -/
theorem setFields {fields : List (String × Ty)} {i : Nat} {name : String} {ts : List Ir.Ty}
    (hs : Materialized store (fun x => pending x ∨ x = id) s)
    (hf : store.structFields? (.named id) = some fields)
    (hk : s.known id = some (.defined i name))
    (ht : readFields store s.known fields = some ts) :
    Materialized store pending (s.setFields i ts) := by
  have names : ∀ j : Nat, ((s.setFields i ts).module.types[j]?).map Ir.TypeDef.name =
      (s.module.types[j]?).map Ir.TypeDef.name := by
    intro j
    rw [State.setFields_types, Array.getElem?_modify]
    split <;> simp [Function.comp_def]
  refine ⟨hs.plain, ?_, hs.single, ?_, fun hx r hr => (names r.1).trans (hs.refs hx r hr)⟩
  · intro x T fs hx hfs
    obtain ⟨j, d, rfl, hd, hread⟩ := hs.struct hx hfs
    simp only [State.setFields_types, Array.getElem?_modify]
    by_cases hj : i = j
    · -- only the struct itself has this definition
      subst hj
      obtain rfl : x = id := hs.single (by simp [hfs]) (by simp [hf]) hx hk
      obtain rfl : fields = fs := by simpa [hf] using hfs
      exact ⟨i, { d with fields := ts }, rfl, by simp [hd], fun _ => ht⟩
    · refine ⟨j, d, rfl, by simp [hj, hd], fun hp => hread ?_⟩
      rintro (h | rfl)
      · exact hp h
      · rw [State.setFields_known] at hx
        simp [hk, hj] at hx
  · intro j hj
    exact hs.owner j (by simpa using hj)

/-- A type may have been mapped on the way, and then to the same type. -/
theorem grown_recordType {T : Ir.Ty} (h : ∀ U, s.known id = some U → T = U) :
    Grown s (s.recordType id T) := by
  refine ⟨fun x U hx => ?_, fun _ _ hd => hd⟩
  by_cases hid : x = id
  · subst hid
    simp [h U hx]
  · simpa [hid] using hx

/-- A declared type that is no struct is remembered as what it stands for. -/
theorem recordType (hs : Materialized store pending s) {T : Ir.Ty}
    (hf : store.structFields? (.named id) = none)
    (ht : readType store s.known (store.underlying (.named id)) = some T) :
    Materialized store pending (s.recordType id T) ∧ Grown s (s.recordType id T) := by
  have grown : Grown s (s.recordType id T) :=
    grown_recordType fun U hU => Option.some.inj (ht.symm.trans (hs.plain hU hf))
  have back : ∀ {x U}, (store.structFields? (.named x)).isSome →
      (s.recordType id T).known x = some U → s.known x = some U := by
    intro x U hx hk
    have hne : x ≠ id := by rintro rfl; simp [hf] at hx
    simpa [hne] using hk
  refine ⟨⟨?_, ?_, ?_, ?_, ?_⟩, grown⟩
  · intro x U hx hp
    refine lasts_readType _ _ _ _ grown.known ?_
    by_cases h : x = id
    · subst h
      obtain rfl : T = U := by simpa using hx
      exact ht
    · exact hs.plain (by simpa [h] using hx) hp
  · intro x U fs hx hfs
    obtain ⟨i, d, hU, hd, hread⟩ := hs.struct (back (by simp [hfs]) hx) hfs
    exact ⟨i, d, hU, hd, fun h => lasts_readFields _ _ _ _ grown.known (hread h)⟩
  · intro x y i n n' hx hy kx ky
    exact hs.single hx hy (back hx kx) (back hy ky)
  · intro i hi
    obtain ⟨x, n, hx, kx⟩ := hs.owner i hi
    exact ⟨x, n, hx, grown.known x _ kx⟩
  · intro x U hx
    by_cases h : x = id
    · subst h
      obtain rfl : T = U := by simpa using hx
      exact readType_refs (fun _ _ hy => hs.refs hy) _ _ ht
    · exact hs.refs (by simpa [h] using hx)

end Materialized

/-! ## Mapping -/

namespace Lower

variable {α β : Type} {store : Store} {map : Ty → Lower Ir.Ty} {id : NamedId} {s s' : State}
  {T : Ir.Ty}

theorem declaredType_known (hk : s.known id = some T) :
    declaredType store map id s = .ok T s := by
  have hk : s.mapped.lookup id = some T := hk
  simp only [declaredType, get_bind_apply, hk]
  rfl

theorem underlying_of_structFields {t : Ty} {fields : List (String × Ty)}
    (hf : store.structFields? t = some fields) : store.underlying t = .struct fields := by
  unfold Store.structFields? at hf
  split at hf
  · next h => rw [h, Option.some.inj hf]
  · cases hf

theorem declaredType_struct_eq_ok {fields : List (String × Ty)} (hk : s.known id = none)
    (hf : store.structFields? (.named id) = some fields) :
    declaredType store map id s = .ok T s' ↔
      ∃ o ts s₁, store.declaration id = some o ∧
        (fields.mapM fun f => map f.2) (s.enterType id (store.nameOf o)) = .ok ts s₁ ∧
        T = .defined s.module.types.size (s.typeName (store.nameOf o)) ∧
        s' = s₁.setFields s.module.types.size ts := by
  have hk : s.mapped.lookup id = none := hk
  simp only [declaredType, get_bind_apply, hk, underlying_of_structFields hf]
  cases hd : store.declaration id with
  | none => simp
  | some o =>
    show ((fields.mapM fun f => map f.2) >>= fun ts =>
        setFields (.defined s.module.types.size (s.typeName (store.nameOf o))) ts >>= fun _ =>
          pure (Ir.Ty.defined s.module.types.size (s.typeName (store.nameOf o))))
            (s.enterType id (store.nameOf o)) = _ ↔ _
    rw [bind_eq_ok]
    constructor
    · rintro ⟨ts, s₁, h₁, h₂⟩
      cases h₂
      exact ⟨o, ts, s₁, rfl, h₁, rfl, rfl⟩
    · rintro ⟨_, ts, s₁, ho, h₁, rfl, rfl⟩
      cases ho
      exact ⟨ts, s₁, h₁, rfl⟩

theorem declaredType_plain_eq_ok (hk : s.known id = none)
    (hf : store.structFields? (.named id) = none) :
    declaredType store map id s = .ok T s' ↔
      ∃ s₁, map (store.underlying (.named id)) s = .ok T s₁ ∧ s' = s₁.recordType id T := by
  have hk : s.mapped.lookup id = none := hk
  have mapped : ∀ below, (map below >>= fun t => remember id t >>= fun _ => pure t) s = .ok T s' ↔
      ∃ s₁, map below s = .ok T s₁ ∧ s' = s₁.recordType id T := by
    intro below
    rw [bind_eq_ok]
    constructor
    · rintro ⟨t, s₁, h₁, h₂⟩
      cases h₂
      exact ⟨s₁, h₁, rfl⟩
    · rintro ⟨s₁, h₁, rfl⟩
      exact ⟨T, s₁, h₁, rfl⟩
  simp only [declaredType, get_bind_apply, hk]
  cases hu : store.underlying (.named id) with
  | struct fields => simp [Store.structFields?, hu] at hf
  | _ => exact mapped _

/-- Every run keeps an invariant, only adds to the table and the definitions, and returns what the
    table then says. -/
def Answers (I : State → Prop) (m : Lower α) (p : Table → Option α) : Prop :=
  ∀ s a s', I s → m s = .ok a s' → I s' ∧ Grown s s' ∧ p s'.known = some a

namespace Answers

variable {I : State → Prop}

theorem pure' (a : α) : Answers I (pure a) fun _ => some a := by
  intro s b s' hs h
  obtain ⟨rfl, rfl⟩ := pure_eq_ok.mp h
  exact ⟨hs, Lasting.refl s, rfl⟩

theorem breach' (b : Breach) (p : Table → Option α) : Answers I (breach b) p :=
  fun _ _ _ _ h => (breach_ne_ok.mp h).elim

theorem bind' {m : Lower α} {f : α → Lower β} {p : Table → Option α} {q : α → Table → Option β}
    (hm : Answers I m p) (hp : Lasts p) (hf : ∀ a, Answers I (f a) (q a)) :
    Answers I (m >>= f) fun t => (p t).bind fun a => q a t := by
  intro s b s' hs h
  obtain ⟨a, s₁, h₁, h₂⟩ := bind_eq_ok.mp h
  obtain ⟨hs₁, g₁, e₁⟩ := hm s a s₁ hs h₁
  obtain ⟨hs', g₂, e₂⟩ := hf a s₁ b s' hs₁ h₂
  exact ⟨hs', Lasting.trans g₁ g₂, Option.bind_eq_some_iff.mpr ⟨a, hp _ _ _ g₂.known e₁, e₂⟩⟩

theorem mapM' {f : α → Lower β} {p : α → Table → Option β} (hp : ∀ a, Lasts (p a))
    (hf : ∀ a, Answers I (f a) (p a)) :
    ∀ l : List α, Answers I (l.mapM f) fun t => l.mapM fun a => p a t
  | [] => .pure' _
  | a :: l => by
    simp only [List.mapM_cons]
    exact .bind' (hf a) (hp a) fun _ => .bind' (mapM' hp hf l) (.mapM hp l) fun _ => .pure' _

end Answers

section
variable {I : State → Prop} {named : NamedId → Lower Ir.Ty}

mutual

theorem answers_mapType (hn : ∀ id, Answers I (named id) fun table => table id) :
    ∀ t, Answers I (mapType store named t) fun table => readType store table t
  | .missing => .breach' _ _
  | .scalar _ => .pure' _
  | .string => .pure' _
  | .array t => .bind' (answers_mapType hn t) (lasts_readType t) fun _ => .pure' _
  | .pointer t => by
    unfold mapType readType
    by_cases hv : store.isVoid t = true
    · simp only [if_pos hv]
      exact .pure' _
    · simp only [if_neg hv]
      exact .bind' (answers_mapType hn t) (lasts_readType t) fun _ => .pure' _
  | .struct fields =>
    .bind' (answers_mapFields hn fields) (lasts_readFields fields) fun _ => .pure' _
  | .func params result _ => by
    have rest : ∀ r : Ir.Ty, Answers I (do
        let ps ← mapFields store named params
        pure (Ir.Ty.pointer (.func r ps))) fun table =>
          (readFields store table params).bind fun ps => some (.pointer (.func r ps)) :=
      fun _ => .bind' (answers_mapFields hn params) (lasts_readFields params) fun _ => .pure' _
    unfold mapType readType
    by_cases hm : result.isMissing = true
    · simp only [if_pos hm]
      exact .bind' (.pure' _) (.const _) rest
    · simp only [if_neg hm]
      exact .bind' (answers_mapType hn result) (lasts_readType result) rest
  | .named id => hn id

theorem answers_mapFields (hn : ∀ id, Answers I (named id) fun table => table id) :
    ∀ fields, Answers I (mapFields store named fields)
      fun table => readFields store table fields
  | [] => .pure' _
  | (_, t) :: rest =>
    .bind' (answers_mapType hn t) (lasts_readType t) fun _ =>
      .bind' (answers_mapFields hn rest) (lasts_readFields rest) fun _ => .pure' _

end

end

/-- An invariant of the table and the definitions, given the pending structs: a struct is entered and
    pending until its fields are set, any other declared type is recorded once what it stands for is
    mapped. -/
structure Maintained (store : Store) (I : (NamedId → Prop) → State → Prop) : Prop where
  enterType : ∀ {pending s id fields}, I pending s → s.known id = none →
    store.structFields? (.named id) = some fields → ∀ name,
    I (fun x => pending x ∨ x = id) (s.enterType id name)
  setFields : ∀ {pending s id fields i name ts}, I (fun x => pending x ∨ x = id) s →
    store.structFields? (.named id) = some fields → s.known id = some (.defined i name) →
    readFields store s.known fields = some ts → I pending (s.setFields i ts)
  recordType : ∀ {pending s s₁ id T}, I pending s → s.known id = none → I pending s₁ →
    store.structFields? (.named id) = none →
    readType store s₁.known (store.underlying (.named id)) = some T →
    I pending (s₁.recordType id T) ∧ Grown s₁ (s₁.recordType id T)

theorem maintained_materialized : Maintained store (Materialized store) where
  enterType hs hk hf name := hs.enterType hk hf name
  setFields hs hf hk ht := hs.setFields hf hk ht
  recordType _ _ hs₁ hf ht := hs₁.recordType hf ht

namespace Maintained

variable {I : (NamedId → Prop) → State → Prop} (M : Maintained store I)

include M

/-- The knot of a recursive struct: it is entered, its fields are mapped while it is pending, and
    then its definition gets them. -/
theorem declaredType
    (hm : ∀ pending t, Answers (I pending) (map t) fun table => readType store table t)
    (pending : NamedId → Prop) (id : NamedId) :
    Answers (I pending) (declaredType store map id) fun table => table id := by
  intro s T s' hs h
  cases hk : s.known id with
  | some U =>
    rw [declaredType_known hk] at h
    cases h
    exact ⟨hs, Lasting.refl s, hk⟩
  | none =>
    cases hf : store.structFields? (.named id) with
    | some fields =>
      obtain ⟨o, ts, s₁, -, hrun, rfl, rfl⟩ := (declaredType_struct_eq_ok hk hf).mp h
      have entered := M.enterType hs hk hf (store.nameOf o)
      obtain ⟨hs₁, g, ht⟩ := Answers.mapM' (fun f => lasts_readType f.2) (fun f => hm _ f.2) fields
        _ _ _ entered hrun
      have ht := (readFields_eq_mapM s₁.known fields).trans ht
      have hid : s₁.known id = some (.defined s.module.types.size (s.typeName (store.nameOf o))) :=
        g.known id _ (by simp)
      have grown : Grown s s₁ := Lasting.trans (Materialized.grown_enterType hk _) g
      exact ⟨M.setFields hs₁ hf hid ht, grown.setFields (Nat.le_refl _) ts, hid⟩
    | none =>
      obtain ⟨s₁, hrun, rfl⟩ := (declaredType_plain_eq_ok hk hf).mp h
      obtain ⟨hs₁, g₁, ht⟩ := hm pending _ s T s₁ hs hrun
      obtain ⟨hs', g₂⟩ := M.recordType hs hk hs₁ hf ht
      exact ⟨hs', Lasting.trans g₁ g₂, by simp⟩

theorem instructionTypeWithin (depth : Nat) :
    ∀ pending t, Answers (I pending) (instructionTypeWithin store depth t)
      fun table => readType store table t := by
  induction depth with
  | zero =>
    intro pending
    exact answers_mapType (M.declaredType (fun _ _ => .breach' _ _) pending)
  | succ depth ih =>
    intro pending
    exact answers_mapType (M.declaredType ih pending)

end Maintained

theorem answers_instructionTypeWithin (store : Store) (depth : Nat) :
    ∀ pending t, Answers (Materialized store pending) (instructionTypeWithin store depth t)
      fun table => readType store table t :=
  maintained_materialized.instructionTypeWithin depth

/-- What a table knows is returned at once, and nothing changes. -/
def Recalls (m : Lower α) (p : Table → Option α) : Prop :=
  ∀ s a, p s.known = some a → m s = .ok a s

namespace Recalls

theorem pure' (a : α) : Recalls (pure a) fun _ => some a := by
  intro s b h
  cases h
  rfl

theorem bind' {m : Lower α} {f : α → Lower β} {p : Table → Option α} {q : α → Table → Option β}
    (hm : Recalls m p) (hf : ∀ a, Recalls (f a) (q a)) :
    Recalls (m >>= f) fun t => (p t).bind fun a => q a t := by
  intro s b h
  obtain ⟨a, ha, hb⟩ := Option.bind_eq_some_iff.mp h
  exact bind_eq_ok.mpr ⟨a, s, hm s a ha, hf a s b hb⟩

theorem mapM' {f : α → Lower β} {p : α → Table → Option β} (hf : ∀ a, Recalls (f a) (p a)) :
    ∀ l : List α, Recalls (l.mapM f) fun t => l.mapM fun a => p a t
  | [] => .pure' _
  | a :: l => by
    simp only [List.mapM_cons]
    exact .bind' (hf a) fun _ => .bind' (mapM' hf l) fun _ => .pure' _

end Recalls

section
variable {named : NamedId → Lower Ir.Ty}

mutual

theorem recalls_mapType (hn : ∀ id, Recalls (named id) fun table => table id) :
    ∀ t, Recalls (mapType store named t) fun table => readType store table t
  | .missing => fun _ _ h => by simp [readType] at h
  | .scalar _ => .pure' _
  | .string => .pure' _
  | .array t => .bind' (recalls_mapType hn t) fun _ => .pure' _
  | .pointer t => by
    unfold mapType readType
    by_cases hv : store.isVoid t = true
    · simp only [if_pos hv]
      exact .pure' _
    · simp only [if_neg hv]
      exact .bind' (recalls_mapType hn t) fun _ => .pure' _
  | .struct fields => .bind' (recalls_mapFields hn fields) fun _ => .pure' _
  | .func params result _ => by
    have rest : ∀ r : Ir.Ty, Recalls (do
        let ps ← mapFields store named params
        pure (Ir.Ty.pointer (.func r ps))) fun table =>
          (readFields store table params).bind fun ps => some (.pointer (.func r ps)) :=
      fun _ => .bind' (recalls_mapFields hn params) fun _ => .pure' _
    unfold mapType readType
    by_cases hm : result.isMissing = true
    · simp only [if_pos hm]
      exact .bind' (.pure' _) rest
    · simp only [if_neg hm]
      exact .bind' (recalls_mapType hn result) rest
  | .named id => hn id

theorem recalls_mapFields (hn : ∀ id, Recalls (named id) fun table => table id) :
    ∀ fields, Recalls (mapFields store named fields) fun table => readFields store table fields
  | [] => .pure' _
  | (_, t) :: rest =>
    .bind' (recalls_mapType hn t) fun _ => .bind' (recalls_mapFields hn rest) fun _ => .pure' _

end

end

theorem recalls_instructionTypeWithin (store : Store) (depth : Nat) (t : Ty) :
    Recalls (instructionTypeWithin store depth t) fun table => readType store table t := by
  cases depth with
  | zero => exact recalls_mapType (fun _ _ _ h => declaredType_known h) t
  | succ depth => exact recalls_mapType (fun _ _ _ h => declaredType_known h) t

end Lower

end TreeLowering
