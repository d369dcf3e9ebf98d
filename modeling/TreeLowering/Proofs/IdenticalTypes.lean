import TreeLowering.Proofs.Materialization
import TreeLowering.Proofs.Symbols

/-!
Identical types have one instruction type. Identity stops at declared types and skips the names of
parameters and the activity of functions; mapping goes through the table of declared types, which a
state may have filled in any way. The two meet because mapping a type looks at no more of it than
identity does (`mapType_identical`), and because the answer of one mapping is read back by the next
(`answers_since`).

Main statement: `instructionType_identical`.
-/
namespace TreeLowering

open Lower

/-! ## Declared types by their type names -/

namespace Ty

mutual

/-- The declared types that a type mentions. -/
def mentions : Ty → List NamedId
  | .array t => mentions t
  | .pointer t => mentions t
  | .struct fields => mentionsAll fields
  | .func params result _ => mentions result ++ mentionsAll params
  | .named id => [id]
  | _ => []

/-- The declared types that fields or parameters mention. -/
def mentionsAll : List (String × Ty) → List NamedId
  | [] => []
  | (_, t) :: rest => mentions t ++ mentionsAll rest

end

end Ty

namespace Store

variable {store : Store}

/-- A declared type has a type name, whose type it is. -/
def Declares (store : Store) (id : NamedId) : Prop :=
  ∃ o obj, store.declaration id = some o ∧ store.objects[o]? = some obj ∧ obj.type = .named id

theorem Declares.eq_of_declaration {a b : NamedId} (ha : store.Declares a) (hb : store.Declares b)
    (h : store.declaration a = store.declaration b) : a = b := by
  obtain ⟨o, obj, hdecl, hobj, htype⟩ := ha
  obtain ⟨o', obj', hdecl', hobj', htype'⟩ := hb
  obtain rfl : o = o' := by simpa [hdecl, hdecl'] using h
  obtain rfl : obj = obj' := by simpa [hobj] using hobj'
  simpa [htype] using htype'

theorem isMissing_of_identical {x y : Ty} (h : store.identical x y = true) :
    x.isMissing = y.isMissing := by
  cases x <;> cases y <;> simp_all [identical, Ty.identical, Ty.isMissing]

/-- A declared type is `void` like any other that is identical to it. -/
theorem isVoid_of_identical {x y : Ty} (hx : ∀ id ∈ x.mentions, store.Declares id)
    (hy : ∀ id ∈ y.mentions, store.Declares id) (h : store.identical x y = true) :
    store.isVoid x = store.isVoid y := by
  cases x <;> cases y <;>
    simp_all [identical, Ty.identical, Ty.isMissing, isVoid, scalar?, underlying]
  case named.named a b =>
    obtain rfl : a = b :=
      (hx a (by simp [Ty.mentions])).eq_of_declaration (hy b (by simp [Ty.mentions])) h
    rfl

end Store

/-! ## Mapping looks at what identity compares -/

namespace Lower

variable {store : Store} {named : NamedId → Lower Ir.Ty}

theorem identicalParams_of_identicalFields {declaration : NamedId → Option Nat} :
    ∀ xs ys, Ty.identicalFields declaration xs ys = true →
      Ty.identicalParams declaration xs ys = true
  | [], _, h => h
  | (_, _) :: _, [], h => by simp [Ty.identicalFields] at h
  | (_, t) :: xs, (_, t') :: ys, h => by
    simp only [Ty.identicalFields, Bool.and_eq_true] at h
    simp only [Ty.identicalParams, Bool.and_eq_true]
    exact ⟨h.1.2, identicalParams_of_identicalFields xs ys h.2⟩

mutual

/-- Identical types are mapped by the same steps. -/
theorem mapType_identical : ∀ x y : Ty, (∀ id ∈ x.mentions, store.Declares id) →
    (∀ id ∈ y.mentions, store.Declares id) → store.identical x y = true →
    mapType store named x = mapType store named y
  | .missing, y, _, _, h => by
    cases y with
    | missing => rfl
    | _ => simp [Store.identical, Ty.identical, Ty.isMissing] at h
  | .scalar k, y, _, _, h => by
    cases y with
    | scalar k' =>
      obtain rfl : k = k' := by simpa [Store.identical, Ty.identical] using h
      rfl
    | _ => simp [Store.identical, Ty.identical] at h
  | .string, y, _, _, h => by
    cases y with
    | string => rfl
    | array t =>
      -- the string type is an array of `i8`
      obtain rfl : t = .scalar .i8 := by
        cases t with
        | scalar k => cases k <;> simp_all [Store.identical, Ty.identical]
        | _ => simp [Store.identical, Ty.identical] at h
      rfl
    | _ => simp [Store.identical, Ty.identical] at h
  | .array t, y, hx, hy, h => by
    cases y with
    | array t' =>
      have ht := mapType_identical t t' hx hy (by simpa [Store.identical, Ty.identical] using h)
      rw [mapType, mapType, ht]
    | string =>
      have ht := mapType_identical t (.scalar .i8) hx (by simp [Ty.mentions])
        (by simpa [Store.identical, Ty.identical] using h)
      show (mapType store named t >>= fun elem => pure (arrayStruct elem)) = _
      rw [ht]
      rfl
    | _ => simp [Store.identical, Ty.identical] at h
  | .pointer t, y, hx, hy, h => by
    cases y with
    | pointer t' =>
      have ht' : store.identical t t' = true := by simpa [Store.identical, Ty.identical] using h
      have ht := mapType_identical t t' hx hy ht'
      have hv : store.isVoid t = store.isVoid t' := Store.isVoid_of_identical hx hy ht'
      rw [mapType, mapType, ht, hv]
    | _ => simp [Store.identical, Ty.identical] at h
  | .struct fields, y, hx, hy, h => by
    cases y with
    | struct fields' =>
      have hf := mapFields_identical fields fields' hx hy
        (identicalParams_of_identicalFields _ _ (by simpa [Store.identical, Ty.identical] using h))
      rw [mapType, mapType, hf]
    | _ => simp [Store.identical, Ty.identical] at h
  | .func params result _, y, hx, hy, h => by
    cases y with
    | func params' result' _ =>
      obtain ⟨hp, hr⟩ : Ty.identicalParams store.declaration params params' = true ∧
          store.identical result result' = true := by
        simpa [Store.identical, Ty.identical] using h
      have hps := mapFields_identical params params'
        (fun id hid => hx id (List.mem_append_right _ hid))
        (fun id hid => hy id (List.mem_append_right _ hid)) hp
      have hres := mapType_identical result result'
        (fun id hid => hx id (List.mem_append_left _ hid))
        (fun id hid => hy id (List.mem_append_left _ hid)) hr
      rw [mapType, mapType, hps, hres, Store.isMissing_of_identical hr]
    | _ => simp [Store.identical, Ty.identical] at h
  | .named a, y, hx, hy, h => by
    cases y with
    | named b =>
      obtain rfl : a = b :=
        (hx a (by simp [Ty.mentions])).eq_of_declaration (hy b (by simp [Ty.mentions]))
          (by simpa [Store.identical, Ty.identical] using h)
      rfl
    | _ => simp [Store.identical, Ty.identical] at h

theorem mapFields_identical : ∀ xs ys : List (String × Ty),
    (∀ id ∈ Ty.mentionsAll xs, store.Declares id) → (∀ id ∈ Ty.mentionsAll ys, store.Declares id) →
    Ty.identicalParams store.declaration xs ys = true →
    mapFields store named xs = mapFields store named ys
  | [], ys, _, _, h => by
    obtain rfl : ys = [] := by simpa [Ty.identicalParams] using h
    rfl
  | (_, _) :: _, [], _, _, h => by simp [Ty.identicalParams] at h
  | (_, t) :: xs, (_, t') :: ys, hx, hy, h => by
    simp only [Ty.identicalParams, Bool.and_eq_true] at h
    have ht := mapType_identical t t' (fun id hid => hx id (List.mem_append_left _ hid))
      (fun id hid => hy id (List.mem_append_left _ hid)) h.1
    have hrest := mapFields_identical xs ys (fun id hid => hx id (List.mem_append_right _ hid))
      (fun id hid => hy id (List.mem_append_right _ hid)) h.2
    rw [mapFields, mapFields, ht, hrest]

end

end Lower

/-! ## What was mapped is read back from any table -/

/-- The table holds all that `base` does, and what was added since is in order: a declared type that
    is no struct is mapped like what it stands for. -/
structure Since (store : Store) (base : Table) (s : State) : Prop where
  kept : base.Le s.known
  plain : ∀ {id T}, base id = none → s.known id = some T →
    store.structFields? (.named id) = none →
    readType store s.known (store.underlying (.named id)) = some T

namespace Since

variable {store : Store} {base : Table} {s : State} {id : NamedId}

theorem start (s : State) : Since store s.known s :=
  ⟨fun _ _ h => h, fun hb hk => by simp [hb] at hk⟩

theorem unmapped (hs : Since store base s) (hk : s.known id = none) : base id = none := by
  cases hb : base id with
  | none => rfl
  | some T => simpa [hk] using hs.kept id T hb

theorem enterType (hs : Since store base s) (hk : s.known id = none)
    (hf : (store.structFields? (.named id)).isSome) (name : String) :
    Since store base (s.enterType id name) := by
  have grown := Materialized.grown_enterType hk name
  refine ⟨fun x T hx => grown.known x T (hs.kept x T hx), fun {x T} hb hx hp => ?_⟩
  have hne : x ≠ id := by
    intro h
    simp [h ▸ hp] at hf
  exact lasts_readType _ _ _ _ grown.known (hs.plain hb (by simpa [hne] using hx) hp)

theorem recordType (hs : Since store base s) {T : Ir.Ty} (hb : base id = none)
    (hf : store.structFields? (.named id) = none)
    (ht : readType store s.known (store.underlying (.named id)) = some T) :
    Since store base (s.recordType id T) ∧ Grown s (s.recordType id T) := by
  have grown : Grown s (s.recordType id T) :=
    Materialized.grown_recordType fun U hU => Option.some.inj (ht.symm.trans (hs.plain hb hU hf))
  refine ⟨⟨fun x U hx => grown.known x U (hs.kept x U hx), fun {x U} hbx hx hp => ?_⟩, grown⟩
  refine lasts_readType _ _ _ _ grown.known ?_
  by_cases h : x = id
  · subst h
    obtain rfl : T = U := by simpa using hx
    exact ht
  · exact hs.plain hbx (by simpa [h] using hx) hp

theorem maintained (store : Store) (base : Table) :
    Maintained store fun _ => Since store base where
  enterType hs hk hf name := hs.enterType hk (by simp [hf]) name
  setFields hs _ _ _ := ⟨hs.kept, hs.plain⟩
  recordType hs hk hs₁ hf ht := hs₁.recordType (hs.unmapped hk) hf ht

end Since

namespace Lower

variable {store : Store}

/-- Whatever the table held before, a mapping returns what it holds after. -/
theorem answers_since (store : Store) (base : Table) (depth : Nat) (t : Ty) :
    Answers (Since store base) (instructionTypeWithin store depth t)
      fun table => readType store table t :=
  (Since.maintained store base).instructionTypeWithin depth (fun _ => False) t

theorem instructionTypeWithin_identical (depth : Nat) {x y : Ty}
    (hx : ∀ id ∈ x.mentions, store.Declares id) (hy : ∀ id ∈ y.mentions, store.Declares id)
    (h : store.identical x y = true) :
    instructionTypeWithin store depth x = instructionTypeWithin store depth y := by
  cases depth with
  | zero => exact mapType_identical x y hx hy h
  | succ depth => exact mapType_identical x y hx hy h

end Lower

/-! ## Identical types -/

/-- Two identical types have the same instruction type, whatever was mapped before. Mapping the
    first ends if all cycles of its graph go through declared structs; and whenever it ends, mapping
    the second then gives the same type, and adds nothing. -/
theorem instructionType_identical {c : Context} {x y : Ty}
    (hx : ∀ id ∈ x.mentions, c.analysis.store.Declares id)
    (hy : ∀ id ∈ y.mentions, c.analysis.store.Declares id)
    (h : c.analysis.store.identical x y = true) (s : State) :
    (c.analysis.store.Grounded [x] → ∃ T s₁, instructionType c x s = .ok T s₁) ∧
      ∀ T s₁, instructionType c x s = .ok T s₁ →
        ∃ U, instructionType c y s₁ = .ok U s₁ ∧ Ir.sameType s₁.module.types T U = true := by
  constructor
  · intro hg
    have ends := succeeds_instructionType (P := fun _ => True) hg (fun _ _ => trivial)
      (hg.whole x (List.mem_singleton.mpr rfl)) fun id hid => .root (List.mem_singleton.mpr rfl) hid
    obtain ⟨T, s₁, hrun, -⟩ := ends s ⟨card_unentered_le s, fun _ => trivial⟩
    exact ⟨T, s₁, hrun⟩
  · intro T s₁ hrun
    obtain ⟨-, -, hread⟩ := answers_since _ s.known _ x s T s₁ (.start s) hrun
    have again := recalls_instructionTypeWithin _ (declaredDepth c.analysis.store) x s₁ T hread
    rw [instructionTypeWithin_identical _ hx hy h] at again
    exact ⟨T, again, Ir.sameType_refl _ T⟩

/-- What only comes to types of a graph forms such a graph again. -/
theorem Store.Grounded.of_reached {store : Store} {ts us : List Ty} (hg : store.Grounded ts)
    (hw : ∀ u ∈ us, u.Whole) (hv : ∀ u ∈ us, ∀ id ∈ u.visits store, store.Reached ts id) :
    store.Grounded us := by
  have within : ∀ {id}, store.Reached us id → store.Reached ts id := by
    intro id hr
    induction hr with
    | root hu hid => exact hv _ hu _ hid
    | under _ hid ih => exact .under ih hid
  exact ⟨hw, fun h => hg.declared (within h), fun h => hg.known (within h),
    fun h => hg.acyclic (within h)⟩

/-- A function over the lists of `linkedStore`, a text and a raw pointer. -/
def linkedCallback (list text raw : String) (t : Ty) (inactive : Bool) : Ty :=
  .func [(list, .named 1), (text, t), (raw, .pointer (.scalar .void))] .missing inactive

theorem declares_linkedCallback {list text raw : String} {t : Ty} {inactive : Bool}
    (ht : t.mentions = []) :
    ∀ id ∈ (linkedCallback list text raw t inactive).mentions, linkedStore.Declares id := by
  intro id hid
  obtain rfl : id = 1 := by simpa [linkedCallback, Ty.mentions, Ty.mentionsAll, ht] using hid
  exact ⟨1, _, rfl, rfl, rfl⟩

/-- Other names of parameters, the string type by another name and another activity: the function
    has the same type, here where trees were mapped before but lists were not. -/
theorem linkedCallback_identical :
    ∃ T s₁, instructionType linkedContext (linkedCallback "of" "text" "raw" .string false)
        { mapped := [(2, .defined 0 "tree")], module := { types := #[{ name := "tree" }] } } =
          .ok T s₁ ∧
      ∃ U, instructionType linkedContext
          (linkedCallback "list" "" "raw" (.array (.scalar .i8)) true) s₁ = .ok U s₁ ∧
        Ir.sameType s₁.module.types T U = true := by
  have grounded : linkedStore.Grounded [linkedCallback "of" "text" "raw" .string false] := by
    refine grounded_linkedStore.of_reached ?_ ?_
    · simp [linkedCallback, Ty.Whole, Ty.WholeAll, Ty.isMissing]
    · intro u hu id hid
      obtain rfl := List.mem_singleton.mp hu
      obtain rfl : id = 1 := by
        simpa [linkedCallback, Ty.visits, Ty.visitsAll, Store.isVoid, Store.scalar?,
          Store.underlying, Scalar.isVoid] using hid
      exact .root List.mem_cons_self (List.mem_singleton.mpr rfl)
  obtain ⟨ends, agrees⟩ := instructionType_identical (c := linkedContext)
    (x := linkedCallback "of" "text" "raw" .string false)
    (y := linkedCallback "list" "" "raw" (.array (.scalar .i8)) true)
    (declares_linkedCallback rfl) (declares_linkedCallback rfl) (by decide)
    { mapped := [(2, .defined 0 "tree")], module := { types := #[{ name := "tree" }] } }
  obtain ⟨T, s₁, hrun⟩ := ends grounded
  exact ⟨T, s₁, hrun, agrees T s₁ hrun⟩

end TreeLowering
