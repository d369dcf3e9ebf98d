import TreeLowering.Proofs.TypeClasses

/-!
Pointers to `void`. LLVM has none, so a source pointer whose base is `void` is mapped to a pointer
to bytes. The elements of an array get no such care, and a base counts as `void` only through one
name. So a pointer to `void` occurs in an instruction type just if its source type has an array of
`void`, or a pointer to a name for a name for it (`Store.ExposesVoid`): in every state of a run, for
the type that a mapping returns and for the type definitions of the module
(`void_pointers_exposed`).
-/
namespace TreeLowering

open Lower

/-! ## Instruction types -/

namespace Ir.Ty

/-- A type is another one or occurs in a part of it. The fields of a type definition are no parts of
    the references to it. -/
inductive OccursIn (u : Ty) : Ty → Prop where
  | self : OccursIn u u
  | pointee {t : Ty} : OccursIn u t → OccursIn u (.pointer t)
  | element {n : Nat} {t : Ty} : OccursIn u t → OccursIn u (.array n t)
  | field {t : Ty} {fields : List Ty} : t ∈ fields → OccursIn u t → OccursIn u (.struct fields)
  | result {r : Ty} {params : List Ty} : OccursIn u r → OccursIn u (.func r params)
  | param {r t : Ty} {params : List Ty} : t ∈ params → OccursIn u t → OccursIn u (.func r params)

/-- Some pointer in a type has `void` as its pointee. -/
def PointsToVoid (T : Ty) : Prop := OccursIn (.pointer .void) T

variable {T r : Ty} {ts : List Ty}

theorem pointsToVoid_pointer : (Ty.pointer T).PointsToVoid ↔ T = .void ∨ T.PointsToVoid := by
  constructor
  · intro h
    cases h with
    | self => exact .inl rfl
    | pointee h => exact .inr h
  · rintro (rfl | h)
    · exact .self
    · exact .pointee h

theorem pointsToVoid_struct : (Ty.struct ts).PointsToVoid ↔ ∃ T ∈ ts, T.PointsToVoid := by
  constructor
  · intro h
    cases h with
    | field hT h => exact ⟨_, hT, h⟩
  · rintro ⟨T, hT, h⟩
    exact .field hT h

theorem pointsToVoid_func :
    (Ty.func r ts).PointsToVoid ↔ r.PointsToVoid ∨ ∃ T ∈ ts, T.PointsToVoid := by
  constructor
  · intro h
    cases h with
    | result h => exact .inl h
    | param hT h => exact .inr ⟨_, hT, h⟩
  · rintro (h | ⟨T, hT, h⟩)
    · exact .result h
    · exact .param hT h

theorem not_pointsToVoid_int (w : Nat) : ¬(Ty.int w).PointsToVoid := nofun

theorem not_pointsToVoid_defined (i : Nat) (name : String) : ¬(Ty.defined i name).PointsToVoid :=
  nofun

theorem not_pointsToVoid_bytePointer : ¬bytePointer.PointsToVoid := by
  rw [bytePointer, pointsToVoid_pointer]
  simp [not_pointsToVoid_int]

theorem not_pointsToVoid_scalarType (k : Scalar) : ¬(scalarType k).PointsToVoid := by
  cases k <;> exact nofun

theorem pointsToVoid_arrayStruct :
    (arrayStruct T).PointsToVoid ↔ T = .void ∨ T.PointsToVoid := by
  simp [arrayStruct, pointsToVoid_struct, pointsToVoid_pointer, not_pointsToVoid_int]

end Ir.Ty

/-! ## Source types -/

namespace Store

variable (store : Store)

/-- A source type with an array of `void`, or with a pointer to a base that ends at `void` without
    being seen as such. A declared struct has its fields in a definition of its own. -/
inductive ExposesVoid : Ty → Prop where
  | elements {t : Ty} : store.Ends t (.scalar .void) → ExposesVoid (.array t)
  | base {t : Ty} : store.isVoid t = false → store.Ends t (.scalar .void) → ExposesVoid (.pointer t)
  | element {t : Ty} : ExposesVoid t → ExposesVoid (.array t)
  | pointee {t : Ty} : ExposesVoid t → ExposesVoid (.pointer t)
  | field {f : String × Ty} {fields : List (String × Ty)} : f ∈ fields → ExposesVoid f.2 →
      ExposesVoid (.struct fields)
  | result {params : List (String × Ty)} {r : Ty} {inactive : Bool} : ExposesVoid r →
      ExposesVoid (.func params r inactive)
  | param {p : String × Ty} {params : List (String × Ty)} {r : Ty} {inactive : Bool} :
      p ∈ params → ExposesVoid p.2 → ExposesVoid (.func params r inactive)
  | name {id : NamedId} : store.structFields? (.named id) = none →
      ExposesVoid (store.underlying (.named id)) → ExposesVoid (.named id)

variable {store} {t u v : Ty} {id : NamedId} {fields params : List (String × Ty)}

theorem Ends.unique (h : store.Ends t u) : store.Ends t v → u = v := by
  induction h with
  | last ht =>
    intro h'
    cases h' with
    | last => rfl
    | next => exact absurd rfl (ht _)
  | next he _ ih =>
    intro h'
    cases h' with
    | last hv => exact absurd rfl (hv _)
    | next he' h' => exact ih (by rwa [← he, he'])

theorem Ends.not_named (h : store.Ends t u) : ∀ id, u ≠ .named id := by
  induction h with
  | last h => exact h
  | next _ _ ih => exact ih

/-- A mapped type is `void` just if its chain ends there. -/
theorem Fits.eq_void_iff {T : Ir.Ty} (h : store.Fits t T) :
    T = .void ↔ store.Ends t (.scalar .void) := by
  obtain ⟨u, hu, ha⟩ := h
  rw [← ha.void]
  constructor
  · intro hv
    have whole : store.underlying u = u := underlying_eq_self hu.not_named
    cases u with
    | scalar k =>
      obtain rfl : k = .void := by simpa [isVoid, scalar?, whole, Scalar.isVoid] using hv
      exact hu
    | _ => simp [isVoid, scalar?, whole] at hv
  · intro hv
    rw [hu.unique hv]
    rfl

theorem underlying_of_isVoid (h : store.isVoid t = true) :
    store.underlying t = .scalar .void := by
  unfold isVoid scalar? at h
  cases hu : store.underlying t with
  | scalar k => simpa [hu, Scalar.isVoid] using h
  | _ => simp [hu] at h

theorem exposesVoid_array :
    store.ExposesVoid (.array t) ↔ store.Ends t (.scalar .void) ∨ store.ExposesVoid t := by
  constructor
  · intro h
    cases h with
    | elements h => exact .inl h
    | element h => exact .inr h
  · rintro (h | h)
    · exact .elements h
    · exact .element h

theorem exposesVoid_pointer (hv : store.isVoid t = false) :
    store.ExposesVoid (.pointer t) ↔ store.Ends t (.scalar .void) ∨ store.ExposesVoid t := by
  constructor
  · intro h
    cases h with
    | base _ h => exact .inl h
    | pointee h => exact .inr h
  · rintro (h | h)
    · exact .base hv h
    · exact .pointee h

/-- A base that is seen to be `void` exposes nothing. -/
theorem not_exposesVoid_pointer (hv : store.isVoid t = true) : ¬store.ExposesVoid (.pointer t) := by
  have hu := underlying_of_isVoid hv
  intro h
  cases h with
  | base h _ => simp [hv] at h
  | pointee h =>
    cases h with
    | name _ h =>
      rw [hu] at h
      cases h
    | _ => cases hu

theorem exposesVoid_struct :
    store.ExposesVoid (.struct fields) ↔ ∃ f ∈ fields, store.ExposesVoid f.2 := by
  constructor
  · intro h
    cases h with
    | field hf h => exact ⟨_, hf, h⟩
  · rintro ⟨f, hf, h⟩
    exact .field hf h

theorem exposesVoid_func {r : Ty} {inactive : Bool} :
    store.ExposesVoid (.func params r inactive) ↔
      store.ExposesVoid r ∨ ∃ p ∈ params, store.ExposesVoid p.2 := by
  constructor
  · intro h
    cases h with
    | result h => exact .inl h
    | param hp h => exact .inr ⟨_, hp, h⟩
  · rintro (h | ⟨p, hp, h⟩)
    · exact .result h
    · exact .param hp h

theorem exposesVoid_named (hf : store.structFields? (.named id) = none) :
    store.ExposesVoid (.named id) ↔ store.ExposesVoid (store.underlying (.named id)) := by
  constructor
  · intro h
    cases h with
    | name _ h => exact h
  · exact .name hf

theorem not_exposesVoid_struct_name (hf : store.structFields? (.named id) = some fields) :
    ¬store.ExposesVoid (.named id) := by
  intro h
  cases h with
  | name hn _ => simp [hf] at hn

end Store

/-! ## The table -/

/-- What a table holds points to `void` just if the declared type exposes it. -/
def State.Exposed (store : Store) (s : State) : Prop :=
  ∀ id T, s.known id = some T → (T.PointsToVoid ↔ store.ExposesVoid (.named id))

namespace State.Exposed

variable {store : Store} {s : State} {id : NamedId} {T : Ir.Ty}

mutual

/-- What is read with such a table points to `void` just if the source type exposes it. -/
theorem read (hs : s.Exposed store) (hc : s.Fits store) :
    ∀ t T, readType store s.known t = some T → (T.PointsToVoid ↔ store.ExposesVoid t)
  | .missing, T, h => by simp [readType] at h
  | .scalar k, T, h => by
    obtain rfl : scalarType k = T := by simpa [readType] using h
    exact iff_of_false (Ir.Ty.not_pointsToVoid_scalarType k) nofun
  | .string, T, h => by
    obtain rfl : arrayStruct (.int 8) = T := by simpa [readType] using h
    refine iff_of_false ?_ nofun
    simp [Ir.Ty.pointsToVoid_arrayStruct, Ir.Ty.not_pointsToVoid_int]
  | .array t, T, h => by
    obtain ⟨e, he, hT⟩ := Option.bind_eq_some_iff.mp h
    obtain rfl : arrayStruct e = T := by simpa using hT
    rw [Ir.Ty.pointsToVoid_arrayStruct, Store.exposesVoid_array, (hc.read he).eq_void_iff,
      read hs hc t e he]
  | .pointer t, T, h => by
    unfold readType at h
    split at h
    · next hv =>
      obtain rfl : Ir.Ty.bytePointer = T := by simpa using h
      exact iff_of_false Ir.Ty.not_pointsToVoid_bytePointer (Store.not_exposesVoid_pointer hv)
    · next hv =>
      obtain ⟨e, he, hT⟩ := Option.bind_eq_some_iff.mp h
      obtain rfl : Ir.Ty.pointer e = T := by simpa using hT
      rw [Ir.Ty.pointsToVoid_pointer, Store.exposesVoid_pointer (Bool.eq_false_of_not_eq_true hv),
        (hc.read he).eq_void_iff, read hs hc t e he]
  | .struct fields, T, h => by
    obtain ⟨ts, hts, hT⟩ := Option.bind_eq_some_iff.mp h
    obtain rfl : Ir.Ty.struct ts = T := by simpa using hT
    rw [Ir.Ty.pointsToVoid_struct, Store.exposesVoid_struct, readAll hs hc fields ts hts]
  | .func params result _, T, h => by
    obtain ⟨r, hr, hrest⟩ := Option.bind_eq_some_iff.mp h
    obtain ⟨ps, hps, hT⟩ := Option.bind_eq_some_iff.mp hrest
    obtain rfl : Ir.Ty.pointer (.func r ps) = T := by simpa using hT
    have hresult : r.PointsToVoid ↔ store.ExposesVoid result := by
      split at hr
      · next hm =>
        obtain rfl : Ir.Ty.void = r := by simpa using hr
        cases result with
        | missing => exact iff_of_false nofun nofun
        | _ => cases hm
      · exact read hs hc result r hr
    rw [Ir.Ty.pointsToVoid_pointer, Ir.Ty.pointsToVoid_func, Store.exposesVoid_func, hresult,
      readAll hs hc params ps hps]
    simp
  | .named id, T, h => hs id T h

theorem readAll (hs : s.Exposed store) (hc : s.Fits store) :
    ∀ fields Ts, readFields store s.known fields = some Ts →
      ((∃ T ∈ Ts, T.PointsToVoid) ↔ ∃ f ∈ fields, store.ExposesVoid f.2)
  | [], Ts, h => by
    obtain rfl : [] = Ts := by simpa [readFields] using h
    simp
  | (_, t) :: rest, Ts, h => by
    obtain ⟨T, hT, hrest⟩ := Option.bind_eq_some_iff.mp h
    obtain ⟨Us, hU, hTs⟩ := Option.bind_eq_some_iff.mp hrest
    obtain rfl : T :: Us = Ts := by simpa using hTs
    rw [List.exists_mem_cons_iff, List.exists_mem_cons_iff, read hs hc t T hT,
      readAll hs hc rest Us hU]

end

/-- A reference to a definition points to nothing, whatever the fields are. -/
theorem enterType (hs : s.Exposed store) {fields : List (String × Ty)}
    (hf : store.structFields? (.named id) = some fields) (name : String) :
    (s.enterType id name).Exposed store := by
  intro x T hx
  rw [State.enterType_known] at hx
  split at hx
  · next he =>
    subst he
    obtain rfl := Option.some.inj hx
    exact iff_of_false (Ir.Ty.not_pointsToVoid_defined _ _) (Store.not_exposesVoid_struct_name hf)
  · exact hs x T hx

/-- Any other declared type is mapped like what it stands for. -/
theorem recordType (hs : s.Exposed store) (hf : store.structFields? (.named id) = none)
    (hT : T.PointsToVoid ↔ store.ExposesVoid (store.underlying (.named id))) :
    (s.recordType id T).Exposed store := by
  intro x U hx
  rw [State.recordType_known] at hx
  split at hx
  · next he =>
    subst he
    obtain rfl := Option.some.inj hx
    rw [hT, Store.exposesVoid_named hf]
  · exact hs x U hx

theorem congr (hs : s.Exposed store) {s' : State} (hm : s'.mapped = s.mapped) :
    s'.Exposed store := by
  intro id T h
  exact hs id T (by rwa [State.known, hm] at h)

end State.Exposed

/-- The steps of a mapping keep what the table says about `void`. -/
theorem maintained_exposed (store : Store) :
    Maintained store fun pending s =>
      (Materialized store pending s ∧ s.Fits store) ∧ s.Exposed store where
  enterType hs hk hf name := ⟨(maintained_fits store).enterType hs.1 hk hf name,
    hs.2.enterType hf name⟩
  setFields hs hf hk ht := ⟨(maintained_fits store).setFields hs.1 hf hk ht, hs.2.congr rfl⟩
  recordType hs hk hs₁ hf ht := by
    obtain ⟨kept, grown⟩ := (maintained_fits store).recordType hs.1 hk hs₁.1 hf ht
    exact ⟨⟨kept, hs₁.2.recordType hf (hs₁.2.read hs₁.1.2 _ _ ht)⟩, grown⟩

namespace Lower

variable {c : Context} {s : State}

theorem Generated.exposed (h : Generated c s) : s.Exposed c.analysis.store := by
  have all : (Materialized c.analysis.store (fun _ => False) s ∧ s.Fits c.analysis.store) ∧
      s.Exposed c.analysis.store := by
    induction h with
    | start hm ht => exact ⟨(Generated.start hm ht).fits, fun id T h => by
        simp [State.known, hm] at h⟩
    | map _ h ih => exact ((maintained_exposed _).instructionTypeWithin _ _ _ _ _ _ ih h).1
    | other hs hm ht ih => exact ⟨(hs.other hm ht).fits, ih.2.congr hm⟩
  exact all.2

end Lower

/-- In all states of a run, the last of which has the module that comes out, a pointer to `void`
    occurs in the type that a source type is mapped to just if the source type exposes `void`. Every
    type definition of the module belongs to a declared struct, and such a pointer occurs in it just
    if a field of the struct exposes `void`. -/
theorem void_pointers_exposed (c : Context) :
    (∀ decls m, (lowerUnit c.analysis c.config decls).result = .ok m →
      ∃ s, Generated c s ∧ s.module = m) ∧
    (∀ s t T s', Generated c s → instructionType c t s = .ok T s' →
      Generated c s' ∧ (T.PointsToVoid ↔ c.analysis.store.ExposesVoid t)) ∧
    ∀ s, Generated c s → ∀ (i : Nat) (d : Ir.TypeDef), s.module.types[i]? = some d →
      ∃ id fields, c.analysis.store.structFields? (.named id) = some fields ∧
        instructionType c (.named id) s = .ok (.defined i d.name) s ∧
        ((Ir.Ty.struct d.fields).PointsToVoid ↔
          ∃ f ∈ fields, c.analysis.store.ExposesVoid f.2) := by
  refine ⟨?_, ?_, ?_⟩
  · intro decls m h
    obtain ⟨s, hs, rfl⟩ := lowerUnit_eq_ok h
    exact ⟨s, (upholds_generated c).wholeUnit (fun _ _ => trivial) hs (.start rfl rfl), rfl⟩
  · intro s t T s' hs h
    obtain ⟨kept, -, hread⟩ := (maintained_exposed _).instructionTypeWithin _ _ t s T s'
      ⟨hs.fits, hs.exposed⟩ h
    exact ⟨hs.map h, kept.2.read kept.1.2 t T hread⟩
  · intro s hs i d hd
    obtain ⟨built, fits⟩ := hs.fits
    obtain ⟨id, name, hf, hk⟩ := built.owner i (Array.getElem?_eq_some_iff.mp hd).1
    obtain ⟨fields, hf⟩ := Option.isSome_iff_exists.mp hf
    obtain ⟨j, d', hT, hd', hfields⟩ := built.struct hk hf
    obtain ⟨rfl, rfl⟩ : i = j ∧ name = d'.name := by simpa using hT
    obtain rfl : d = d' := Option.some.inj (hd.symm.trans hd')
    refine ⟨id, fields, hf, recalls_instructionTypeWithin _ _ _ s _ hk, ?_⟩
    rw [Ir.Ty.pointsToVoid_struct, hs.exposed.readAll fits fields d.fields (hfields not_false)]

/-! ## An array of `void` -/

/-- A name for `void`, a struct with a pointer to itself, one to `void` and an array of `void`, and
    a global array of `void`. -/
def boxAnalysis : Analysis where
  store :=
    { scopes := #[{ bindings := [("all", 0)] }]
      objects := #[
        { name := "all", type := .array (.scalar .void), kind := .variable { isGlobal := true } },
        { name := "Unit", type := .named 0, kind := .typeName },
        { name := "Box", type := .named 1, kind := .typeName }]
      named := #[⟨some 1, .scalar .void⟩, ⟨some 2, .struct [("next", .pointer (.named 1)),
        ("raw", .pointer (.named 0)), ("all", .array (.named 0))]⟩] }
  facts := {}

/-- Lowering with the types of `boxAnalysis`. -/
def boxContext : Context := ⟨boxAnalysis, {}⟩

/-- The global. -/
def boxUnit : List Node :=
  [.varDecl { site := { id := 1 }, token := .known .varWord, name := "all" }]

/-- The state in which the struct is mapped. -/
def boxState : State where
  module :=
    { types := #[{ name := "Box", fields :=
        [.pointer (.defined 0 "Box"), Ir.Ty.bytePointer, arrayStruct .void] }] }
  typeNames := [("Box", 1)]
  mapped := [(0, .void), (1, .defined 0 "Box")]

/-- A pointer to the struct points to no `void`, though the last field in the definition of the
    struct does; neither does a pointer to the name for `void`. -/
theorem void_pointers_exposed_box :
    (∃ s m, (lowerUnit boxAnalysis {} boxUnit).result = .ok m ∧ Generated boxContext s ∧
      s.module = m) ∧
    instructionType boxContext (.pointer (.named 1)) {} =
      .ok (.pointer (.defined 0 "Box")) boxState ∧
    ¬(Ir.Ty.pointer (.defined 0 "Box")).PointsToVoid ∧
    instructionType boxContext (.pointer (.named 0)) boxState = .ok Ir.Ty.bytePointer boxState ∧
    ¬Ir.Ty.bytePointer.PointsToVoid ∧
    ∃ d, boxState.module.types[0]? = some d ∧ (Ir.Ty.struct d.fields).PointsToVoid := by
  obtain ⟨whole, mapped, defined⟩ := void_pointers_exposed boxContext
  have lowered : ∃ m ∈ (lowerUnit boxAnalysis {} boxUnit).result.toOption, True := by
    decide +kernel
  obtain ⟨m, hm, -⟩ := lowered
  have hm := eq_ok_of_mem_toOption hm
  obtain ⟨s, hs, hsm⟩ := whole boxUnit m hm
  have box : instructionType boxContext (.pointer (.named 1)) {} =
      .ok (.pointer (.defined 0 "Box")) boxState := rfl
  have raw : instructionType boxContext (.pointer (.named 0)) boxState =
      .ok Ir.Ty.bytePointer boxState := rfl
  obtain ⟨generated, hbox⟩ := mapped {} _ _ _ (.start rfl rfl) box
  obtain ⟨-, hraw⟩ := mapped _ _ _ _ generated raw
  refine ⟨⟨s, m, hm, hs, hsm⟩, box, fun h => ?_, raw, fun h => ?_, _, rfl, ?_⟩
  · have exposed := (Store.exposesVoid_pointer rfl).mp (hbox.mp h)
    rcases exposed with ends | named
    · cases ends with
      | next he h =>
        subst he
        cases h
    · exact Store.not_exposesVoid_struct_name rfl named
  · exact Store.not_exposesVoid_pointer rfl (hraw.mp h)
  · obtain ⟨id, fields, hf, -, hd⟩ := defined boxState generated 0 _ rfl
    match id with
    | 0 => cases hf
    | 1 =>
      cases hf
      exact hd.mpr ⟨("all", .array (.named 0)), by simp, .elements (.next rfl (.last nofun))⟩
    | _ + 2 => cases hf

/-- An array of `void` is mapped to a struct with a pointer to `void`, which the global gets; and a
    pointer to a name for a name for `void` is mapped to one. -/
theorem void_pointed_to :
    (∃ s, instructionType boxContext (.array (.scalar .void)) {} = .ok (arrayStruct .void) s) ∧
    (arrayStruct .void).PointsToVoid ∧
    (∃ m g, (lowerUnit boxAnalysis {} boxUnit).result = .ok m ∧ m.globals[0]? = some g ∧
      Ir.typeText m.types g.content = "\x7b i32, void* \x7d") ∧
    ∃ s, instructionType ⟨nothingAnalysis, {}⟩ (.pointer (.named 1)) {} =
      .ok (.pointer .void) s := by
  have printed : ∃ m ∈ (lowerUnit boxAnalysis {} boxUnit).result.toOption, ∃ g ∈ m.globals[0]?,
      Ir.typeText m.types g.content = "\x7b i32, void* \x7d" := by decide +kernel
  obtain ⟨m, hm, g, hg, text⟩ := printed
  exact ⟨⟨_, rfl⟩, Ir.Ty.pointsToVoid_arrayStruct.mpr (.inl rfl),
    ⟨m, g, eq_ok_of_mem_toOption hm, hg, text⟩, _, rfl⟩

end TreeLowering
