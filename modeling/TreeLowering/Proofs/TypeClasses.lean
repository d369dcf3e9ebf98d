import TreeLowering.Proofs.Symbols

/-!
The classes of a source type and its instruction type. Mapping goes down a chain of declared types
to the type at its end (`Store.Ends`), while a class looks through one name only. In every state
that comes of lowering (`Generated`) the table holds, for each declared type, the instruction type
of the end of its chain, which has the classes of that end (`State.Fits`). So the classes of a type say
what it is mapped to unless the type names another name for a scalar (`instructionType_agrees`).
-/
namespace TreeLowering

open Lower

/-! ## Classes -/

/-- Whether an instruction type is a boolean, an integer of at least eight bits, a number with a
    fraction, or void. -/
def Ir.Ty.HasClass (T : Ir.Ty) : Prop :=
  T = .void ∨ T = .int 1 ∨ (∃ w, 8 ≤ w ∧ T = .int w) ∨ ∃ k, T = .float k

namespace Store

variable (store : Store)

/-- The classes of a source type are those of an instruction type. -/
structure Agrees (t : Ty) (T : Ir.Ty) : Prop where
  void : store.isVoid t = true ↔ T = .void
  boolean : store.isBoolean t = true ↔ T = .int 1
  integer : store.isInteger t = true ↔ ∃ w, 8 ≤ w ∧ T = .int w
  float : store.isFloat t = true ↔ T = .float .single ∨ T = .float .double

/-- A chain of declared types ends at a type that is not declared. -/
inductive Ends : Ty → Ty → Prop where
  | last {t : Ty} : (∀ id, t ≠ .named id) → Ends t t
  | next {id : NamedId} {t u : Ty} : store.underlying (.named id) = t → Ends t u →
      Ends (.named id) u

variable {store} {t u : Ty} {T : Ir.Ty}

theorem underlying_eq_self (h : ∀ id, t ≠ .named id) : store.underlying t = t := by
  cases t with
  | named id => exact absurd rfl (h id)
  | _ => rfl

/-- Through one name a chain that is no longer ends at what the type stands for. -/
theorem Ends.eq_underlying (h : store.Ends t u)
    (hu : ∀ id, store.underlying t ≠ .named id) : u = store.underlying t := by
  cases h with
  | last h => exact (underlying_eq_self h).symm
  | next he h =>
    cases h with
    | last => exact he.symm
    | next => exact absurd he (hu _)

/-- The classes of a type are those of what it stands for. -/
theorem Agrees.congr {t' : Ty} (h : store.underlying t = store.underlying t')
    (ha : store.Agrees t T) : store.Agrees t' T := by
  have same : store.scalar? t = store.scalar? t' := by rw [scalar?, h, scalar?]
  exact ⟨by simpa only [isVoid, same] using ha.void,
    by simpa only [isBoolean, same] using ha.boolean,
    by simpa only [isInteger, same] using ha.integer,
    by simpa only [isFloat, same] using ha.float⟩

theorem Agrees.of_scalar {k : Scalar} (h : store.scalar? t = some k) :
    store.Agrees t (scalarType k) := by
  constructor <;> simp only [isVoid, isBoolean, isInteger, isFloat, h, Option.any_some] <;>
    cases k <;> simp [scalarType, Scalar.isVoid, Scalar.isBoolean, Scalar.isInteger,
      Scalar.isUnsigned, Scalar.isFloat]

/-- A type without a scalar below it has no class. -/
theorem agrees_iff_of_not_scalar (h : store.scalar? t = none) :
    store.Agrees t T ↔ ¬T.HasClass := by
  have none : store.isVoid t = false ∧ store.isBoolean t = false ∧ store.isInteger t = false ∧
      store.isFloat t = false := by
    simp only [isVoid, isBoolean, isInteger, isFloat, h, Option.any_none, and_self]
  constructor
  · rintro ⟨hv, hb, hi, hf⟩ (rfl | rfl | hT | ⟨k, rfl⟩)
    · simp [none] at hv
    · simp [none] at hb
    · exact absurd (hi.mpr hT) (by simp [none])
    · cases k <;> simp [none] at hf
  · intro hT
    constructor <;> simp only [none, Bool.false_eq_true, false_iff]
    · rintro rfl
      exact hT (.inl rfl)
    · rintro rfl
      exact hT (.inr (.inl rfl))
    · exact fun h => hT (.inr (.inr (.inl h)))
    · rintro (rfl | rfl)
      · exact hT (.inr (.inr (.inr ⟨_, rfl⟩)))
      · exact hT (.inr (.inr (.inr ⟨_, rfl⟩)))

variable (store) in
/-- An instruction type has the classes of the type at the end of the chain. -/
def Fits (t : Ty) (T : Ir.Ty) : Prop := ∃ u, store.Ends t u ∧ store.Agrees u T

end Store

/-! ## The table -/

/-- All that a table holds has the classes of the end of the chain. -/
def State.Fits (store : Store) (s : State) : Prop :=
  ∀ id T, s.known id = some T → store.Fits (.named id) T

namespace State.Fits

variable {store : Store} {s : State} {id : NamedId} {T : Ir.Ty}

/-- What is read with such a table has the classes too. -/
theorem read (hs : s.Fits store) {t : Ty} (h : readType store s.known t = some T) :
    store.Fits t T := by
  -- A type that is neither declared nor a scalar ends its own chain, and has no class.
  have whole (hn : ∀ id, t ≠ .named id) (hk : store.scalar? t = none) (hT : ¬T.HasClass) :
      store.Fits t T := ⟨t, .last hn, (Store.agrees_iff_of_not_scalar hk).mpr hT⟩
  cases t with
  | missing => simp [readType] at h
  | scalar k =>
    obtain rfl : scalarType k = T := by simpa [readType] using h
    exact ⟨.scalar k, .last (by simp), .of_scalar rfl⟩
  | string =>
    obtain rfl : arrayStruct (.int 8) = T := by simpa [readType] using h
    exact whole (by simp) rfl (by simp [Ir.Ty.HasClass, arrayStruct])
  | array t =>
    obtain ⟨e, -, hT⟩ := Option.bind_eq_some_iff.mp h
    obtain rfl : arrayStruct e = T := by simpa using hT
    exact whole (by simp) rfl (by simp [Ir.Ty.HasClass, arrayStruct])
  | pointer t =>
    unfold readType at h
    split at h
    · obtain rfl : Ir.Ty.bytePointer = T := by simpa using h
      exact whole (by simp) rfl (by simp [Ir.Ty.HasClass, Ir.Ty.bytePointer])
    · obtain ⟨e, -, hT⟩ := Option.bind_eq_some_iff.mp h
      obtain rfl : Ir.Ty.pointer e = T := by simpa using hT
      exact whole (by simp) rfl (by simp [Ir.Ty.HasClass])
  | struct fields =>
    obtain ⟨ts, -, hT⟩ := Option.bind_eq_some_iff.mp h
    obtain rfl : Ir.Ty.struct ts = T := by simpa using hT
    exact whole (by simp) rfl (by simp [Ir.Ty.HasClass])
  | func params result inactive =>
    obtain ⟨r, -, hrest⟩ := Option.bind_eq_some_iff.mp h
    obtain ⟨ps, -, hT⟩ := Option.bind_eq_some_iff.mp hrest
    obtain rfl : Ir.Ty.pointer (.func r ps) = T := by simpa using hT
    exact whole (by simp) rfl (by simp [Ir.Ty.HasClass])
  | named id => exact hs id T h

/-- A struct is mapped to its definition, which has no class. -/
theorem enterType (hs : s.Fits store) {fields : List (String × Ty)}
    (hf : store.structFields? (.named id) = some fields) (name : String) :
    (s.enterType id name).Fits store := by
  intro x T hx
  rw [State.enterType_known] at hx
  split at hx
  · rename_i he
    subst he
    obtain rfl := Option.some.inj hx
    exact ⟨.struct fields, .next (underlying_of_structFields hf) (.last (by simp)),
      (Store.agrees_iff_of_not_scalar rfl).mpr (by simp [Ir.Ty.HasClass])⟩
  · exact hs x T hx

/-- Any other declared type is mapped like what it stands for. -/
theorem recordType (hs : s.Fits store) (hT : store.Fits (store.underlying (.named id)) T) :
    (s.recordType id T).Fits store := by
  intro x U hx
  rw [State.recordType_known] at hx
  split at hx
  · rename_i he
    subst he
    obtain rfl := Option.some.inj hx
    obtain ⟨u, hu, ha⟩ := hT
    exact ⟨u, .next rfl hu, ha⟩
  · exact hs x U hx

theorem congr (hs : s.Fits store) {s' : State} (hm : s'.mapped = s.mapped) : s'.Fits store := by
  intro id T h
  exact hs id T (by rwa [State.known, hm] at h)

end State.Fits

/-- The classes of the table are kept through the steps of a mapping. -/
theorem maintained_fits (store : Store) :
    Maintained store fun pending s => Materialized store pending s ∧ s.Fits store where
  enterType hs hk hf name := ⟨hs.1.enterType hk hf name, hs.2.enterType hf name⟩
  setFields hs hf hk ht := ⟨hs.1.setFields hf hk ht, hs.2.congr rfl⟩
  recordType _ _ hs₁ hf ht := by
    obtain ⟨kept, grown⟩ := hs₁.1.recordType hf ht
    exact ⟨⟨kept, hs₁.2.recordType (hs₁.2.read ht)⟩, grown⟩

namespace Lower

/-! ## States that come of lowering -/

/-- The states of a run: nothing is mapped at the start, and source types are mapped between steps
    that leave the table and the definitions alone. -/
inductive Generated (c : Context) : State → Prop where
  | start {s : State} : s.mapped = [] → s.module.types = #[] → Generated c s
  | map {s s' : State} {t : Ty} {T : Ir.Ty} : Generated c s →
      instructionType c t s = .ok T s' → Generated c s'
  | other {s s' : State} : Generated c s → s'.mapped = s.mapped →
      s'.module.types = s.module.types → Generated c s'

variable {c : Context} {s s' : State}

theorem Generated.fits (h : Generated c s) :
    Materialized c.analysis.store (fun _ => False) s ∧ s.Fits c.analysis.store := by
  induction h with
  | start hm ht => exact ⟨.start hm ht, fun id T h => by simp [State.known, hm] at h⟩
  | map _ h ih =>
    exact ((maintained_fits _).instructionTypeWithin _ _ _ _ _ _ ih h).1
  | other _ hm ht ih => exact ⟨ih.1.congr hm ht, ih.2.congr hm⟩

theorem tolerant_generated (c : Context) : Tolerant c (Preserves (Generated c)) where
  body _ _ hs := hs.other rfl rfl
  buffer _ _ _ := by
    intro s g s' h hs
    cases h
    exact hs.other rfl rfl
  content _ _ _ := .modify' fun _ hs => hs.other rfl rfl
  intern _ _ hs := hs.other rfl rfl
  copy := by
    intro s v s' h hs
    exact hs.other (copyIntrinsic_types h).1 (copyIntrinsic_types h).2
  instructionType _ _ _ _ h hs := hs.map h

/-- All steps of lowering lead from such a state to another one. -/
theorem upholds_generated (c : Context) : Upholds c (fun _ => True) (Generated c) where
  toTolerant := tolerant_generated c
  values _ _ hs := hs.other rfl rfl
  trace _ _ hs := hs.other rfl rfl
  begin _ _ _ exported hs := by cases exported <;> exact hs.other rfl rfl
  install _ _ hs := hs.other rfl rfl
  global _ _ _ := by
    intro s g s' h hs
    cases h
    exact hs.other rfl rfl
  prototype h _ _ := by
    refine (tolerant_generated c).touches.enterPrototype (fun _ _ hs => hs.other rfl rfl)
      (fun _ _ hs => hs.other rfl rfl) (fun _ _ hs => hs.other rfl rfl) fun _ _ _ => ?_
    intro s id s' hr hs
    rcases declareSymbol_eq_ok hr with ⟨-, -, f, -, -, -, rfl⟩ | ⟨-, -, rfl⟩
    · exact hs.other rfl rfl
    · exact hs

end Lower

/-- In all states of a run the type that a source type is mapped to has the classes of the end of
    its chain. It has those of the type itself unless the type is a name for another declared type
    and the chain ends at a scalar. -/
theorem instructionType_agrees (c : Context) :
    (∀ decls s s', s.mapped = [] → s.module.types = #[] → wholeUnit c decls s = .ok () s' →
      Generated c s') ∧
    ∀ s t T s', Generated c s → instructionType c t s = .ok T s' →
      (∃ u, c.analysis.store.Ends t u ∧ c.analysis.store.Agrees u T) ∧
      (c.analysis.store.Agrees t T ↔
        (∀ id, c.analysis.store.underlying t ≠ .named id) ∨ ¬T.HasClass) := by
  constructor
  · intro decls s s' hm ht h
    exact (upholds_generated c).wholeUnit (fun _ _ => trivial) h (.start hm ht)
  intro s t T s' hs h
  obtain ⟨kept, -, hread⟩ := (maintained_fits _).instructionTypeWithin _ _ t s T s' hs.fits h
  obtain ⟨u, hu, ha⟩ := kept.2.read hread
  refine ⟨⟨u, hu, ha⟩, ?_⟩
  -- A class asks for the end of the chain only where one name leads there.
  by_cases hn : ∀ id, c.analysis.store.underlying t ≠ .named id
  · obtain rfl := hu.eq_underlying hn
    exact iff_of_true (ha.congr (Store.underlying_eq_self hn)) (.inl hn)
  · have none : c.analysis.store.scalar? t = none := by
      obtain ⟨id, hid⟩ := Classical.not_forall_not.mp hn
      rw [Store.scalar?, hid]
    rw [Store.agrees_iff_of_not_scalar none]
    simp only [hn, false_or]

/-! ## A name for a name -/

/-- A name for `void`, a name for that name, and a function that returns the latter. -/
def nothingAnalysis : Analysis where
  store :=
    { scopes := #[{ bindings := [("f", 0)] }]
      objects := #[
        { name := "f", type := .func [] (.named 1) false, kind := .variable {} },
        { name := "Unit", type := .named 0, kind := .typeName },
        { name := "Nothing", type := .named 1, kind := .typeName }]
      named := #[⟨some 1, .scalar .void⟩, ⟨some 2, .named 0⟩] }
  facts := {}

/-- A function that returns the name for the name, and does nothing. -/
def nothingUnit : List Node := [.funcDecl { site := { id := 1 }, name := "f" } (.mk { id := 2 } [])]

/-- Both names for `void`: the mapping of the second goes through the first, which is then known. -/
theorem instructionType_agrees_nothing :
    ∃ s s' s'' T T', Generated ⟨nothingAnalysis, {}⟩ s ∧
      instructionType ⟨nothingAnalysis, {}⟩ (.named 1) s = .ok T s' ∧
      (∃ u, nothingAnalysis.store.Ends (.named 1) u ∧ nothingAnalysis.store.Agrees u T) ∧
      instructionType ⟨nothingAnalysis, {}⟩ (.named 0) s' = .ok T' s'' ∧
      nothingAnalysis.store.Agrees (.named 0) T' ∧ T' = .void := by
  have start : Generated ⟨nothingAnalysis, {}⟩ {} := .start rfl rfl
  have second : instructionType ⟨nothingAnalysis, {}⟩ (.named 1) {} = .ok .void
    { mapped := [(1, .void), (0, .void)] } := rfl
  have first : instructionType ⟨nothingAnalysis, {}⟩ (.named 0) { mapped := [(1, .void), (0, .void)] } =
    .ok .void { mapped := [(1, .void), (0, .void)] } := rfl
  have agrees := (instructionType_agrees ⟨nothingAnalysis, {}⟩).2
  exact ⟨_, _, _, _, _, start, second, (agrees _ _ _ _ start second).1, first,
    (agrees _ _ _ _ (start.map second) first).2.mpr (.inl (by simp [nothingAnalysis, Store.underlying])),
    rfl⟩

/-- Whether a block ends where no run gets to. -/
def Ir.Term.isUnreachable : Ir.Term → Bool
  | .unreachable => true
  | .br _ | .condBr _ _ _ | .ret _ => false

/-- Through two names `void` is not seen: the function returns nothing, but the end of its body
    counts as a place that is never reached. -/
theorem void_unseen :
    (∃ s, instructionType ⟨nothingAnalysis, {}⟩ (.named 1) {} = .ok .void s) ∧
      nothingAnalysis.store.isVoid (.named 1) = false ∧
      ∃ m, (lowerUnit nothingAnalysis {} nothingUnit).result = .ok m ∧
        ∃ f b, m.funcs[1]? = some f ∧ f.result = .void ∧ f.blocks.getLast? = some b ∧
          b.term = some .unreachable := by
  have ends : ∃ m ∈ (lowerUnit nothingAnalysis {} nothingUnit).result.toOption,
      ∃ f ∈ m.funcs[1]?, f.result.isVoid = true ∧ ∃ b ∈ f.blocks.getLast?, ∃ t ∈ b.term,
        t.isUnreachable = true := by decide +kernel
  obtain ⟨m, hm, f, hf, hv, b, hb, t, ht, hu⟩ := ends
  refine ⟨⟨_, rfl⟩, rfl, m, eq_ok_of_mem_toOption hm, f, b, hf, ?_, hb, ht.trans ?_⟩
  · cases hr : f.result <;> simp_all [Ir.Ty.isVoid]
  · cases t with
    | unreachable => rfl
    | _ => cases hu

end TreeLowering
