import TreeLowering.Proofs.Completion
import TreeLowering.Proofs.TypeTable

/-!
The table of symbols. A definition that is compiled in and has a symbol is bound to the function of
its symbol, which has exactly that name. `Registry` is what lowering keeps of this: the function
that a definition is bound to has the types of the definition's own signature, as far as types can
be told apart in the module. Definitions of one symbol thus share one function and its types, and as
nobody with a body gets a symbol that is taken, at most one of them has a body.

Types are mapped while functions are declared, so what was compared once has to stay the same: type
definitions are only added, and those that are there do not change (`sameType_of_grown`).

Main statement: `lowerUnit_symbols`.
-/
namespace TreeLowering

open Lower

/-! ## Types that are the same -/

namespace Ir.Ty

mutual

/-- A type without the indices of its references, which do not count in a comparison. -/
def unindexed : Ty → Ty
  | .pointer t => .pointer (unindexed t)
  | .array n t => .array n (unindexed t)
  | .struct fields => .struct (unindexedAll fields)
  | .func result params => .func (unindexed result) (unindexedAll params)
  | .defined _ name => .defined 0 name
  | t => t

/-- The types of a list without indices. -/
def unindexedAll : List Ty → List Ty
  | [] => []
  | t :: ts => unindexed t :: unindexedAll ts

end

mutual

theorem same_iff : ∀ a b : Ty, a.same b = true ↔ a.unindexed = b.unindexed
  | .int w, b => by cases b <;> simp [same, unindexed]
  | .float k, b => by cases b <;> simp [same, unindexed]
  | .void, b => by cases b <;> simp [same, unindexed]
  | .pointer a, b => by
    cases b with
    | pointer b => simpa [same, unindexed] using same_iff a b
    | _ => simp [same, unindexed]
  | .array n a, b => by
    cases b with
    | array m b => simpa [same, unindexed] using fun _ => same_iff a b
    | _ => simp [same, unindexed]
  | .struct as, b => by
    cases b with
    | struct bs => simpa [same, unindexed] using sameAll_iff as bs
    | _ => simp [same, unindexed]
  | .func r as, b => by
    cases b with
    | func r' bs => simp [same, unindexed, same_iff r r', sameAll_iff as bs]
    | _ => simp [same, unindexed]
  | .defined _ name, b => by cases b <;> simp [same, unindexed]

theorem sameAll_iff : ∀ as bs : List Ty, sameAll as bs = true ↔ unindexedAll as = unindexedAll bs
  | [], bs => by cases bs <;> simp [sameAll, unindexedAll]
  | a :: as, [] => by simp [sameAll, unindexedAll]
  | a :: as, b :: bs => by simp [sameAll, unindexedAll, same_iff a b, sameAll_iff as bs]

end

end Ir.Ty

namespace Ir

theorem sameType_iff {defs : Array TypeDef} {a b : Ty} : sameType defs a b = true ↔
    (a.expand (unnamedFields defs)).unindexed = (b.expand (unnamedFields defs)).unindexed :=
  Ty.same_iff _ _

theorem sameType_refl (defs : Array TypeDef) (a : Ty) : sameType defs a a = true :=
  sameType_iff.mpr rfl

theorem sameType_symm {defs : Array TypeDef} {a b : Ty} (h : sameType defs a b = true) :
    sameType defs b a = true :=
  sameType_iff.mpr (sameType_iff.mp h).symm

theorem sameType_trans {defs : Array TypeDef} {a b c : Ty} (h₁ : sameType defs a b = true)
    (h₂ : sameType defs b c = true) : sameType defs a c = true :=
  sameType_iff.mpr ((sameType_iff.mp h₁).trans (sameType_iff.mp h₂))

theorem Ty.unindexedAll_length : ∀ ts : List Ty, (unindexedAll ts).length = ts.length
  | [] => rfl
  | _ :: ts => congrArg (· + 1) (unindexedAll_length ts)

theorem Ty.expandAll_length (unnamed : List Ty) :
    ∀ ts : List Ty, (expandAll unnamed ts).length = ts.length
  | [] => rfl
  | _ :: ts => congrArg (· + 1) (expandAll_length unnamed ts)

/-- Functions of the same type take as many parameters. -/
theorem length_eq_of_sameType {defs : Array TypeDef} {r r' : Ty} {ps qs : List Ty}
    (h : sameType defs (.func r ps) (.func r' qs) = true) : ps.length = qs.length := by
  have same := sameType_iff.mp h
  simp only [Ty.expand, Ty.unindexed, Ty.func.injEq] at same
  calc ps.length
      = (Ty.unindexedAll (Ty.expandAll (unnamedFields defs) ps)).length := by
        rw [Ty.unindexedAll_length, Ty.expandAll_length]
    _ = (Ty.unindexedAll (Ty.expandAll (unnamedFields defs) qs)).length := by rw [same.2]
    _ = qs.length := by rw [Ty.unindexedAll_length, Ty.expandAll_length]

/-- The type of a function. -/
def Function.type (f : Function) : Ty := .func f.result (f.params.map Prod.snd)

end Ir

theorem Grown.types_append {s s' : State} (h : Grown s s') :
    ∃ more, s'.module.types.toList = s.module.types.toList ++ more := by
  have ext : s.module.types.toList <+: s'.module.types.toList := by
    refine List.prefix_iff_getElem?.mpr fun i hi => ?_
    rw [Array.getElem?_toList]
    exact h.types i _ (by simp [Array.getElem?_eq_getElem (by simpa using hi)])
  obtain ⟨more, hm⟩ := ext
  exact ⟨more, hm.symm⟩

/-- A comparison of types stays what it is when definitions are added. -/
theorem sameType_of_grown {s s' : State} (h : Grown s s') {a b : Ir.Ty}
    (ha : a.Resolves s.module.types) (hb : b.Resolves s.module.types) :
    Ir.sameType s'.module.types a b = Ir.sameType s.module.types a b := by
  obtain ⟨more, hm⟩ := h.types_append
  cases hf : s.module.types.toList.find? fun d => d.name = "" with
  | some d =>
    have same : Ir.unnamedFields s'.module.types = Ir.unnamedFields s.module.types := by
      unfold Ir.unnamedFields
      rw [← Array.find?_toList, ← Array.find?_toList, hm, List.find?_append, hf]
      rfl
    rw [Ir.sameType, same, Ir.sameType]
  | none =>
    -- no definition is unnamed, so no type refers to one
    have named : ∀ {t : Ir.Ty}, t.Resolves s.module.types → ∀ r ∈ t.refs, r.2 ≠ "" := by
      intro t ht r hr he
      obtain ⟨d, hd, hn⟩ := Option.map_eq_some_iff.mp (ht r hr)
      have := List.find?_eq_none.mp hf d (Array.mem_toList_iff.mpr (Array.mem_of_getElem? hd))
      simp [hn, he] at this
    rw [Ir.sameType, Ir.sameType, Ir.Ty.expand_eq_self _ a (named ha),
      Ir.Ty.expand_eq_self _ b (named hb), Ir.Ty.expand_eq_self _ a (named ha),
      Ir.Ty.expand_eq_self _ b (named hb)]

theorem Ir.Ty.Resolves.grown {s s' : State} (h : Grown s s') {t : Ir.Ty}
    (ht : t.Resolves s.module.types) : t.Resolves s'.module.types := by
  intro r hr
  obtain ⟨d, hd, hn⟩ := Option.map_eq_some_iff.mp (ht r hr)
  exact Option.map_eq_some_iff.mpr ⟨d, h.types _ d hd, hn⟩

/-! ## Signatures -/

namespace Lower

variable {store : Store} {table : Table} {params : List (String × Ty)} {result : Ty}

/-- The result and parameter types of a function in a table; a missing result is void. -/
def readSignature (store : Store) (table : Table) (params : List (String × Ty)) (result : Ty) :
    Option (Ir.Ty × List Ir.Ty) :=
  (if result.isMissing then some .void else readType store table result).bind fun r =>
    (readFields store table params).bind fun ps => some (r, ps)

theorem lasts_readSignature (params : List (String × Ty)) (result : Ty) :
    Lasts fun table => readSignature store table params result :=
  .bind (.ite (.const _) (lasts_readType result)) fun _ =>
    .bind (lasts_readFields params) fun _ => .const _

/-- The types of a signature are read like those of the function type. -/
theorem readType_func {r : Ir.Ty} {ps : List Ir.Ty} (inactive : Bool)
    (h : readSignature store table params result = some (r, ps)) :
    readType store table (.func params result inactive) = some (.pointer (.func r ps)) := by
  obtain ⟨r', hr, hrest⟩ := Option.bind_eq_some_iff.mp h
  obtain ⟨ps', hps, he⟩ := Option.bind_eq_some_iff.mp hrest
  cases he
  rw [readType, hr, Option.bind_some, hps, Option.bind_some]

theorem readFields_length (fields : List (String × Ty)) :
    ∀ Ts, readFields store table fields = some Ts → Ts.length = fields.length := by
  induction fields with
  | nil =>
    intro Ts h
    cases h
    rfl
  | cons field rest ih =>
    intro Ts h
    obtain ⟨T, -, hrest⟩ := Option.bind_eq_some_iff.mp h
    obtain ⟨Us, hU, he⟩ := Option.bind_eq_some_iff.mp hrest
    cases he
    rw [List.length_cons, List.length_cons, ih Us hU]

theorem readSignature_length {r : Ir.Ty} {ps : List Ir.Ty}
    (h : readSignature store table params result = some (r, ps)) :
    ps.length = params.length := by
  obtain ⟨r', -, hrest⟩ := Option.bind_eq_some_iff.mp h
  obtain ⟨ps', hps, he⟩ := Option.bind_eq_some_iff.mp hrest
  cases he
  exact readFields_length params ps hps

theorem answers_instructionSignature (c : Context) (pending : NamedId → Prop)
    (params : List (String × Ty)) (result : Ty) :
    Answers (Materialized c.analysis.store pending) (instructionSignature c params result)
      fun table => readSignature c.analysis.store table params result := by
  have types : ∀ t, Answers (Materialized c.analysis.store pending) (instructionType c t)
      fun table => readType c.analysis.store table t :=
    fun t => answers_instructionTypeWithin _ _ pending t
  have rest : ∀ r : Ir.Ty, Answers (Materialized c.analysis.store pending) (do
      let ps ← params.mapM fun p => instructionType c p.2
      pure (r, ps)) fun table =>
        (readFields c.analysis.store table params).bind fun ps => some (r, ps) := by
    intro r
    simp only [readFields_eq_mapM]
    exact .bind' (.mapM' (fun p => lasts_readType p.2) (fun p => types p.2) params)
      (.mapM (fun p => lasts_readType p.2) params) fun _ => .pure' _
  unfold instructionSignature readSignature
  by_cases hm : result.isMissing = true
  · simp only [if_pos hm]
    exact .bind' (.pure' _) (.const _) rest
  · simp only [if_neg hm]
    exact .bind' (types result) (lasts_readType result) rest

theorem recalls_instructionSignature (c : Context) (params : List (String × Ty)) (result : Ty) :
    Recalls (instructionSignature c params result)
      fun table => readSignature c.analysis.store table params result := by
  have types : ∀ t, Recalls (instructionType c t) fun table => readType c.analysis.store table t :=
    fun t => recalls_instructionTypeWithin _ _ t
  have rest : ∀ r : Ir.Ty, Recalls (do
      let ps ← params.mapM fun p => instructionType c p.2
      pure (r, ps)) fun table =>
        (readFields c.analysis.store table params).bind fun ps => some (r, ps) := by
    intro r
    simp only [readFields_eq_mapM]
    exact .bind' (.mapM' (fun p => types p.2) params) fun _ => .pure' _
  unfold instructionSignature readSignature
  by_cases hm : result.isMissing = true
  · simp only [if_pos hm]
    exact .bind' (.pure' _) rest
  · simp only [if_neg hm]
    exact .bind' (types result) rest

end Lower

/-! ## What lowering keeps -/

/-- The symbols name functions, definitions are bound to the functions of their symbols, and these
    have the types of the definitions. -/
structure Registry (c : Context) (F : Definitions) (s : State) : Prop where
  types : Materialized c.analysis.store (fun _ => False) s
  function : ∀ {name id}, s.symbols.lookup name = some id →
    ∃ f, s.module.funcs[id]? = some f ∧ f.name = name ∧ f.type.Resolves s.module.types
  bound : ∀ {h body id}, F h body → s.prototypes.lookup h.site.id = some (some id) →
    h.Active c ∧ s.symbols.lookup h.symbol = some id
  signature : ∀ {h body id f params result inactive}, F h body →
    s.prototypes.lookup h.site.id = some (some id) → s.module.funcs[id]? = some f →
    c.analysis.typeOfFunc h = .func params result inactive →
    ∃ r ps, readSignature c.analysis.store s.known params result = some (r, ps) ∧
      Ir.sameType s.module.types f.type (.func r ps) = true
  unbound : ∀ {h body}, F h body → s.prototypes.lookup h.site.id = some none → ¬h.Active c

namespace Registry

variable {c : Context} {F : Definitions} {s s' : State}

/-- The types that a signature is read to resolve in the module. -/
theorem resolves_readSignature (hm : Materialized c.analysis.store (fun _ => False) s)
    {params : List (String × Ty)} {result : Ty} {r : Ir.Ty} {ps : List Ir.Ty}
    (h : readSignature c.analysis.store s.known params result = some (r, ps)) :
    (Ir.Ty.func r ps).Resolves s.module.types :=
  readType_refs (fun id T (hk : s.known id = some T) => hm.refs hk) _ (.pointer (.func r ps))
    (readType_func false h)

/-- Functions are only added, or changed in what is not their name and not their type. -/
def KeepsTypes (s s' : State) : Prop :=
  ∀ (id : Ir.FuncId) (f : Ir.Function), s.module.funcs[id]? = some f →
    ∃ f', s'.module.funcs[id]? = some f' ∧ f'.name = f.name ∧ f'.type = f.type

theorem KeepsTypes.refl (s : State) : KeepsTypes s s := fun _ f hf => ⟨f, hf, rfl, rfl⟩

theorem KeepsTypes.trans {s'' : State} (h₁ : KeepsTypes s s') (h₂ : KeepsTypes s' s'') :
    KeepsTypes s s'' := by
  intro id f hf
  obtain ⟨f₁, hf₁, hn₁, ht₁⟩ := h₁ id f hf
  obtain ⟨f₂, hf₂, hn₂, ht₂⟩ := h₂ id f₁ hf₁
  exact ⟨f₂, hf₂, hn₂.trans hn₁, ht₂.trans ht₁⟩

theorem KeepsTypes.of_calm (h : Calm s s') : KeepsTypes s s' := by
  intro id f hf
  exact ⟨f, h.getElem?_funcs hf, rfl, rfl⟩

theorem KeepsTypes.modify {i : Ir.FuncId} {g : Ir.Function → Ir.Function}
    (hs : s'.module.funcs = s.module.funcs.modify i g)
    (hg : ∀ f, (g f).name = f.name ∧ (g f).type = f.type) : KeepsTypes s s' := by
  intro id f hf
  rw [hs, Array.getElem?_modify]
  split
  · exact ⟨g f, by rw [hf]; rfl, hg f⟩
  · exact ⟨f, hf, rfl, rfl⟩

/-- Steps that add types and functions and leave symbols and prototypes alone. -/
theorem grow (R : Registry c F s) (hm : Materialized c.analysis.store (fun _ => False) s')
    (hg : Grown s s') (hy : s'.symbols = s.symbols) (hp : s'.prototypes = s.prototypes)
    (hf : KeepsTypes s s') : Registry c F s' := by
  refine ⟨hm, ?_, ?_, ?_, ?_⟩
  · intro name id hn
    obtain ⟨f, hid, hname, href⟩ := R.function (hy ▸ hn)
    obtain ⟨f', hid', hn', ht'⟩ := hf id f hid
    exact ⟨f', hid', hn'.trans hname, ht' ▸ href.grown hg⟩
  · intro h body id hd hl
    rw [hp] at hl
    rw [hy]
    exact R.bound hd hl
  · intro h body id f' params result inactive hd hl hf' ht
    rw [hp] at hl
    obtain ⟨f, hid, -, href⟩ := R.function (R.bound hd hl).2
    obtain ⟨r, ps, hr, hs⟩ := R.signature hd hl hid ht
    obtain ⟨f'', hid', -, ht'⟩ := hf id f hid
    cases hid'.symm.trans hf'
    refine ⟨r, ps, lasts_readSignature params result _ _ _ hg.known hr, ?_⟩
    rw [ht', sameType_of_grown hg href (resolves_readSignature R.types hr)]
    exact hs
  · intro h body hd hl
    exact R.unbound hd (hp ▸ hl)

/-- Steps that leave types, symbols and prototypes alone. -/
theorem keep (R : Registry c F s) (hm : s'.mapped = s.mapped)
    (ht : s'.module.types = s.module.types) (hy : s'.symbols = s.symbols)
    (hp : s'.prototypes = s.prototypes) (hf : KeepsTypes s s') : Registry c F s' :=
  R.grow (R.types.congr hm ht) (.of_eq hm ht) hy hp hf

/-- A function under a free symbol. -/
theorem declare (R : Registry c F s) {f : Ir.Function} (hfree : s.symbols.lookup f.name = none)
    (href : f.type.Resolves s.module.types) : Registry c F (s.declare f) := by
  have kept : ∀ {name id}, s.symbols.lookup name = some id →
      (s.declare f).symbols.lookup name = some id := lookup_cons_of_fresh hfree
  have old : ∀ {id : Ir.FuncId} {g}, s.module.funcs[id]? = some g →
      (s.declare f).module.funcs[id]? = some g := getElem?_push_of_some
  refine ⟨R.types.congr rfl rfl, ?_, ?_, ?_, R.unbound⟩
  · intro name id hn
    rcases lookup_cons_cases hn with hn | ⟨rfl, rfl⟩
    · obtain ⟨g, hg, hname, hr⟩ := R.function hn
      exact ⟨g, old hg, hname, hr⟩
    · exact ⟨f, Array.getElem?_push_size, rfl, href⟩
  · intro h body id hd hl
    exact (R.bound hd hl).imp_right kept
  · intro h body id f' params result inactive hd hl hf' ht
    obtain ⟨g, hg, -, -⟩ := R.function (R.bound hd hl).2
    cases (old hg).symm.trans hf'
    exact R.signature hd hl hg ht

/-- What is noted for one definition leaves the others as they are. -/
theorem note (R : Registry c F s) (ident : F.Identified) {h : FuncHead} {body : Block}
    (hd : F h body) {p : Option Ir.FuncId} (hnone : p = none → ¬h.Active c)
    (hsome : ∀ id, p = some id → h.Active c ∧ s.symbols.lookup h.symbol = some id ∧
      ∀ f params result inactive, s.module.funcs[id]? = some f →
        c.analysis.typeOfFunc h = .func params result inactive →
        ∃ r ps, readSignature c.analysis.store s.known params result = some (r, ps) ∧
          Ir.sameType s.module.types f.type (.func r ps) = true) :
    Registry c F (s.note h.site.id p) := by
  have split : ∀ {h' body' q}, F h' body' →
      (s.note h.site.id p).prototypes.lookup h'.site.id = some q →
      (h' = h ∧ q = p) ∨ s.prototypes.lookup h'.site.id = some q := by
    intro h' body' q hd' hl
    rcases lookup_cons_cases hl with hl | ⟨he, rfl⟩
    · exact .inr hl
    · exact .inl ⟨(ident _ _ _ _ hd' hd he).1, rfl⟩
  refine ⟨R.types.congr rfl rfl, R.function, ?_, ?_, ?_⟩
  · intro h' body' id hd' hl
    rcases split hd' hl with ⟨rfl, hq⟩ | hl
    · exact ⟨(hsome id hq.symm).1, (hsome id hq.symm).2.1⟩
    · exact R.bound hd' hl
  · intro h' body' id f params result inactive hd' hl hf ht
    rcases split hd' hl with ⟨rfl, hq⟩ | hl
    · exact (hsome id hq.symm).2.2 f params result inactive hf ht
    · exact R.signature hd' hl hf ht
  · intro h' body' hd' hl
    rcases split hd' hl with ⟨rfl, hq⟩ | hl
    · exact hnone hq.symm
    · exact R.unbound hd' hl

/-- Definitions are bound to one function exactly if they have one symbol. -/
theorem eq_iff_symbol (R : Registry c F s) {d d' : FuncHead} {body body' : Block}
    {id id' : Ir.FuncId} (hd : F d body) (hd' : F d' body')
    (hp : s.prototypes.lookup d.site.id = some (some id))
    (hp' : s.prototypes.lookup d'.site.id = some (some id')) :
    id = id' ↔ d.symbol = d'.symbol := by
  have hy := (R.bound hd hp).2
  have hy' := (R.bound hd' hp').2
  constructor
  · rintro rfl
    obtain ⟨f, hf, hname, -⟩ := R.function hy
    obtain ⟨f', hf', hname', -⟩ := R.function hy'
    cases hf.symm.trans hf'
    exact hname.symm.trans hname'
  · intro he
    rw [he, hy'] at hy
    exact (Option.some.inj hy).symm

/-- The types of a bound definition are mapped, and its function has them. -/
theorem exists_types (R : Registry c F s) {d : FuncHead} {body : Block} {id : Ir.FuncId}
    (hd : F d body) (hp : s.prototypes.lookup d.site.id = some (some id)) :
    ∃ params result T f, c.analysis.typeOfFunc d = .func params result false ∧
      instructionSignature c params result s = .ok T s ∧ s.module.funcs[id]? = some f ∧
      Ir.sameType s.module.types f.type (.func T.1 T.2) = true := by
  obtain ⟨⟨-, params, result, ht⟩, hy⟩ := R.bound hd hp
  obtain ⟨f, hf, -, -⟩ := R.function hy
  obtain ⟨r, ps, hread, hsame⟩ := R.signature hd hp hf ht
  exact ⟨params, result, (r, ps), f, ht, recalls_instructionSignature c params result s _ hread, hf,
    hsame⟩

end Registry

/-! ## Lowering -/

namespace Lower

variable {c : Context} {F : Definitions} {s s' : State} {h : FuncHead} {body : Block} {u : Unit}

/-- The function that a definition declares with its types. -/
def prototypeOf (h : FuncHead) (result : Ir.Ty) (params : List Ir.Ty) : Ir.Function :=
  { name := h.symbol, result, params := (h.params.map Prod.fst).zip params }

theorem prototypeOf_type {result : Ir.Ty} {params : List Ir.Ty}
    (hlen : params.length = h.params.length) :
    (prototypeOf h result params).type = .func result params := by
  have hps : ((h.params.map Prod.fst).zip params).map Prod.snd = params :=
    List.map_snd_zip (by simp [hlen])
  rw [Ir.Function.type, prototypeOf, hps]

/-- The function of a symbol has the types it is declared with. -/
theorem declareSymbol_types {hasBody : Bool} {result : Ir.Ty} {params : List Ir.Ty}
    {id : Ir.FuncId} (hr : declareSymbol h hasBody result params s = .ok id s') :
    (s.symbols.lookup h.symbol = none ∧ id = s.module.funcs.size ∧
      s' = s.declare (prototypeOf h result params)) ∨
    (s.symbols.lookup h.symbol = some id ∧ s' = s ∧ ∃ f, s.module.funcs[id]? = some f ∧
      Ir.sameType s.module.types f.type (.func result params) = true) := by
  unfold declareSymbol at hr
  rw [get_bind_apply] at hr
  cases hl : s.symbols.lookup h.symbol with
  | none =>
    simp only [hl] at hr
    rcases ite_eq_ok.mp hr with ⟨-, hr⟩ | ⟨-, hr⟩
    · simp at hr
    · cases hr
      exact .inl ⟨rfl, rfl, rfl⟩
  | some id =>
    simp only [hl] at hr
    rcases ite_eq_ok.mp hr with ⟨-, hr⟩ | ⟨hb, hr⟩
    · simp at hr
    · obtain ⟨rfl, rfl⟩ := pure_eq_ok.mp hr
      simp only [Bool.or_eq_true, not_or, Bool.not_eq_true, Bool.not_eq_false'] at hb
      obtain ⟨f, hf, hsame⟩ := (Option.any_eq_true _ _).mp hb.2
      exact .inr ⟨rfl, rfl, f, hf, hsame⟩

theorem registry_declarePrototype (ident : F.Identified) (hd : F h body) (ha : h.Active c)
    {v : ObjectId} {sig : Signature}
    (htype : c.analysis.typeOfFunc h = .func sig.params sig.result sig.inactive)
    (hr : declarePrototype c h body v sig s = .ok u s') (R : Registry c F s) :
    Registry c F s' := by
  unfold declarePrototype at hr
  rcases ite_eq_ok.mp hr with ⟨-, hr⟩ | ⟨hlen, hr⟩
  · simp at hr
  obtain ⟨⟨r, ps⟩, s₁, h₁, hr⟩ := bind_eq_ok.mp hr
  obtain ⟨id, s₂, h₂, hr⟩ := bind_eq_ok.mp hr
  obtain ⟨hm₁, hg₁, hread⟩ := answers_instructionSignature c _ _ _ _ _ _ R.types h₁
  have calm := (steady_instructionSignature c _ _ _ _ _ h₁).2
  have R₁ : Registry c F s₁ := R.grow hm₁ hg₁ calm.symbols calm.prototypes (.of_calm calm)
  have noted : Registry c F (s₂.note h.site.id (some id)) := by
    rcases declareSymbol_types h₂ with ⟨hfree, rfl, rfl⟩ | ⟨hl, rfl, f, hf, hsame⟩
    · have htypes : (prototypeOf h r ps).type = .func r ps :=
        prototypeOf_type ((readSignature_length hread).trans (by omega))
      refine (R₁.declare hfree ?_).note ident hd (by simp) ?_
      · rw [htypes]
        exact Registry.resolves_readSignature hm₁ hread
      · intro id hid
        obtain rfl := Option.some.inj hid
        refine ⟨ha, List.lookup_cons_self, fun f params result inactive hf ht => ?_⟩
        obtain ⟨rfl, rfl, -⟩ := (Ty.func.injEq _ _ _ _ _ _).mp (htype.symm.trans ht)
        cases Array.getElem?_push_size.symm.trans hf
        exact ⟨r, ps, hread, htypes ▸ Ir.sameType_refl _ _⟩
    · refine R₁.note ident hd (by simp) fun id' hid => ?_
      obtain rfl := Option.some.inj hid
      refine ⟨ha, hl, fun f' params result inactive hf' ht => ?_⟩
      obtain ⟨rfl, rfl, -⟩ := (Ty.func.injEq _ _ _ _ _ _).mp (htype.symm.trans ht)
      cases hf.symm.trans hf'
      exact ⟨r, ps, hread, hsame⟩
  cases hr
  exact noted.keep rfl rfl rfl rfl fun _ f hf => ⟨f, hf, rfl, rfl⟩

theorem registry_enterPrototype (ident : F.Identified) (hd : F h body) :
    Always (Preserves (Registry c F)) (enterPrototype c h body) := by
  intro s u s' hr R
  unfold enterPrototype at hr
  obtain ⟨sig, s₁, hsig, hr⟩ := bind_eq_ok.mp hr
  have htype := (signatureOf_eq_ok hsig).2
  cases asks_signatureOf c h _ _ _ hsig
  rcases ite_eq_ok.mp hr with ⟨hskip, hr⟩ | ⟨hactive, hr⟩
  · have inactive : ¬h.Active c := by
      rintro ⟨hdecl, params, result, ht⟩
      obtain ⟨-, -, hi⟩ := (Ty.func.injEq _ _ _ _ _ _).mp (htype.symm.trans ht)
      simp [hdecl, hi] at hskip
    have noted : Registry c F (s.note h.site.id none) :=
      R.note ident hd (fun _ => inactive) (by simp)
    cases hr
    exact noted.keep rfl rfl rfl rfl fun _ f hf => ⟨f, hf, rfl, rfl⟩
  · have ha : h.Active c := by
      simp only [Bool.or_eq_true, not_or, Bool.not_eq_true] at hactive
      exact ⟨hactive.2, _, _, hactive.1 ▸ htype⟩
    obtain ⟨v, s₂, hv, hr⟩ := bind_eq_ok.mp hr
    cases asks_variableAt c _ _ _ _ _ hv
    rcases ite_eq_ok.mp hr with ⟨-, hr⟩ | ⟨-, hr⟩
    · rcases ite_eq_ok.mp hr with ⟨-, hr⟩ | ⟨-, hr⟩
      · simp at hr
      · rw [report_bind_apply] at hr
        exact registry_declarePrototype ident hd ha htype hr
          (R.keep rfl rfl rfl rfl fun _ f hf => ⟨f, hf, rfl, rfl⟩)
    · exact registry_declarePrototype ident hd ha htype hr R

theorem registry_instructionType (t : Ty) :
    Always (Preserves (Registry c F)) (instructionType c t) := by
  intro s T s' h R
  obtain ⟨hm, hg, -⟩ := answers_instructionTypeWithin _ _ _ t s T s' R.types h
  have calm := (steady_instructionType c t s T s' h).2
  exact R.grow hm hg calm.symbols calm.prototypes (.of_calm calm)

/-- Declaring the copy intrinsic leaves the table and the type definitions as they are. -/
theorem copyIntrinsic_types {v : Ir.Value} (h : copyIntrinsic s = .ok v s') :
    s'.mapped = s.mapped ∧ s'.module.types = s.module.types := by
  unfold copyIntrinsic at h
  rw [get_bind_apply] at h
  cases hn : s.memcpy with
  | none =>
    simp only [hn] at h
    cases h
    exact ⟨rfl, rfl⟩
  | some id =>
    simp only [hn, pure_eq_ok] at h
    exact h.2 ▸ ⟨rfl, rfl⟩

/-- The registry is kept by all of lowering. -/
theorem upholds_registry (ident : F.Identified) :
    Upholds c (fun n => ∀ h body, n = .funcDecl h body → F h body) (Registry c F) where
  body s _ R := R.keep rfl rfl rfl rfl fun _ f hf => ⟨f, hf, rfl, rfl⟩
  buffer _ _ _ := by
    intro s g s' h R
    cases h
    exact R.keep rfl rfl rfl rfl fun _ f hf => ⟨f, hf, rfl, rfl⟩
  content _ _ _ := .modify' fun _ R => R.keep rfl rfl rfl rfl fun _ f hf => ⟨f, hf, rfl, rfl⟩
  intern _ _ R := R.keep rfl rfl rfl rfl fun _ f hf => ⟨f, hf, rfl, rfl⟩
  copy := by
    intro s v s' h R
    have calm := (steady_copyIntrinsic s v s' h).2
    have same := copyIntrinsic_types h
    exact R.keep same.1 same.2 calm.symbols calm.prototypes (.of_calm calm)
  instructionType := registry_instructionType
  values _ _ R := R.keep rfl rfl rfl rfl fun _ f hf => ⟨f, hf, rfl, rfl⟩
  trace _ _ R := R.keep rfl rfl rfl rfl fun _ f hf => ⟨f, hf, rfl, rfl⟩
  begin s key id exported R := by
    refine R.keep rfl ?_ rfl rfl ?_
    · cases exported <;> rfl
    · cases exported with
      | true => exact .modify (g := fun f => { f with isExported := true }) rfl fun _ => ⟨rfl, rfl⟩
      | false => exact fun _ f hf => ⟨f, hf, rfl, rfl⟩
  install s outer R := R.keep rfl rfl rfl rfl
    (.modify (g := fun f => { f with blocks := s.body.closed }) rfl fun _ => ⟨rfl, rfl⟩)
  global _ _ _ := by
    intro s g s' h R
    cases h
    exact R.keep rfl rfl rfl rfl fun _ f hf => ⟨f, hf, rfl, rfl⟩
  prototype h body hn := registry_enterPrototype ident (hn h body rfl)

/-- In the beginning there is only the init function. -/
theorem registry_init {config : Config} {s : State} (hm : s.mapped = [])
    (ht : s.module.types = #[]) (hy : s.symbols = []) (hp : s.prototypes = []) :
    Registry c F (s.declare (initFunction config)) := by
  have empty : Registry c F s := by
    refine ⟨.start hm ht, ?_, ?_, ?_, ?_⟩ <;> intros <;> simp_all
  refine empty.declare (by simp [hy]) ?_
  intro r hr
  unfold initFunction at hr
  split at hr <;> simp [Ir.Function.type, Ir.Ty.refs, Ir.Ty.refsAll, Abi.libraryParams,
    Ir.Ty.bytePointer] at hr

end Lower

/-- Every definition of a unit that is compiled in, has a symbol and was declared is bound to a
    function with exactly the name of its symbol. Two of them are bound to one function exactly if
    they have one symbol; then their types are the same, and at most one of them has a body. The
    init function is never that of a definition with a body. -/
theorem lowerUnit_symbols (analysis : Analysis) (config : Config) (decls : List Node)
    (m : Ir.Module) (ident : (definitionsOf decls).Identified)
    (h : (lowerUnit analysis config decls).result = .ok m) :
    ∃ s, Lower.wholeUnit ⟨analysis, config⟩ decls { module := { triple := config.triple } } =
        .ok () s ∧ s.module = m ∧
      (∀ d body, definitionsOf decls d body → d.Active ⟨analysis, config⟩ →
        (s.prototypes.lookup d.site.id).isSome →
        ∃ id f, s.prototypes.lookup d.site.id = some (some id) ∧ m.funcs[id]? = some f ∧
          f.name = d.symbol) ∧
      (∀ d body id d' body' id', definitionsOf decls d body → definitionsOf decls d' body' →
        s.prototypes.lookup d.site.id = some (some id) →
        s.prototypes.lookup d'.site.id = some (some id') →
        (id = id' ↔ d.symbol = d'.symbol) ∧
        (id = id' →
          (∃ params result params' result' T T',
            analysis.typeOfFunc d = .func params result false ∧
            analysis.typeOfFunc d' = .func params' result' false ∧
            instructionSignature ⟨analysis, config⟩ params result s = .ok T s ∧
            instructionSignature ⟨analysis, config⟩ params' result' s = .ok T' s ∧
            Ir.sameType m.types (.func T.1 T.2) (.func T'.1 T'.2) = true) ∧
          (d.hasBody body = true → d'.hasBody body' = true → d = d' ∧ body = body'))) ∧
      (∃ f, s.symbols.lookup Abi.initFunction = some 0 ∧ m.funcs[0]? = some f ∧
        f.name = Abi.initFunction) ∧
      ∀ d body id, definitionsOf decls d body → d.hasBody body = true →
        s.prototypes.lookup d.site.id = some (some id) → id ≠ 0 := by
  obtain ⟨s, hs, rfl⟩ := lowerUnit_eq_ok h
  have R : Registry ⟨analysis, config⟩ (definitionsOf decls) s :=
    (upholds_registry ident).wholeUnit (fun n hn d body he => by rwa [definitionsOf, ← he]) hs
      (registry_init rfl rfl rfl rfl)
  have L : Ledger ⟨analysis, config⟩ (definitionsOf decls) s :=
    (Lower.wholeUnit_books (K := fun _ => True) ident
      (fun n hn => ⟨fun d body he => by rwa [definitionsOf, ← he], fun _ _ _ _ => .inr fun _ =>
        trivial⟩) rfl rfl rfl rfl hs).ledger
  refine ⟨s, hs, rfl, ?_, ?_, ?_, ?_⟩
  · intro d body hd ha hsome
    obtain ⟨p, hp⟩ := Option.isSome_iff_exists.mp hsome
    cases p with
    | none => exact absurd ha (R.unbound hd hp)
    | some id =>
      obtain ⟨f, hf, hname, -⟩ := R.function (R.bound hd hp).2
      exact ⟨id, f, hp, hf, hname⟩
  · intro d body id d' body' id' hd hd' hp hp'
    refine ⟨R.eq_iff_symbol hd hd' hp hp', ?_⟩
    rintro rfl
    constructor
    · obtain ⟨params, result, T, f, ht, hT, hf, hsame⟩ := R.exists_types hd hp
      obtain ⟨params', result', T', f', ht', hT', hf', hsame'⟩ := R.exists_types hd' hp'
      cases hf.symm.trans hf'
      exact ⟨params, result, params', result', T, T', ht, ht', hT, hT',
        Ir.sameType_trans (Ir.sameType_symm hsame) hsame'⟩
    · intro hb hb'
      have he := (R.eq_iff_symbol hd hd' hp hp').mp rfl
      have owner : Owns (definitionsOf decls) s d id := ⟨⟨body, hd, hb⟩, hp⟩
      have owner' : Owns (definitionsOf decls) s d' id := ⟨⟨body', hd', hb'⟩, hp'⟩
      exact ident _ _ _ _ hd hd' (L.single d d' id id owner owner' he)
  · obtain ⟨f, hf, hname, -⟩ := R.function L.init
    exact ⟨f, L.init, hf, hname⟩
  · rintro d body id hd hb hp rfl
    have owner := L.symbol d 0 ⟨⟨body, hd, hb⟩, hp⟩
    exact owner.2 (L.inj _ _ 0 owner.1 L.init)

/-- The two functions of `twoFunctions` with the types of both definitions recorded. -/
def aliasFunctions : Analysis :=
  { twoFunctions with
    facts := { types := [(some 1, .func [] .missing false), (some 3, .func [] .missing false)] } }

/-- The function `outer` of `aliasUnit`. -/
def outerHead : FuncHead := { site := { id := 1 }, name := "outer" }

/-- A function `inner` without a body whose symbol is that of `outer`. -/
def aliasHead : FuncHead :=
  { site := { id := 3 }, name := "inner", externalName := "outer", isExternal := true }

/-- The function `outer`, in which its own symbol is declared again under another name. -/
def aliasUnit : List Node :=
  [.funcDecl outerHead (.mk { id := 2 } [.funcDecl aliasHead .missing])]

theorem mem_definitionsOf_aliasUnit {h : FuncHead} {body : Block} :
    definitionsOf aliasUnit h body ↔
      (h = outerHead ∧ body = .mk { id := 2 } [.funcDecl aliasHead .missing]) ∨
        h = aliasHead ∧ body = .missing := by
  simp [definitionsOf, aliasUnit, Node.partsAll, Node.parts, Block.parts]

theorem lowerUnit_symbols_aliasUnit :
    (definitionsOf aliasUnit).Identified ∧
      ∃ m, (lowerUnit aliasFunctions {} aliasUnit).result = .ok m ∧
        ∃ s, Lower.wholeUnit ⟨aliasFunctions, {}⟩ aliasUnit {} = .ok () s ∧ s.module = m ∧
          s.prototypes.lookup outerHead.site.id = some (some 1) ∧
          s.prototypes.lookup aliasHead.site.id = some (some 1) ∧
          outerHead.symbol = aliasHead.symbol ∧
          (∃ f, m.funcs[1]? = some f ∧ f.name = outerHead.symbol) ∧
          ∃ T T', instructionSignature ⟨aliasFunctions, {}⟩ [] .missing s = .ok T s ∧
            instructionSignature ⟨aliasFunctions, {}⟩ [] .missing s = .ok T' s ∧
            Ir.sameType m.types (.func T.1 T.2) (.func T'.1 T'.2) = true := by
  have identified : (definitionsOf aliasUnit).Identified := by
    intro h body h' body' hd hd' he
    rcases mem_definitionsOf_aliasUnit.mp hd with ⟨rfl, rfl⟩ | ⟨rfl, rfl⟩ <;>
      rcases mem_definitionsOf_aliasUnit.mp hd' with ⟨rfl, rfl⟩ | ⟨rfl, rfl⟩
    · exact ⟨rfl, rfl⟩
    · exact absurd he (by decide)
    · exact absurd he (by decide)
    · exact ⟨rfl, rfl⟩
  have lowered : ∃ m ∈ (lowerUnit aliasFunctions {} aliasUnit).result.toOption, True := by
    decide +kernel
  have prototyped : ∃ s ∈ Lower.endState? (Lower.wholeUnit ⟨aliasFunctions, {}⟩ aliasUnit {}),
      s.prototypes.lookup outerHead.site.id = some (some 1) ∧
        s.prototypes.lookup aliasHead.site.id = some (some 1) := by decide +kernel
  obtain ⟨m, hm, -⟩ := lowered
  obtain ⟨s, hs, ho, hi⟩ := prototyped
  have hm := eq_ok_of_mem_toOption hm
  have hs := Lower.eq_ok_of_mem_endState? hs
  obtain ⟨s', hs', hmod, named, shared, -, -⟩ :=
    lowerUnit_symbols aliasFunctions {} aliasUnit m identified hm
  cases hs.symm.trans hs'
  have outer := mem_definitionsOf_aliasUnit.mpr (.inl ⟨rfl, rfl⟩)
  have inner := mem_definitionsOf_aliasUnit.mpr (.inr ⟨rfl, rfl⟩)
  obtain ⟨id, f, hid, hf, hname⟩ := named _ _ outer ⟨rfl, [], .missing, rfl⟩ (by simp [ho])
  cases ho.symm.trans hid
  obtain ⟨hiff, hsame⟩ := shared _ _ _ _ _ _ outer inner ho hi
  obtain ⟨⟨params, result, params', result', T, T', ht, ht', hT, hT', hTT⟩, -⟩ := hsame rfl
  cases ht
  cases ht'
  exact ⟨identified, m, hm, s, hs, hmod, ho, hi, hiff.mp rfl, ⟨f, hf, hname⟩, T, T', hT, hT', hTT⟩

end TreeLowering
