import TreeLowering.Proofs.Branches
import TreeLowering.Proofs.Consistency
import TreeLowering.Proofs.TypedModule

/-!
The init function. It runs the top-level code and then the entry function, the first definition at
the top level that is active and named like the entry (`entryDefinition?`).

When the declarations are done all top-level functions have been noted, with a function exactly if
they are active (`topCode_notes`), so the lookup finds that of the entry (`entryFunc_finds`), and it
takes as many parameters as its definition (`Registry.params_length`). What is left of the unit is a
call at the open block and its return (`runEntry_of_some`, `Body.Open.returnsAt`), or a rejection
if the entry takes parameters.
-/
namespace TreeLowering

open Lower

/-! ## The entry -/

/-- Whether a type is that of a function that is compiled in. -/
def Ty.isActive : Ty → Bool
  | .func _ _ inactive => !inactive
  | _ => false

theorem Ty.isActive_iff {t : Ty} :
    t.isActive = true ↔ ∃ params result, t = .func params result false := by
  cases t with
  | func params result inactive => cases inactive <;> simp [isActive]
  | _ => simp [isActive]

instance (c : Context) (h : FuncHead) : Decidable (h.Active c) :=
  decidable_of_iff (h.isTypeDecl = false ∧ (c.analysis.typeOfFunc h).isActive = true)
    (and_congr_right fun _ => Ty.isActive_iff)

/-- The function definitions at the top level of a unit, labels removed. -/
def topDefinitions (decls : List Node) : List FuncHead :=
  decls.filterMap fun n => n.unwrap.definition?

/-- The definition that the init function calls: the first one at the top level that is named like
    the entry and active. -/
def entryDefinition? (c : Context) (decls : List Node) : Option FuncHead :=
  (topDefinitions decls).find? fun h => h.name = c.config.entry ∧ h.Active c

/-- The functions in emission order are those of the declarations. -/
theorem funcs_emissionOrder (a : Analysis) (inSpace : Bool) (decls : List Node) :
    (emissionOrder a inSpace decls).funcs.map Prod.fst = topDefinitions decls := by
  rw [emissionOrder_eq, List.map_filterMap]
  refine List.filterMap_congr fun n _ => ?_
  unfold Node.funcDecl?
  cases n.unwrap <;> rfl

/-! ## Its function -/

/-- The function of a definition takes as many parameters as the type of the definition. -/
theorem Registry.params_length {c : Context} {F : Definitions} {s : State} {h : FuncHead}
    {body : Block} {id : Ir.FuncId} {f : Ir.Function} {params : List (String × Ty)} {result : Ty}
    {inactive : Bool} (R : Registry c F s) (hd : F h body)
    (hp : s.prototypes.lookup h.site.id = some (some id)) (hf : s.module.funcs[id]? = some f)
    (ht : c.analysis.typeOfFunc h = .func params result inactive) :
    f.params.length = params.length := by
  obtain ⟨r, ps, hr, same⟩ := R.signature hd hp hf ht
  rw [← Lower.readSignature_length hr, ← Ir.length_eq_of_sameType same, List.length_map]

/-- The body after a call of a function without arguments. -/
def Body.invoke (b : Body) (f : Ir.Function) (id : Ir.FuncId) : Body :=
  b.emit (.call (f.value id) []) f.result

@[simp] theorem Body.invoke_cursor (b : Body) (f : Ir.Function) (id : Ir.FuncId) :
    (b.invoke f id).cursor = b.cursor := emit_cursor _ _ _

theorem Body.invoke_congr (b : Body) {f f' : Ir.Function} (h : f'.type = f.type)
    (id : Ir.FuncId) : b.invoke f' id = b.invoke f id := by
  rw [invoke, Ir.Function.value_congr h, (Ir.Function.type_inj h).1, invoke]

/-- If it is compiled in, a definition has as many parameters as its type. -/
def FuncHead.Fits (c : Context) (h : FuncHead) : Prop :=
  h.isTypeDecl = false → ∀ params result,
    c.analysis.typeOfFunc h = .func params result false → h.params.length = params.length

namespace Lower

variable {c : Context} {s s' : State} {u : Unit}

/-! ## Prototypes -/

theorem enterPrototype_keepsNoted {h : FuncHead} {body : Block} {key : NodeId}
    (hr : enterPrototype c h body s = .ok u s') (hk : (s.prototypes.lookup key).isSome) :
    (s'.prototypes.lookup key).isSome := by
  have noted : ∃ f, s'.prototypes = (h.site.id, f) :: s.prototypes := by
    obtain ⟨-, ⟨-, -, hp⟩ | ⟨-, -, id, -, -, hp⟩⟩ := enterPrototype_eq_ok hr
    · exact ⟨none, hp⟩
    · exact ⟨some id, hp⟩
  obtain ⟨f, hp⟩ := noted
  rw [hp, List.lookup_cons]
  split
  · rfl
  · exact hk

/-- An active definition gets a prototype only if it has as many parameters as its type. -/
theorem enterPrototype_arity {h : FuncHead} {body : Block} {params : List (String × Ty)}
    {result : Ty} (hr : enterPrototype c h body s = .ok u s') (hdecl : h.isTypeDecl = false)
    (ht : c.analysis.typeOfFunc h = .func params result false) :
    h.params.length = params.length := by
  unfold enterPrototype at hr
  obtain ⟨sig, s₁, hsig, hr⟩ := bind_eq_ok.mp hr
  obtain ⟨rfl, -, hi⟩ := (Ty.func.injEq _ _ _ _ _ _).mp ((signatureOf_eq_ok hsig).2.symm.trans ht)
  rw [if_neg (by simp [hi, hdecl])] at hr
  obtain ⟨v, s₂, -, hr⟩ := bind_eq_ok.mp hr
  have declared : ∀ {s}, declarePrototype c h body v sig s = .ok u s' →
      h.params.length = sig.params.length := by
    intro s hd
    unfold declarePrototype at hd
    rcases ite_eq_ok.mp hd with ⟨-, hd⟩ | ⟨hlen, -⟩
    · simp at hd
    · simpa using hlen
  -- With or without a result type, the prototype is declared.
  rcases ite_eq_ok.mp hr with ⟨-, hr⟩ | ⟨-, hr⟩
  · rcases ite_eq_ok.mp hr with ⟨-, hr⟩ | ⟨-, hr⟩
    · simp at hr
    · exact declared hr
  · exact declared hr

/-- Definitions that were noted stay noted. -/
theorem upholds_noted (c : Context) (key : NodeId) :
    Upholds c (fun _ => True) fun s => (s.prototypes.lookup key).isSome where
  toTolerant := .of_calm fun calm hk => by simpa only [calm.prototypes] using hk
  values _ _ hk := hk
  trace _ _ hk := hk
  begin _ _ _ _ hk := hk
  install _ _ hk := hk
  global _ _ _ s g s' h hk := by
    simpa only [(steady_addGlobal _ _ s g s' h).2.prototypes] using hk
  prototype _ _ _ _ _ _ := enterPrototype_keepsNoted

/-- The prototypes of a list are all noted, and those of active definitions fit their types. -/
theorem prototypes_note : ∀ {funcs : List (FuncHead × Block)} {s s' : State} {u : PUnit},
    (funcs.forM fun (h, body) => enterPrototype c h body) s = .ok u s' →
    ∀ p ∈ funcs, (s'.prototypes.lookup p.1.site.id).isSome ∧ p.1.Fits c
  | [], _, _, _, _, _, hp => nomatch hp
  | (h, body) :: funcs, s, s', u, hr, p, hp => by
    obtain ⟨_, s₁, h₁, h₂⟩ := bind_eq_ok.mp hr
    rcases List.mem_cons.mp hp with rfl | hp
    · have later : Always (Preserves fun s => (s.prototypes.lookup h.site.id).isSome)
          (funcs.forM fun (h, body) => enterPrototype c h body) :=
        .forM_mem fun _ _ _ _ _ => enterPrototype_keepsNoted
      exact ⟨later _ _ _ h₂ (enterPrototype_notes h₁),
        fun hdecl _ _ => enterPrototype_arity h₁ hdecl⟩
    · exact prototypes_note h₂ p hp

/-- When the declarations are done, every function at the top level has been noted. -/
theorem topCode_notes {decls : List Node} (h : topCode c decls s = .ok u s') :
    ∀ p ∈ (emissionOrder c.analysis false decls).funcs,
      (s'.prototypes.lookup p.1.site.id).isSome ∧ p.1.Fits c := by
  intro p hp
  obtain ⟨_, s₁, h₁, h₂⟩ := bind_eq_ok.mp h
  obtain ⟨_, s₂, protos, vars⟩ := bind_eq_ok.mp h₁
  obtain ⟨noted, fits⟩ := prototypes_note protos p hp
  -- What comes after the prototypes keeps what was noted.
  have t := upholds_noted c p.1.site.id
  have leading : Always (Preserves fun s => (s.prototypes.lookup p.1.site.id).isSome) (do
      (emissionOrder c.analysis false decls).consts.forM (defineVariable c)
      (emissionOrder c.analysis false decls).globals.forM (defineVariable c)) :=
    .bind' (.forM_mem fun d _ => t.varDecl d trivial) fun _ =>
      .forM_mem fun d _ => t.varDecl d trivial
  have walked := t.completes.walks.eachStatement decls fun _ _ => trivial
  have statements := (walked_statementsWhere walked (takesTurn c.analysis false)).of_live
    (realizes_statementsWhere c _ decls)
  exact ⟨statements _ _ _ h₂ (leading _ _ _ vars noted), fits⟩

/-- A property that lowering keeps holds when the declarations are done. -/
theorem Upholds.topCode {U : Node → Prop} {P : State → Prop} (t : Upholds c U P)
    {decls : List Node} (hn : ∀ m ∈ Node.partsAll decls, U m) (hl : s.body.cursor.isSome)
    (h : topCode c decls s = .ok u s') (hp : P s) : P s' :=
  t.completes.declarations hn (t.completes.walks.eachStatement decls hn) s u s' h hl hp

/-! ## The call -/

/-- The entry that is looked up is the first definition that has its name and is active. -/
theorem entryFunc_finds {funcs : List (FuncHead × Block)}
    (noted : ∀ p ∈ funcs, ∃ f, s.prototypes.lookup p.1.site.id = some f ∧
      (f.isSome ↔ p.1.Active c)) :
    ∃ found, entryFunc c funcs s = .ok found s ∧ found.map Prod.fst =
      (funcs.map Prod.fst).find? fun h => h.name = c.config.entry ∧ h.Active c := by
  induction funcs with
  | nil => exact ⟨none, rfl, rfl⟩
  | cons p rest ih =>
    obtain ⟨h, body⟩ := p
    obtain ⟨found, hrest, hfound⟩ := ih fun p hp => noted p (List.mem_cons_of_mem _ hp)
    obtain ⟨f, hf, active⟩ := noted _ List.mem_cons_self
    unfold entryFunc
    by_cases hname : h.name = c.config.entry
    · rw [if_pos hname, get_bind_apply]
      cases f with
      | some id =>
        have ha : h.Active c := active.mp rfl
        refine ⟨some (h, id), by simp only [hf]; rfl, ?_⟩
        simp [hname, ha]
      | none =>
        have ha : ¬h.Active c := fun ha => by simpa using active.mpr ha
        refine ⟨found, by simpa only [hf] using hrest, ?_⟩
        simpa [ha] using hfound
    · rw [if_neg hname]
      refine ⟨found, hrest, ?_⟩
      simpa [hname] using hfound

theorem runEntry_of_none {funcs : List (FuncHead × Block)} (h : entryFunc c funcs s = .ok none s) :
    runEntry c funcs s = .ok () s := by
  unfold runEntry
  rw [bind_of_ok h]
  rfl

/-- The entry function is called without arguments, at the place where the top-level code ends. -/
theorem runEntry_of_some {funcs : List (FuncHead × Block)} {h : FuncHead} {id : Ir.FuncId}
    {f : Ir.Function} (he : entryFunc c funcs s = .ok (some (h, id)) s)
    (hf : s.module.funcs[id]? = some f) (hl : s.body.cursor.isSome) :
    runEntry c funcs s =
      if f.params = [] then .ok () (s.setBody (s.body.invoke f id))
      else .error (.rejected h.site.position (.entryWithParameters c.config.entry)) s := by
  have call : discard (callAt .cursor (f.value id) []) s =
      .ok () (s.setBody (s.body.invoke f id)) :=
    discard_eq_ok.mpr ⟨_, emitAt_cursor_eq_ok.mpr ⟨hl, rfl, rfl⟩⟩
  unfold runEntry
  rw [bind_of_ok he]
  simp only [get_bind_apply, hf, Option.getD_some, List.isEmpty_iff]
  split
  · exact call
  · rfl

/-! ## Top-level code -/

/-- The state in which the top-level code of a unit begins, after some reports. -/
def opening (config : Config) (trace : List Event) : State :=
  (State.declare { module := { triple := config.triple }, trace } (initFunction config)).setBody
    { fn := 0 }

theorem topLevel_of_topCode {decls : List Node} {s₁ : State} (h : topCode c decls s = .ok () s₁)
    (hl : s₁.body.cursor.isSome) : topLevel c decls s = (do
      runEntry c (emissionOrder c.analysis false decls).funcs
      terminate (.ret (initResult c.config))) s₁ := by
  have falls : ¬s₁.body.cursor.isNone := by simpa [Option.isSome_iff_ne_none] using hl
  rw [topLevel_eq, bind_of_ok h, get_bind_apply, if_neg falls]

theorem terminate_of_live {t : Ir.Term} (hl : s.body.cursor.isSome) :
    terminate t s = .ok () (s.setBody (s.body.finish t)) := terminate_eq_ok.mpr ⟨hl, rfl⟩

/-- The function that is found for the entry has the symbol of its definition, and takes as many
    parameters. -/
theorem entryFunc_of_topCode {decls : List Node} {s₀ : State} (h : topCode c decls s₀ = .ok () s)
    (R : Registry c (definitionsOf decls) s) :
    (entryDefinition? c decls = none ∧
      entryFunc c (emissionOrder c.analysis false decls).funcs s = .ok none s) ∨
    ∃ d id f, entryDefinition? c decls = some d ∧
      entryFunc c (emissionOrder c.analysis false decls).funcs s = .ok (some (d, id)) s ∧
      s.prototypes.lookup d.site.id = some (some id) ∧ s.module.funcs[id]? = some f ∧
      f.name = d.symbol ∧ f.params.length = d.params.length := by
  have notes := topCode_notes h
  have defined : ∀ p ∈ (emissionOrder c.analysis false decls).funcs,
      definitionsOf decls p.1 p.2 := by
    intro p hp
    obtain ⟨n, hn, he⟩ := mem_funcs_emissionOrder.mp hp
    exact (he ▸ Node.unwrap_mem_partsAll hn : .funcDecl p.1 p.2 ∈ Node.partsAll decls)
  have noted : ∀ p ∈ (emissionOrder c.analysis false decls).funcs,
      ∃ f, s.prototypes.lookup p.1.site.id = some f ∧ (f.isSome ↔ p.1.Active c) := by
    intro p hp
    obtain ⟨f, hf⟩ := Option.isSome_iff_exists.mp (notes p hp).1
    refine ⟨f, hf, ?_⟩
    cases f with
    | none => simpa using R.unbound (defined p hp) hf
    | some id => simpa using (R.bound (defined p hp) hf).1
  obtain ⟨found, hr, hfound⟩ := entryFunc_finds noted
  rw [funcs_emissionOrder] at hfound
  cases found with
  | none => exact .inl ⟨hfound.symm, hr⟩
  | some p =>
    obtain ⟨d, id⟩ := p
    have proto := entryFunc_eq_ok hr
    have top : d ∈ topDefinitions decls := List.mem_of_find?_eq_some hfound.symm
    rw [← funcs_emissionOrder c.analysis false] at top
    obtain ⟨⟨d', body⟩, hp, rfl⟩ := List.mem_map.mp top
    obtain ⟨⟨hdecl, params, result, ht⟩, hsym⟩ := R.bound (defined _ hp) proto
    obtain ⟨f, hf, hname, -⟩ := R.function hsym
    refine .inr ⟨d', id, f, hfound.symm, hr, proto, hf, hname, ?_⟩
    calc f.params.length
        = params.length := R.params_length (defined _ hp) proto hf ht
      _ = d'.params.length := ((notes _ hp).2 hdecl params result ht).symm

/-- What is left of a unit when the declarations are done: without an entry the return, and with one
    the call before it, if the function takes no parameters. -/
theorem topLevel_ends {decls : List Node} {trace : List Event}
    (ident : (definitionsOf decls).Identified)
    (h : topCode c decls (opening c.config trace) = .ok () s) :
    (s.body.fn = 0 ∧ ∃ before last after, s.body.Open before last after) ∧
    ((entryDefinition? c decls = none ∧ topLevel c decls (opening c.config trace) =
        .ok () (s.setBody (s.body.finish (.ret (initResult c.config))))) ∨
      ∃ d id f, entryDefinition? c decls = some d ∧
        s.prototypes.lookup d.site.id = some (some id) ∧ s.module.funcs[id]? = some f ∧
        f.name = d.symbol ∧ f.params.length = d.params.length ∧
        topLevel c decls (opening c.config trace) =
          if f.params = [] then
            .ok () (s.setBody ((s.body.invoke f id).finish (.ret (initResult c.config))))
          else .error (.rejected d.site.position (.entryWithParameters c.config.entry)) s) := by
  have live : s.body.cursor.isSome := declarations_fallThrough ⟨rfl, rfl, rfl⟩ h
  have R : Registry c (definitionsOf decls) s := by
    have started : Registry c (definitionsOf decls) (opening c.config trace) :=
      (registry_init rfl rfl rfl rfl).keep rfl rfl rfl rfl (.refl _)
    exact (upholds_registry ident).topCode
      (fun n hn d body he => by rwa [definitionsOf, ← he]) rfl h started
  refine ⟨topCode_opens h live, ?_⟩
  rw [topLevel_of_topCode h live]
  rcases entryFunc_of_topCode h R with ⟨hd, he⟩ | ⟨d, id, f, hd, he, proto, hf, hname, hlen⟩
  · refine .inl ⟨hd, ?_⟩
    rw [bind_of_ok (runEntry_of_none he)]
    exact terminate_of_live live
  · refine .inr ⟨d, id, f, hd, proto, hf, hname, hlen, ?_⟩
    have run := runEntry_of_some he hf live
    split
    · rename_i hps
      rw [if_pos hps] at run
      rw [bind_of_ok run]
      exact terminate_of_live (by simpa using live)
    · rename_i hps
      rw [if_neg hps] at run
      exact bind_eq_error.mpr (.inl run)

/-- Where the entry has parameters, the unit is rejected for it if for nothing before. -/
theorem topLevel_rejects {decls : List Node} {d : FuncHead}
    (ident : (definitionsOf decls).Identified) (hd : entryDefinition? c decls = some d)
    (hps : d.params ≠ []) (trace : List Event) :
    ∃ fault s, topLevel c decls (opening c.config trace) = .error fault s ∧
      (fault = .rejected d.site.position (.entryWithParameters c.config.entry) ∨
        topCode c decls (opening c.config trace) = .error fault s) := by
  cases code : topCode c decls (opening c.config trace) with
  | error fault s =>
    refine ⟨fault, s, ?_, .inr rfl⟩
    rw [topLevel_eq]
    exact bind_eq_error.mpr (.inl code)
  | ok u s =>
    obtain ⟨-, ⟨hnone, -⟩ | ⟨d', id, f, hd', -, -, -, hlen, run⟩⟩ := topLevel_ends ident code
    · cases hd.symm.trans hnone
    · cases hd.symm.trans hd'
      have hf : f.params ≠ [] := by
        rintro he
        rw [he] at hlen
        exact hps (List.eq_nil_of_length_eq_zero hlen.symm)
      rw [if_neg hf] at run
      exact ⟨_, s, run, .inl rfl⟩

/-- A body that returns at its open block and is installed is that of its function. -/
theorem install_returns {outer b : Body} {before after : List Ir.Block} {last : Ir.Block}
    {fn : Ir.FuncId} {f : Ir.Function} (hopen : b.Open before last after) (hfn : b.fn = fn)
    (value : Option Ir.Value)
    (hf : ((s.setBody (b.finish (.ret value))).install outer).module.funcs[fn]? = some f) :
    f.blocks = (b.finish (.ret value)).closed ∧
      Ir.ReturnsAt f.blocks { last with term := some (.ret value) } value := by
  have blocks : f.blocks = (b.finish (.ret value)).closed := by
    change (s.module.funcs.modify (b.finish (.ret value)).fn fun f =>
      { f with blocks := (b.finish (.ret value)).closed })[fn]? = some f at hf
    rw [Array.getElem?_modify, if_pos (by rw [Body.finish_fn, hfn])] at hf
    obtain ⟨f₀, -, rfl⟩ := Option.map_eq_some_iff.mp hf
    rfl
  exact ⟨blocks, blocks ▸ hopen.returnsAt value⟩

/-! ## The name of the init function -/

/-- Every function but the copy intrinsic is that of its name in the table of symbols. -/
def Listed (s : State) : Prop := ∀ (i : Ir.FuncId) (f : Ir.Function),
  s.module.funcs[i]? = some f → f.name = Abi.memcpy ∨ s.symbols.lookup f.name = some i

namespace Listed

theorem declare {f : Ir.Function} (l : Listed s) (hfree : s.symbols.lookup f.name = none) :
    Listed (s.declare f) := by
  intro i g hg
  rcases getElem?_push_cases hg with hg | ⟨rfl, rfl⟩
  · exact (l i g hg).imp_right (lookup_cons_of_fresh hfree)
  · exact .inr List.lookup_cons_self

theorem modify {i : Ir.FuncId} {g : Ir.Function → Ir.Function} (l : Listed s)
    (hs : s'.module.funcs = s.module.funcs.modify i g) (hy : s'.symbols = s.symbols)
    (hg : ∀ f, (g f).name = f.name) : Listed s' := by
  intro j f hf
  rw [hs, Array.getElem?_modify] at hf
  rw [hy]
  split at hf
  · obtain ⟨f₀, hf₀, rfl⟩ := Option.map_eq_some_iff.mp hf
    rw [hg]
    exact l j f₀ hf₀
  · exact l j f hf

end Listed

theorem listed_copyIntrinsic : Always (Preserves Listed) copyIntrinsic := by
  intro s v s' h l
  unfold copyIntrinsic at h
  rw [get_bind_apply] at h
  cases hn : s.memcpy with
  | none =>
    simp only [hn] at h
    cases h
    intro i g hg
    rcases getElem?_push_cases hg with hg | ⟨-, rfl⟩
    · exact l i g hg
    · exact .inl rfl
  | some id =>
    simp only [hn, pure_eq_ok] at h
    exact h.2 ▸ l

theorem listed_declareSymbol (h : FuncHead) (hasBody : Bool) (result : Ir.Ty)
    (params : List Ir.Ty) : Always (Preserves Listed) (declareSymbol h hasBody result params) := by
  intro s id s' hr l
  rcases declareSymbol_eq_ok hr with ⟨hfree, -, f, hname, -, -, rfl⟩ | ⟨-, -, rfl⟩
  · exact l.declare (hname ▸ hfree)
  · exact l

theorem tolerant_listed (c : Context) : Tolerant c (Preserves Listed) where
  body _ _ l := l
  buffer _ _ _ := by
    intro s g s' h l
    cases h
    exact l
  content _ _ _ := .modify' fun _ l => l
  intern _ _ l := l
  copy := listed_copyIntrinsic
  instructionType := by
    refine always_instructionType (fun _ _ l => l) (fun id o _ s t s' h l => ?_) fun t ts => ?_
    · cases h
      exact l
    · unfold setFields
      split
      · exact .modify' fun _ l => l
      · exact .pure' _

theorem upholds_listed (c : Context) : Upholds c (fun _ => True) Listed where
  toTolerant := tolerant_listed c
  values _ _ l := l
  trace _ _ l := l
  begin s key id exported l := by
    cases exported with
    | true => exact l.modify (g := fun f => { f with isExported := true }) rfl rfl fun _ => rfl
    | false => exact l
  install s outer l :=
    l.modify (g := fun f => { f with blocks := s.body.closed }) rfl rfl fun _ => rfl
  global _ _ _ := by
    intro s g s' h l
    cases h
    exact l
  prototype h _ _ := (tolerant_listed c).touches.enterPrototype (fun _ _ l => l) (fun _ _ l => l)
    (fun _ _ l => l) (listed_declareSymbol h)

/-- The init function comes first, and no other function has its name. -/
theorem wholeUnit_init {decls : List Node} (ident : (definitionsOf decls).Identified)
    (hm : s.mapped = []) (ht : s.module.types = #[]) (hf : s.module.funcs = #[])
    (hy : s.symbols = []) (hp : s.prototypes = []) (hl : s.lowered = [])
    (h : wholeUnit c decls s = .ok u s') :
    (∃ f, s'.module.funcs[0]? = some f ∧ f.name = Abi.initFunction) ∧
      ∀ (i : Ir.FuncId) (f : Ir.Function), s'.module.funcs[i]? = some f →
        f.name = Abi.initFunction → i = 0 := by
  have R : Registry c (definitionsOf decls) s' :=
    (upholds_registry ident).wholeUnit (fun n hn d body he => by rwa [definitionsOf, ← he]) h
      (registry_init hm ht hy hp)
  have L : Ledger c (definitionsOf decls) s' :=
    (wholeUnit_books (K := fun _ => True) ident
      (fun n hn => ⟨fun d body he => by rwa [definitionsOf, ← he],
        fun _ _ _ _ => .inr fun _ => trivial⟩) (by simp [hf]) hy hp hl h).ledger
  have listed : Listed s' := by
    have empty : Listed s := fun i f he => by simp [hf] at he
    exact (upholds_listed c).wholeUnit (fun _ _ => trivial) h (empty.declare (by simp [hy]))
  obtain ⟨f, hid, hname, -⟩ := R.function L.init
  refine ⟨⟨f, hid, hname⟩, fun i g hg hn => ?_⟩
  rcases listed i g hg with he | he
  · exact absurd (hn.symm.trans he) (by decide)
  · rw [hn, L.init] at he
    exact (Option.some.inj he).symm

end Lower

/-- A lowered unit has one init function. One of its blocks returns, which is the block where the
    top-level code ended, and all others end in branches. If the unit defines an entry, the last
    instruction of that block calls its function without arguments; otherwise nothing follows the
    top-level code. If the entry has parameters there is no module: the unit is rejected for it, or
    for what the top-level code was rejected for before. -/
theorem lowerUnit_init (analysis : Analysis) (config : Config) (decls : List Node)
    (ident : (definitionsOf decls).Identified) :
    (∀ m, (lowerUnit analysis config decls).result = .ok m →
      ∃ trace s f last, topCode ⟨analysis, config⟩ decls (opening config trace) = .ok () s ∧
        m.funcs[0]? = some f ∧ f.name = Abi.initFunction ∧
        (∀ (i : Ir.FuncId) (g : Ir.Function),
          m.funcs[i]? = some g → g.name = Abi.initFunction → i = 0) ∧
        Ir.ReturnsAt f.blocks last (initResult config) ∧ s.body.cursor = some last.label ∧
        (∀ d, entryDefinition? ⟨analysis, config⟩ decls = some d →
          ∃ id g line, s.prototypes.lookup d.site.id = some (some id) ∧
            m.funcs[id]? = some g ∧ g.name = d.symbol ∧ g.params = [] ∧
            last.lines.getLast? = some line ∧ line.inst = .call (g.value id) [] ∧
            f.blocks = ((s.body.invoke g id).finish (.ret (initResult config))).closed) ∧
        (entryDefinition? ⟨analysis, config⟩ decls = none →
          f.blocks = (s.body.finish (.ret (initResult config))).closed)) ∧
    ∀ d, entryDefinition? ⟨analysis, config⟩ decls = some d → d.params ≠ [] →
      ∃ fault, (lowerUnit analysis config decls).result = .error (.fault fault) ∧
        (fault = .rejected d.site.position (.entryWithParameters config.entry) ∨
          ∃ trace s, topCode ⟨analysis, config⟩ decls (opening config trace) = .error fault s) := by
  constructor
  · intro m hm
    obtain ⟨s', hs, rfl⟩ := lowerUnit_eq_ok hm
    obtain ⟨⟨f, hf, hname⟩, only⟩ := wholeUnit_init ident rfl rfl rfl rfl rfl rfl hs
    obtain ⟨trace, s₁, run, rfl⟩ := wholeUnit_eq_ok hs
    obtain ⟨s, -, code, -, -, -⟩ := topLevel_eq_ok run
    obtain ⟨⟨hfn, before, last, after, hopen⟩, ends⟩ := topLevel_ends ident code
    refine ⟨trace, s, f, ?_⟩
    rcases ends with ⟨hnone, he⟩ | ⟨d, id, g, hsome, proto, hg, hgname, -, he⟩
    · cases he.symm.trans run
      obtain ⟨blocks, returns⟩ := install_returns hopen hfn _ hf
      refine ⟨_, code, hf, hname, only, returns, hopen.cursor, fun d hd => ?_, fun _ => blocks⟩
      cases hnone.symm.trans hd
    · have run := he.symm.trans run
      split at run
      · rename_i hps
        cases run
        -- Installing the blocks changes neither the name nor the type of a function.
        obtain ⟨g', hg', hn', ht'⟩ := keepsTypes_install
          (s.setBody ((s.body.invoke g id).finish (.ret (initResult config)))) { fn := 0 } id g hg
        have called := hopen.emit (.call (g.value id) []) g.result
        have fn : (s.body.invoke g id).fn = 0 := (Body.Kept.emit _ _ _).fn.trans hfn
        obtain ⟨blocks, returns⟩ := install_returns called fn _ hf
        refine ⟨_, code, hf, hname, only, returns, hopen.cursor, fun d' hd => ?_, fun hd => ?_⟩
        · cases hsome.symm.trans hd
          refine ⟨id, g', _, proto, hg', hn'.trans hgname, ?_, List.getLast?_concat, ?_, ?_⟩
          · simpa [hps] using (Ir.Function.type_inj ht').2
          · rw [Ir.Function.value_congr ht']
          · rw [Body.invoke_congr _ ht']
            exact blocks
        · cases hsome.symm.trans hd
      · cases run
  · intro d hd hps
    have rejects := topLevel_rejects (c := ⟨analysis, config⟩) ident hd hps
    cases hr : (lowerUnit analysis config decls).result with
    | ok m =>
      obtain ⟨s, hs, -⟩ := lowerUnit_eq_ok hr
      obtain ⟨trace, s₁, run, -⟩ := wholeUnit_eq_ok hs
      obtain ⟨fault, s₂, he, -⟩ := rejects trace
      cases he.symm.trans run
    | error failure =>
      obtain ⟨fault, rfl⟩ := lowerUnit_failure hr
      obtain ⟨s, hs⟩ := lowerUnit_eq_fault hr
      obtain ⟨trace, run⟩ := wholeUnit_eq_error hs
      obtain ⟨fault', s₁, he, why⟩ := rejects trace
      cases he.symm.trans run
      exact ⟨fault, rfl, why.imp_right fun code => ⟨trace, s, code⟩⟩

/-- A function `main` and the name of its parameter, if it has one. -/
def mainAnalysis (params : List (String × Ty)) : Analysis where
  store :=
    { scopes := #[{ bindings := [("main", 0), ("argc", 1)] }]
      objects := #[
        { name := "main", type := .func params .missing false, kind := .variable {} },
        { name := "argc", type := .scalar .i32, kind := .variable {} }] }
  facts := { types := [(some 6, .func params .missing false)] }

/-- The function `main`. -/
def mainHead (params : List (String × Option TypeRef)) : FuncHead :=
  { site := { id := 6, position := { line := 2, column := 1 } }, name := "main", params }

/-- The function `main` behind a loop in the top-level code. -/
def mainUnit (params : List (String × Option TypeRef)) : List Node :=
  shortCircuitLoop ++ [.funcDecl (mainHead params) (.mk { id := 7 } [])]

theorem mem_definitionsOf_mainUnit {params : List (String × Option TypeRef)} {h : FuncHead}
    {body : Block} : definitionsOf (mainUnit params) h body ↔
      h = mainHead params ∧ body = .mk { id := 7 } [] := by
  simp [definitionsOf, mainUnit, shortCircuitLoop, Node.partsAll, Node.parts, Block.parts]

/-- The entry is called where the loop leads to, and is rejected if it takes a parameter. -/
theorem lowerUnit_init_mainUnit :
    (∀ params, (definitionsOf (mainUnit params)).Identified) ∧
      entryDefinition? ⟨mainAnalysis [], {}⟩ (mainUnit []) = some (mainHead []) ∧
      (∃ m, (lowerUnit (mainAnalysis []) {} (mainUnit [])).result = .ok m ∧
        ∃ (f g : Ir.Function) (last : Ir.Block) (line : Ir.Line) (id : Ir.FuncId),
          m.funcs[0]? = some f ∧ Ir.ReturnsAt f.blocks last none ∧
          m.funcs[id]? = some g ∧ g.name = "main" ∧
          last.lines.getLast? = some line ∧ line.inst = .call (g.value id) []) ∧
      ∃ fault, (lowerUnit (mainAnalysis [("argc", .scalar .i32)]) {}
          (mainUnit [("argc", none)])).result = .error (.fault fault) := by
  have identified : ∀ params, (definitionsOf (mainUnit params)).Identified := by
    intro params h body h' body' hd hd' _
    obtain ⟨rfl, rfl⟩ := mem_definitionsOf_mainUnit.mp hd
    obtain ⟨rfl, rfl⟩ := mem_definitionsOf_mainUnit.mp hd'
    exact ⟨rfl, rfl⟩
  have lowered : ∃ m ∈ (lowerUnit (mainAnalysis []) {} (mainUnit [])).result.toOption, True := by
    decide +kernel
  have entry : entryDefinition? ⟨mainAnalysis [], {}⟩ (mainUnit []) = some (mainHead []) := rfl
  have entry' : entryDefinition? ⟨mainAnalysis [("argc", .scalar .i32)], {}⟩
      (mainUnit [("argc", none)]) = some (mainHead [("argc", none)]) := rfl
  obtain ⟨m, hm, -⟩ := lowered
  have hm := eq_ok_of_mem_toOption hm
  obtain ⟨modules, -⟩ := lowerUnit_init (mainAnalysis []) {} (mainUnit []) (identified [])
  obtain ⟨-, s, f, last, -, hf, -, -, returns, -, called, -⟩ := modules m hm
  obtain ⟨id, g, line, -, hg, hname, -, hline, hcall, -⟩ := called _ entry
  obtain ⟨-, rejects⟩ := lowerUnit_init (mainAnalysis [("argc", .scalar .i32)]) {}
    (mainUnit [("argc", none)]) (identified _)
  obtain ⟨fault, hfault, -⟩ := rejects _ entry' (by simp [mainHead])
  exact ⟨identified, entry, ⟨m, hm, f, g, last, line, id, hf, returns, hg, hname, hline, hcall⟩,
    fault, hfault⟩

end TreeLowering
