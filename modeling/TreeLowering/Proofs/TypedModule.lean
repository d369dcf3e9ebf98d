import TreeLowering.Proofs.Typing

/-!
Programs of numbers are lowered to typed modules. Statements only branch, so what is left to say is
that a function returns what its definition says (`maintains_leave`), that the places of variables
and parameters have the types of the variables, and that functions are declared and filled with
these types (`maintains_enterPrototype`, `maintains_fillBody`).

Main statement: `lowerUnit_wellTyped`.
-/
namespace TreeLowering

open Lower

section
variable {c : Context} {F : Definitions} {s s' : State} {u : Unit}

theorem Evolves.result? (e : Evolves s s') : s'.body.result? c = s.body.result? c := by
  rw [Body.result?, e.head, e.result, Body.result?]

namespace Lower

/-! ## Statements -/

theorem terminate_maintains {t : Ir.Term} (h : terminate t s = .ok u s') (C : Consistent c F s)
    (ht : ∀ result, s.body.result? c = some result → t.WellTyped result) :
    Consistent c F s' ∧ Evolves s s' := by
  obtain ⟨-, rfl⟩ := terminate_eq_ok.mp h
  have kept := Body.Kept.finish s.body t
  exact C.build kept.fn kept.head kept.result fun result hr all => all.finish (ht result hr)

/-- A function returns a value exactly if its definition has a result, and then one of its type. -/
theorem maintains_leave {site : Site} {e : Expr} (he : e.Numeric c F) :
    Always (Maintains c F) (leave c site e) := by
  have halt : Always (Maintains c F) moveNowhere := .modify' fun s => maintains_steer .halt
  intro s u s' h C
  unfold leave at h
  rw [get_bind_apply] at h
  cases hh : s.body.head with
  | none => simp [hh] at h
  | some head =>
    simp only [hh] at h
    have hres : s.body.result? c = c.analysis.store.result? s.body.result := by
      simp [Body.result?, hh]
    rcases ite_eq_ok.mp h with ⟨-, h⟩ | ⟨-, h⟩
    · rcases ite_eq_ok.mp h with ⟨hv, h⟩ | ⟨-, h⟩
      · obtain ⟨_, s₁, h₁, h₂⟩ := bind_eq_ok.mp h
        have returned := terminate_maintains h₁ C fun result hr =>
          Store.result?_of_void hv (hres.symm.trans hr)
        exact Lasting.trans (r := Maintains c F) (fun _ => returned) (halt _ _ _ h₂) C
      · simp at h
    · rcases ite_eq_ok.mp h with ⟨-, h⟩ | ⟨hv, h⟩
      · simp at h
      · obtain ⟨f, -, hf, -⟩ := C.body
        have number := Store.number?_of_result? hv (hres.symm.trans hf)
        obtain ⟨v, s₁, h₁, h⟩ := bind_eq_ok.mp h
        obtain ⟨⟨C₁, e₁⟩, htype⟩ := delivers_valueAs he number _ _ _ h₁ C
        obtain ⟨_, s₂, h₂, h₃⟩ := bind_eq_ok.mp h
        have returned := terminate_maintains h₂ C₁ fun result hr => by
          rw [e₁.result?, hf] at hr
          cases hr
          refine ⟨htype, fun hvoid => ?_⟩
          have := Store.isNumber_of_number? number
          rwa [hvoid] at this
        exact Lasting.trans (r := Maintains c F) (fun _ => ⟨C₁, e₁⟩)
          (Lasting.trans (r := Maintains c F) (fun _ => returned) (halt _ _ _ h₃)) C

theorem maintains_enterStruct (d : StructDecl) : Always (Maintains c F) (enterStruct c d) := by
  unfold enterStruct
  split
  · exact .pure' _
  · exact .pure' _
  · exact .discard' (maintains_instructionType _)

/-! ## Variables -/

theorem delivers_bindVariable {v : ObjectId} {x : Ir.Value} {T : Ir.Ty} (hf : x.isFunc = false)
    (ht : x.type = .pointer T) (hn : c.analysis.store.number? (variableType c v) = some T) :
    Delivers c F (bindVariable v x) fun _ => True := by
  intro s a s' h C
  cases h
  exact ⟨C.bind (.place hf ht hn), trivial⟩

theorem maintains_globals (s : State) (names : List (String × Nat)) (globals : Array Ir.Global) :
    Maintains c F s { s with names, module := { s.module with globals } } := fun C =>
  C.of_calm (C.registry.keep rfl rfl rfl rfl (.refl s)) (.of_funcs_eq rfl rfl rfl rfl rfl) rfl

theorem delivers_defineGlobal {d : VarDecl} {v : ObjectId} {T : Ir.Ty} (hd : d.value.Numeric c F)
    (hn : c.analysis.store.number? (variableType c v) = some T) :
    Delivers c F (defineGlobal c d v T) fun _ => True := by
  have add : Delivers c F (addGlobal d.name T) fun _ => True := by
    refine .of_always (fun s g s' h => ?_) fun _ _ _ _ => trivial
    obtain ⟨-, unique, names, rfl⟩ := addGlobal_eq_ok h
    exact maintains_globals s names _
  have change : ∀ g f, Delivers c F (modifyGlobal g f) fun _ => True := fun g f =>
    .of_always (.modify' fun s => maintains_globals s s.names _) fun _ _ _ _ => trivial
  have bind : ∀ g, Delivers c F (bindVariable v (.global g T)) fun _ => True := fun g =>
    delivers_bindVariable rfl rfl hn
  refine .bind' add fun g _ => .ite' (fun _ => bind g) fun _ => ?_
  refine .bind' (delivers_valueAs hd hn) fun init hi => ?_
  refine .ite' (fun _ => .bind' (change _ _) fun _ _ => bind g) fun _ => ?_
  exact .bind' (delivers_storeAt (hi ▸ rfl)) fun _ _ => bind g

theorem delivers_defineLocal {d : VarDecl} {v : ObjectId} {T : Ir.Ty} (hd : d.value.Numeric c F)
    (hn : c.analysis.store.number? (variableType c v) = some T) :
    Delivers c F (defineLocal c d v T) fun _ => True := by
  have rest : ∀ init : Ir.Value, init.type = T → Delivers c F (do
      let slot ← stackSlot T none
      store init slot
      bindVariable v slot) fun _ => True := fun init hi =>
    .bind' (delivers_stackSlot T) fun slot hs => .bind' (delivers_storeAt (hi ▸ hs.1)) fun _ _ =>
      delivers_bindVariable hs.2 hs.1 hn
  unfold defineLocal
  exact .ite' (fun _ => .bind' (Q := fun v => v.type = T) (.pure' rfl) rest) fun _ =>
    .bind' (delivers_valueAs hd hn) rest

theorem delivers_defineVariable {d : VarDecl} (hd : NamesNumber c d.name d.site)
    (hv : d.value.Numeric c F) : Delivers c F (defineVariable c d) fun _ => True := by
  refine .bind' delivers_variableAt fun v hres => .ite' (fun _ => .reject' _ _) fun _ => ?_
  obtain ⟨T, hT⟩ := Option.isSome_iff_exists.mp (hd v hres)
  refine .bind' (delivers_instructionType hT) fun T' he => ?_
  subst he
  have global := delivers_defineGlobal hv hT
  have inside : Delivers c F (isLocal c d.site) fun _ => True :=
    .of_asks (asks_isLocal c d.site) fun _ _ _ => trivial
  refine .ite' (fun _ => global) fun _ => .bind' inside fun _ _ => ?_
  exact .ite' (fun _ => delivers_defineLocal hv hT) fun _ => global

/-- The variables of parameters have the types of the parameters. -/
theorem delivers_storeParams {fn : Ir.FuncId} {site : Site} :
    ∀ {params : List (String × Ir.Ty)} (i : Nat), (∀ p ∈ params, ∀ v,
      c.analysis.resolve p.1 (some site) = some v →
        c.analysis.store.number? (variableType c v) = some p.2) →
      Delivers c F (storeParams c fn site i params) fun _ => True
  | [], _, _ => by
    unfold storeParams
    exact .pure' trivial
  | (name, T) :: rest, i, h => by
    obtain ⟨first, later⟩ := List.forall_mem_cons.mp h
    unfold storeParams
    refine .bind' delivers_variableAt fun v hres => .bind' (delivers_stackSlot T) fun slot hs => ?_
    refine .bind' (delivers_storeAt hs.1) fun _ _ => ?_
    refine .bind' (delivers_bindVariable hs.2 hs.1 (first v hres)) fun _ _ => ?_
    exact delivers_storeParams (i + 1) later

/-! ## Functions -/

end Lower

/-- Names of parameters are looked up to variables of the types of the parameters. -/
theorem FuncHead.Numeric.places {h : FuncHead} {body : Block} (hn : h.Numeric c body)
    {ps : List (String × Ty)} {r : Ty} {inactive : Bool} {Ts : List Ir.Ty} {site : Site}
    (htype : c.analysis.typeOfFunc h = .func ps r inactive) (hsite : body.site? = some site)
    (hps : ps.map (fun p => c.analysis.store.number? p.2) = Ts.map some) :
    ∀ p ∈ (h.params.map Prod.fst).zip Ts, ∀ v, c.analysis.resolve p.1 (some site) = some v →
      c.analysis.store.number? (variableType c v) = some p.2 := by
  intro p hp v hv
  have typed : (p.1, some p.2) ∈ (h.params.map Prod.fst).zip (Ts.map some) := by
    rw [List.zip_map_right]
    exact List.mem_map.mpr ⟨p, hp, rfl⟩
  rw [← hps, List.zip_map_right] at typed
  obtain ⟨q, hq, he⟩ := List.mem_map.mp typed
  simp only [Prod.map, Prod.mk.injEq, id_eq] at he
  rw [hn.params ps r inactive site htype hsite q hq v (he.1 ▸ hv), he.2]

namespace Lower

/-- The function that a definition is bound to has the types of the definition. -/
theorem maintains_enterPrototype (ident : F.Identified) {h : FuncHead} {body : Block}
    (hd : F h body) (hn : h.Numeric c body) :
    Always (Maintains c F) (enterPrototype c h body) := by
  intro s u s' hr C
  have R : Registry c F s' := registry_enterPrototype ident hd s u s' hr C.registry
  have bypasses := bypasses_enterPrototype h body s u s' hr
  have hb := (declares_enterPrototype c h body s u s' hr).2
  obtain ⟨-, ⟨-, hv, hp⟩ | ⟨-, v, id, hres, hv, hp⟩⟩ := enterPrototype_eq_ok hr
  · refine C.carry R bypasses.types bypasses.fills hb (fun _ _ hx => .inl (hv ▸ hx)) ?_
    intro key id hid
    rcases lookup_cons_cases (hp ▸ hid) with hid | ⟨-, he⟩
    · exact .inl hid
    · cases he
  · have hproto : s'.prototypes.lookup h.site.id = some (some id) := by
      rw [hp, List.lookup_cons_self]
    obtain ⟨f, hf, types⟩ := R.hasTypes hd hn hproto
    rw [hf] at hv
    refine C.carry R bypasses.types bypasses.fills hb ?_ ?_
    · intro w x hx
      rcases lookup_cons_cases (hv ▸ hx) with hx | ⟨rfl, rfl⟩
      · exact .inl hx
      · exact .inr (.func hf (hn.name w hres) hd (R.bound hd hproto).1 hres types)
    · intro key id' hid
      rcases lookup_cons_cases (hp ▸ hid) with hid | ⟨-, he⟩
      · exact .inl hid
      · cases he
        exact .inr ⟨f, hf⟩

/-- A body that runs to its end returns only if its definition has no result. -/
theorem closeBody_maintains (h : closeBody c s = .ok u s') (C : Consistent c F s)
    (hh : s.body.head.isSome) : Consistent c F s' ∧ Evolves s s' := by
  have hres : s.body.result? c = c.analysis.store.result? s.body.result := by
    simp [Body.result?, Option.isNone_iff_eq_none, Option.isSome_iff_ne_none.mp hh]
  unfold closeBody at h
  rw [get_bind_apply] at h
  rcases ite_eq_ok.mp h with ⟨-, h⟩ | ⟨-, h⟩
  · rcases ite_eq_ok.mp h with ⟨hv, h⟩ | ⟨-, h⟩
    · exact terminate_maintains h C fun result hr =>
        Store.result?_of_void hv (hres.symm.trans hr)
    · exact terminate_maintains h C fun _ _ => trivial
  · obtain ⟨-, rfl⟩ := pure_eq_ok.mp h
    exact Lasting.refl (r := Maintains c F) s C

end Lower

theorem keepsTypes_install (s : State) (outer : Body) :
    Registry.KeepsTypes s (s.install outer) :=
  .modify (g := fun f => { f with blocks := s.body.closed }) rfl fun _ => ⟨rfl, rfl⟩

/-- When a body is done, its blocks are those of its function. -/
theorem Consistent.installed (C : Consistent c F s) (outer : Body) :
    (s.install outer).module.WellTyped := by
  intro f hf block hb
  obtain ⟨i, hi⟩ := Array.mem_iff_getElem?.mp hf
  change (s.module.funcs.modify s.body.fn fun f => { f with blocks := s.body.closed })[i]? =
    some f at hi
  have typed : block.All (Ir.Inst.WellTyped s.module.funcs) (Ir.Term.WellTyped f.result) := by
    rw [Array.getElem?_modify] at hi
    split at hi
    · rename_i he
      subst he
      obtain ⟨g, hg, rfl⟩ := Option.map_eq_some_iff.mp hi
      obtain ⟨g', hg', -, all⟩ := C.body
      cases hg.symm.trans hg'
      exact all.closed trivial block hb
    · exact C.functions f (Array.mem_of_getElem? hi) block hb
  exact ⟨fun line hl => (typed.lines line hl).keep (keepsTypes_install s outer), typed.term⟩

/-- Another body comes back. -/
theorem Consistent.install (C : Consistent c F s) {outer : Body}
    (ho : outer.WellTyped c s.module.funcs) : Consistent c F (s.install outer) := by
  have types := keepsTypes_install s outer
  refine ⟨C.registry.keep rfl rfl rfl rfl types, fun hx => (C.bound hx).keep types, ?_,
    ho.keep types, C.installed outer⟩
  intro key id hid
  obtain ⟨f, hf⟩ := C.declared hid
  exact (types id f hf).imp fun _ h => h.1

theorem Consistent.report (C : Consistent c F s) (trace : List Event) :
    Consistent c F { s with trace } ∧ Evolves s { s with trace } :=
  C.of_calm (C.registry.keep rfl rfl rfl rfl (.refl s)) (.of_funcs_eq rfl rfl rfl rfl rfl) rfl

theorem Consistent.begin (C : Consistent c F s) (key : NodeId) (id : Ir.FuncId)
    (exported : Bool) :
    Consistent c F (s.beginBody key id exported) ∧ Evolves s (s.beginBody key id exported) := by
  have types : Registry.KeepsTypes s (s.beginBody key id exported) ∧
      FillsNone s (s.beginBody key id exported) := by
    cases exported with
    | true =>
      exact ⟨.modify (g := fun f => { f with isExported := true }) rfl fun _ => ⟨rfl, rfl⟩,
        .modify (g := fun f => { f with isExported := true }) rfl fun _ => rfl⟩
    | false => exact ⟨.refl s, fun _ f hf _ => ⟨f, hf, rfl⟩⟩
  have R : Registry c F (s.beginBody key id exported) :=
    C.registry.keep rfl (by cases exported <;> rfl) rfl rfl types.1
  exact C.carry R types.1 types.2 rfl (fun _ _ => .inl) fun _ _ => .inl

namespace Lower

/-- The body of a definition is typed in the function of its prototype. -/
theorem maintains_fillBody {h : FuncHead} {body : Block} (hd : F h body) (hn : h.Numeric c body)
    (hs : Always (Maintains c F) (blockStatements c body)) :
    Always (Maintains c F) (fillBody c h body (blockStatements c body)) := by
  intro s u s' hf C
  by_cases henter : h.hasBody body = true ∧ h.Active c
  · obtain ⟨hb, hdecl, params, result, htype⟩ := henter
    obtain ⟨id, site, exported, s₄, trace, hproto, hsite, -, hsteps, rfl⟩ :=
      fillBody_opens hb hdecl htype hf
    obtain ⟨f, hid, ps, r, inactive, htype', hr, hps⟩ := C.registry.hasTypes hd hn hproto
    obtain ⟨rfl, rfl, -⟩ := (Ty.func.injEq _ _ _ _ _ _).mp (htype.symm.trans htype')
    -- The body begins empty, in a function with the result of the definition.
    obtain ⟨C₀, e₀⟩ := C.begin h.site.id id exported
    obtain ⟨f₀, hid₀, -, ht₀⟩ := e₀.types id f hid
    have start : Body.WellTyped c (s.beginBody h.site.id id exported).module.funcs
        { fn := id, head := some h, result } := by
      refine ⟨f₀, hid₀, ?_, .start _ _ _⟩
      rw [(Ir.Function.type_inj ht₀).1]
      exact hr
    have C₁ := C₀.setBody start
    obtain ⟨_, s₂, h₂, hsteps⟩ := bind_eq_ok.mp hsteps
    obtain ⟨_, s₃, h₃, h₄⟩ := bind_eq_ok.mp hsteps
    have hparams : (s.beginBody h.site.id id exported).paramTypes id = f.params.map Prod.snd := by
      rw [State.paramTypes, hid₀, ← (Ir.Function.type_inj ht₀).2]
      rfl
    rw [hparams] at h₂
    obtain ⟨⟨C₂, e₂⟩, -⟩ := delivers_storeParams 0 (hn.places htype hsite hps) _ _ _ h₂ C₁
    obtain ⟨C₃, e₃⟩ := hs _ _ _ h₃ C₂
    have head : s₃.body.head.isSome := by
      rw [e₃.head, e₂.head]
      rfl
    obtain ⟨C₄, e₄⟩ := closeBody_maintains h₄ C₃ head
    -- The body around it is still typed, as functions keep their types.
    have types : Registry.KeepsTypes s s₄ :=
      e₀.types.trans (e₂.types.trans (e₃.types.trans e₄.types))
    have back := C₄.install (C.body.keep types)
    exact ⟨(back.report trace).1, types.trans (keepsTypes_install s₄ s.body), rfl, rfl, rfl⟩
  · rw [fillBody_skips henter hf]
    exact Lasting.refl (r := Maintains c F) s C

/-! ## Units -/

theorem entryFunc_eq_ok {funcs : List (FuncHead × Block)} {h : FuncHead} {id : Ir.FuncId}
    (hr : entryFunc c funcs s = .ok (some (h, id)) s') :
    s.prototypes.lookup h.site.id = some (some id) := by
  induction funcs with
  | nil => cases hr
  | cons p rest ih =>
    unfold entryFunc at hr
    rcases ite_eq_ok.mp hr with ⟨-, hr⟩ | ⟨-, hr⟩
    · rw [get_bind_apply] at hr
      cases hl : s.prototypes.lookup p.1.site.id with
      | none => exact ih (by simpa only [hl] using hr)
      | some q =>
        cases q with
        | none => exact ih (by simpa only [hl] using hr)
        | some i =>
          simp only [hl, pure_eq_ok, Option.some.injEq, Prod.mk.injEq] at hr
          obtain ⟨⟨rfl, rfl⟩, -⟩ := hr
          exact hl
    · exact ih hr

/-- The entry is called with nothing, and takes nothing. -/
theorem maintains_runEntry (funcs : List (FuncHead × Block)) :
    Always (Maintains c F) (runEntry c funcs) := by
  intro s u s' hr C
  unfold runEntry at hr
  obtain ⟨found, s₁, h₁, hr⟩ := bind_eq_ok.mp hr
  cases asks_entryFunc c funcs _ _ _ h₁
  cases found with
  | none =>
    obtain ⟨-, rfl⟩ := pure_eq_ok.mp hr
    exact Lasting.refl (r := Maintains c F) s C
  | some p =>
    obtain ⟨f, hf⟩ := C.declared (entryFunc_eq_ok h₁)
    simp only [get_bind_apply, hf, Option.getD_some] at hr
    rcases ite_eq_ok.mp hr with ⟨hempty, hr⟩ | ⟨-, hr⟩
    · obtain ⟨v, hr⟩ := discard_eq_ok.mp hr
      refine (emitAt_maintains hr C ⟨p.2, f, hf, rfl, ?_⟩).1
      rw [List.isEmpty_iff.mp hempty]
      rfl
    · simp at hr

theorem introduces_maintains (ident : F.Identified) :
    Introduces c (fun n => n.Numeric c F ∧ ∀ h body, n = .funcDecl h body → F h body)
      (fun _ => ([] : List Empty)) fun _ => Maintains c F where
  absent := rfl
  steer _ _ h := maintains_steer h.any
  expression e h := by
    rcases h.1 with he | ⟨site, name, args, rfl, ha⟩
    · exact (delivers_valueOf he).always
    · exact (delivers_call fun a hm => delivers_valueOf (ha a hm)).always
  condition n h e he := by
    have numeric : e.Numeric c F := by
      cases n with
      | ifStmt | forStmt | whileStmt => exact h.1 e he
      | _ => cases he
    exact .of_always (delivers_condition numeric).always fun _ _ => maintains_steer
  leave _ _ h := maintains_leave h.1
  varDecl _ h := (delivers_defineVariable h.1.1 h.1.2).always
  structDecl d _ := maintains_enterStruct d
  report _ trace C := C.report trace
  prototype h body hn := maintains_enterPrototype ident (hn.2 h body rfl) hn.1
  fillBody h body hn hs :=
    maintains_fillBody (hn.2 h body rfl) hn.1 (hs.of_live (realizes_blockStatements c body))

/-- The top-level code returns what the init function does. -/
theorem topLevel_maintains (ident : F.Identified) {decls : List Node}
    (hn : ∀ n ∈ Node.partsAll decls, n.Numeric c F ∧ ∀ h body, n = .funcDecl h body → F h body)
    (h : topLevel c decls s = .ok u s') (C : Consistent c F s) (hl : s.body.cursor.isSome)
    (hh : s.body.head = none) : Consistent c F s' := by
  have t := introduces_maintains (c := c) ident
  unfold topLevel at h
  rw [← bind_assoc] at h
  obtain ⟨_, s₁, h₁, h⟩ := bind_eq_ok.mp h
  obtain ⟨C₁, e₁⟩ := t.declarations hn (t.walks.eachStatement decls hn) _ _ _ h₁ hl C
  rw [get_bind_apply] at h
  rcases ite_eq_ok.mp h with ⟨-, h⟩ | ⟨-, h⟩
  · simp at h
  obtain ⟨_, s₂, h₂, h₃⟩ := bind_eq_ok.mp h
  obtain ⟨C₂, e₂⟩ := maintains_runEntry _ _ _ _ h₂ C₁
  refine (terminate_maintains h₃ C₂ fun result hr => ?_).1
  rw [e₂.result?, e₁.result?, Body.result?, hh] at hr
  obtain rfl := Option.some.inj hr
  unfold initFunction
  split
  · exact ⟨rfl, by simp⟩
  · rfl

/-- In the beginning there is only the init function, and it is empty. -/
theorem consistent_init {s : State} (hm : s.mapped = []) (ht : s.module.types = #[])
    (hy : s.symbols = []) (hp : s.prototypes = []) (hv : s.values = [])
    (hf : s.module.funcs = #[]) :
    Consistent c F ((s.declare (initFunction c.config)).setBody { fn := 0 }) := by
  have blocks : (initFunction c.config).blocks = [] := by
    unfold initFunction
    split <;> rfl
  refine ⟨(registry_init hm ht hy hp).keep rfl rfl rfl rfl (.refl _), ?_, ?_, ?_, ?_⟩
  · intro v x hx
    simp [State.declare, hv] at hx
  · intro key id hid
    simp [State.declare, hp] at hid
  · exact ⟨initFunction c.config, by simp [State.declare, hf], rfl, .start _ _ _⟩
  · intro f hmem block hb
    obtain rfl : f = initFunction c.config := by simpa [State.declare, hf] using hmem
    rw [blocks] at hb
    cases hb

end Lower

end

/-- The module of a program of numbers is typed: operations and comparisons have operands of one
    type, what is stored has the pointee type of its address and so has what is loaded, calls pass
    values of the parameter types of their functions, and functions return values of their result
    types, none exactly if that is void. -/
theorem lowerUnit_wellTyped (analysis : Analysis) (config : Config) (decls : List Node)
    (m : Ir.Module) (ident : (definitionsOf decls).Identified)
    (numeric : ∀ n ∈ Node.partsAll decls,
      n.Numeric ⟨analysis, config⟩ (definitionsOf decls))
    (h : (lowerUnit analysis config decls).result = .ok m) : m.WellTyped := by
  obtain ⟨s, hs, rfl⟩ := lowerUnit_eq_ok h
  obtain ⟨trace, s₁, h₁, rfl⟩ := wholeUnit_eq_ok hs
  have parts : ∀ n ∈ Node.partsAll decls, n.Numeric ⟨analysis, config⟩ (definitionsOf decls) ∧
      ∀ d body, n = .funcDecl d body → definitionsOf decls d body :=
    fun n hn => ⟨numeric n hn, fun d body he => by rwa [definitionsOf, ← he]⟩
  have start : Consistent ⟨analysis, config⟩ (definitionsOf decls) _ :=
    consistent_init (s := { module := { triple := config.triple }, trace }) rfl rfl rfl rfl rfl rfl
  exact (topLevel_maintains ident parts h₁ start rfl rfl).installed _

/-- A function `half`, its parameter `x`, and a global `n`. -/
def halfAnalysis : Analysis where
  store :=
    { scopes := #[{ bindings := [("half", 0), ("x", 1), ("n", 2)] }]
      objects := #[
        { name := "half", type := .func [("x", .scalar .f64)] (.scalar .f32) false,
          kind := .variable {} },
        { name := "x", type := .scalar .f64, kind := .variable {} },
        { name := "n", type := .scalar .i16, kind := .variable { isGlobal := true } }] }
  facts := { types := [(some 1, .func [("x", .scalar .f64)] (.scalar .f32) false)] }

/-- The function `half`. -/
def halfHead : FuncHead := { site := { id := 1 }, name := "half", params := [("x", none)] }

/-- Half of the parameter, which is also stepped; the result is narrower than the parameter. -/
def halfBody : Block :=
  .mk { id := 2 } [.ret { id := 3 } (.binary { id := 4 } (.known .div)
    (.varRef { id := 5 } "x" (.known .postDec)) (.intLit { id := 6 } 2))]

/-- The function `half`, and a global whose initial value has to be computed by a call of it. -/
def halfUnit : List Node :=
  [.funcDecl halfHead halfBody, .varDecl
    { site := { id := 7 }, token := default, name := "n"
      value := .binary { id := 8 } (.known .add) (.call { id := 9 } "half" [.intLit { id := 10 } 7])
        (.boolLit { id := 11 } true) }]

theorem lowerUnit_wellTyped_halfUnit :
    (definitionsOf halfUnit).Identified ∧
      (∀ n ∈ Node.partsAll halfUnit, n.Numeric ⟨halfAnalysis, {}⟩ (definitionsOf halfUnit)) ∧
      ∃ m, (lowerUnit halfAnalysis {} halfUnit).result = .ok m ∧
        (m.funcs.map fun f => f.blocks.length) = #[2, 2] ∧ m.WellTyped := by
  have only : ∀ {h body}, definitionsOf halfUnit h body ↔ h = halfHead ∧ body = halfBody := by
    intro h body
    simp [definitionsOf, halfUnit, halfBody, Node.partsAll, Node.parts, Block.parts]
  have identified : (definitionsOf halfUnit).Identified := by
    intro h body h' body' hd hd' _
    obtain ⟨rfl, rfl⟩ := only.mp hd
    obtain ⟨rfl, rfl⟩ := only.mp hd'
    exact ⟨rfl, rfl⟩
  have names : halfAnalysis.resolve "half" (some { id := 1 }) = some 0 ∧
      halfAnalysis.resolve "x" (some { id := 2 }) = some 1 ∧
      halfAnalysis.resolve "x" (some { id := 5 }) = some 1 ∧
      halfAnalysis.resolve "n" (some { id := 7 }) = some 2 := by decide +kernel
  obtain ⟨half, param, x, n⟩ := names
  have function : halfHead.Numeric ⟨halfAnalysis, {}⟩ halfBody := by
    refine ⟨fun v hv => ?_, ⟨.float .single, [.float .double], _, _, _, rfl, rfl, rfl⟩, ?_⟩
    · cases half.symm.trans hv
      rfl
    · intro ps r inactive site ht hs p hp v hv
      cases ht
      cases hs
      cases List.mem_singleton.mp hp
      cases param.symm.trans hv
      rfl
  have returned : Expr.Numeric ⟨halfAnalysis, {}⟩ (definitionsOf halfUnit)
      (.binary { id := 4 } (.known .div) (.varRef { id := 5 } "x" (.known .postDec))
        (.intLit { id := 6 } 2)) := by
    refine .binary (.varRef fun v hv => ?_) (.intLit rfl)
    cases x.symm.trans hv
    rfl
  have called : Expr.Numeric ⟨halfAnalysis, {}⟩ (definitionsOf halfUnit)
      (.call { id := 9 } "half" [.intLit { id := 10 } 7]) := by
    refine .call (fun e he => ?_) ?_
    · rw [List.mem_singleton.mp he]
      exact .intLit rfl
    · rintro h T ps ⟨v, body, -, hd, -⟩ ⟨qs, r, inactive, ht, hr, -⟩
      obtain ⟨rfl, -⟩ := only.mp hd
      cases ht
      cases hr
      trivial
  have numeric : ∀ m ∈ Node.partsAll halfUnit,
      m.Numeric ⟨halfAnalysis, {}⟩ (definitionsOf halfUnit) := by
    simp only [halfUnit, halfBody, Node.partsAll, Node.parts, Block.parts, List.append_nil,
      List.cons_append, List.nil_append, List.forall_mem_cons]
    refine ⟨function, returned, ⟨fun v hv => ?_, .binary called .boolLit⟩, by simp⟩
    cases n.symm.trans hv
    rfl
  have lowered : ∃ m ∈ (lowerUnit halfAnalysis {} halfUnit).result.toOption,
      (m.funcs.map fun f => f.blocks.length) = #[2, 2] := by decide +kernel
  obtain ⟨m, hm, hblocks⟩ := lowered
  have hm := eq_ok_of_mem_toOption hm
  exact ⟨identified, numeric, m, hm, hblocks,
    lowerUnit_wellTyped halfAnalysis {} halfUnit m identified numeric hm⟩

end TreeLowering
