import TreeLowering.Proofs.Completion

/-!
What lowering leaves alone of the functions around it. A statement or an expression keeps the
function under construction and its loops; a nested definition keeps the whole body under
construction (`statement_kept`, `funcDecl_keeps_body`).

A nested body is installed in the module under the function of its prototype. That is never a
function whose body was begun before, among them all functions around it: the owner of a function
begins its body once, and nobody else owns it (`not_underway_of_owns`). So the entries of those
functions in the module stay as they are as well (`Spares`).
-/
namespace TreeLowering

open Lower

variable {c : Context} {F : Definitions} {s s' : State} {id : Ir.FuncId}

/-! ## Functions under way -/

/-- The init function, or a function whose owner has its body lowered or being lowered. -/
def Underway (F : Definitions) (s : State) (id : Ir.FuncId) : Prop :=
  id = 0 ∨ ∃ h, Owns F s h id ∧ h.site.id ∈ s.lowered

namespace Underway

theorem lt_size (L : Ledger c F s) (h : Underway F s id) : id < s.module.funcs.size := by
  rcases h with rfl | ⟨h, ho, -⟩
  · exact L.size _ _ L.init
  · exact L.size _ _ (L.symbol h id ho).1

theorem keep {K : NodeId → Prop} (p : Bookkeeping c F K s s') (h : Underway F s id) :
    Underway F s' id :=
  h.imp_right fun ⟨h, ho, hl⟩ => ⟨h, p.owns h id ho, p.lowered hl⟩

end Underway

/-- The function of a definition whose body is still to come was not begun. -/
theorem not_underway_of_owns (L : Ledger c F s) {h : FuncHead} (ho : Owns F s h id)
    (hnew : h.site.id ∉ s.lowered) : ¬Underway F s id := by
  obtain ⟨hs, hinit⟩ := L.symbol h id ho
  rintro (rfl | ⟨h', ho', hl⟩)
  · exact hinit (L.inj _ _ 0 hs L.init)
  · have same : h.symbol = h'.symbol := L.inj _ _ id hs (L.symbol h' id ho').1
    exact hnew (L.single h h' id id ho ho' same ▸ hl)

namespace Lower

/-- A step keeps the books, and the functions that were begun before it as they are. -/
def Spares (c : Context) (F : Definitions) (s s' : State) : Prop :=
  Ledger c F s → Bookkeeping c F (fun _ => True) s s' ∧
    ∀ id, Underway F s id → s'.module.funcs[id]? = s.module.funcs[id]?

instance (c : Context) (F : Definitions) : Lasting (Spares c F) where
  refl s L := ⟨.refl L, fun _ _ => rfl⟩
  trans h₁ h₂ L := by
    obtain ⟨p₁, e₁⟩ := h₁ L
    obtain ⟨p₂, e₂⟩ := h₂ p₁.ledger
    exact ⟨p₁.trans p₂, fun id hid => (e₂ id (hid.keep p₁)).trans (e₁ id hid)⟩

/-- Functions are at most added. -/
theorem Spares.of_append (p : Ledger c F s → Bookkeeping c F (fun _ => True) s s')
    (h : ∀ (i : Nat) f, s.module.funcs[i]? = some f → s'.module.funcs[i]? = some f) :
    Spares c F s s' := by
  refine fun L => ⟨p L, fun id hid => ?_⟩
  have hf := Array.getElem?_eq_getElem (hid.lt_size L)
  rw [hf, h id _ hf]

/-- The functions, symbols and prototypes stay as they are. -/
theorem Spares.of_funcs_eq (hy : s'.symbols = s.symbols) (hp : s'.prototypes = s.prototypes)
    (hl : s'.lowered = s.lowered) (hf : s'.module.funcs = s.module.funcs) : Spares c F s s' :=
  .of_append (fun L => .of_funcs_eq L hy hp hl hf) fun _ _ h => hf ▸ h

theorem tolerant_spares (c : Context) (F : Definitions) : Tolerant c (Spares c F) :=
  .of_calm fun calm => .of_append (fun L => books_of_calm L calm) fun _ _ => calm.getElem?_funcs

theorem spares_defineVariable (d : VarDecl) : Always (Spares c F) (defineVariable c d) := by
  refine (tolerant_spares c F).defineVariable (fun _ _ => .of_funcs_eq rfl rfl rfl rfl) ?_
  intro content s g s' h
  cases h
  exact .of_funcs_eq rfl rfl rfl rfl

variable {h : FuncHead} {body : Block} {u : Unit}

/-- A prototype adds at most a function. -/
theorem getElem?_enterPrototype (hr : enterPrototype c h body s = .ok u s') {i : Nat}
    {f : Ir.Function} (hf : s.module.funcs[i]? = some f) : s'.module.funcs[i]? = some f := by
  have step : Always (Preserves fun s => s.module.funcs[i]? = some f) (enterPrototype c h body) := by
    have calm : Tolerant c (Preserves fun s => s.module.funcs[i]? = some f) :=
      .of_calm fun calm => calm.getElem?_funcs
    refine calm.touches.enterPrototype (fun _ _ h => h) (fun _ _ h => h) (fun _ _ h => h) ?_
    intro _ _ _ s id s' hr hf
    rcases declareSymbol_eq_ok hr with ⟨-, -, f', -, -, -, rfl⟩ | ⟨-, -, rfl⟩
    · exact getElem?_push_of_some hf
    · exact hf
  exact step s u s' hr hf

theorem spares_enterPrototype (ident : F.Identified) (hd : F h body) :
    Always (Spares c F) (enterPrototype c h body) := by
  intro s u s' hr
  exact .of_append (fun L => (enterPrototype_books ident hd hr L).mono fun _ _ => trivial)
    fun _ _ => getElem?_enterPrototype hr

/-- Only the function of the definition itself changes when its body begins and ends. -/
theorem getElem?_beginBody {key : NodeId} {exported : Bool} {i : Nat} (hne : i ≠ id) :
    (s.beginBody key id exported).module.funcs[i]? = s.module.funcs[i]? := by
  cases exported with
  | true =>
    change (s.module.funcs.modify id _)[i]? = _
    rw [Array.getElem?_modify, if_neg (Ne.symm hne)]
  | false => rfl

theorem getElem?_install (outer : Body) {i : Nat} (hne : i ≠ s.body.fn) :
    (s.install outer).module.funcs[i]? = s.module.funcs[i]? := by
  change (s.module.funcs.modify s.body.fn _)[i]? = _
  rw [Array.getElem?_modify, if_neg (Ne.symm hne)]

/-- When the body of a definition is lowered, no function changes that was begun before. -/
theorem spares_fillBody (hd : F h body) {step : Lower Unit} {R : Reading}
    (hreal : Realizes step R) (hstep : Always (Spares c F) step) :
    Always (Spares c F) (fillBody c h body step) := by
  intro s u s' hf L
  by_cases henter : h.hasBody body = true ∧ h.Active c
  · obtain ⟨hb, hdecl, params, result, htype⟩ := henter
    obtain ⟨id, site, types, exported, s₁, trace, hproto, -, hnew, hs, rfl⟩ :=
      fillBody_enters hb hdecl htype hf
    have ho : Owns F s h id := ⟨⟨body, hd, hb⟩, hproto⟩
    have spares := tolerant_spares c F
    have steps : Always (Spares c F)
        (bodySteps c id site ((h.params.map Prod.fst).zip types) step) :=
      .bind' (spares.storeParams (fun _ _ => .of_funcs_eq rfl rfl rfl rfl) id site 0 _) fun _ =>
        .bind' hstep fun _ => spares.touches.closeBody
    obtain ⟨p₁, e₁⟩ := steps _ _ _ hs (ledger_begin L ho hnew exported _)
    have hfn : s₁.body.fn = id := bodySteps_fn hreal hs
    refine ⟨books_enclose ho hfn p₁ _ _, fun i hi => ?_⟩
    -- The owner of `id` has not begun its body yet, and nobody else ever will.
    have hne : i ≠ id := by
      rintro rfl
      exact not_underway_of_owns L ho hnew hi
    -- What was begun before is begun still while the nested body is lowered.
    have begun : Underway F ((s.beginBody h.site.id id exported).setBody
        { fn := id, head := some h, result }) i :=
      hi.imp_right fun ⟨h', ho', hl⟩ => ⟨h', ⟨ho'.1, ho'.2⟩, List.mem_cons_of_mem _ hl⟩
    calc ({ s₁.install s.body with trace } : State).module.funcs[i]?
        = s₁.module.funcs[i]? := getElem?_install s.body (hfn ▸ hne)
      _ = (s.beginBody h.site.id id exported).module.funcs[i]? := e₁ i begun
      _ = s.module.funcs[i]? := getElem?_beginBody hne
  · rw [fillBody_skips henter hf]
    exact ⟨.refl L, fun _ _ => rfl⟩

/-- All statements spare the functions that were begun before them. -/
theorem introduces_spares (ident : F.Identified) :
    Introduces c (fun n => ∀ h body, n = .funcDecl h body → F h body)
      (fun _ => ([] : List Empty)) fun _ => Spares c F :=
  { (tolerant_spares c F).steps fun d _ => spares_defineVariable d with
    report := fun _ _ => .of_funcs_eq rfl rfl rfl rfl
    prototype := fun h body hn => spares_enterPrototype ident (hn h body rfl)
    fillBody := fun h body hn hb =>
      have real := realizes_blockStatements c body
      spares_fillBody (hn h body rfl) real (hb.of_live real) }

theorem spares_statement (ident : F.Identified) {n : Node}
    (hn : ∀ m ∈ n.parts, ∀ h body, m = .funcDecl h body → F h body) :
    Always (Spares c F) (statement c n) :=
  ((introduces_spares ident).walks.statement n hn).of_live (realizes_statement c n)

/-! ## The body under construction -/

/-- A statement keeps the function under construction and its loops. -/
theorem statement_kept {n : Node} (h : statement c n s = .ok u s') : s.body.Kept s'.body := by
  have real := realizes_statement c n
  cases hl : s.body.cursor with
  | none =>
    rw [real.dead s u s' h hl]
    exact .refl _
  | some l =>
    obtain ⟨-, f, -, built⟩ := real.builds h (by rw [hl]; rfl)
    exact built.kept

/-- Code is all that an expression adds to the body. -/
theorem Lays.kept {α : Type} {m : Lower α} (h : Lays m) {a : α} (hr : m s = .ok a s') :
    s.body.Kept s'.body := by
  obtain ⟨-, code, grows⟩ := h s a s' hr
  exact grows.kept

/-- A nested definition leaves the body under construction as it was. -/
theorem funcDecl_keeps_body {n : Node} (hn : n.unwrap = .funcDecl h body)
    (hr : statement c n s = .ok u s') : s'.body = s.body := by
  rw [← statement_unwrap, hn] at hr
  unfold statement at hr
  rcases whenLive_eq_ok.mp hr with ⟨-, hr⟩ | ⟨-, rfl⟩
  · have fill {s₁} (hf : fillBody c h body (blockStatements c body) s₁ = .ok u s') :
        s'.body = s₁.body := (fillBody_advances (realizes_blockStatements c body) hf).2
    rw [get_bind_apply] at hr
    rcases ite_eq_ok.mp hr with ⟨-, hr⟩ | ⟨-, hr⟩
    · obtain ⟨_, s₁, h₁, h₂⟩ := bind_eq_ok.mp hr
      exact (fill h₂).trans (declares_enterPrototype c h body _ _ _ h₁).2
    · exact fill hr
  · rfl

/-! ## In the middle of a function -/

/-- A function whose body was begun is under construction. -/
structure Midway (c : Context) (F : Definitions) (s : State) : Prop where
  ledger : Ledger c F s
  underway : Underway F s s.body.fn

theorem Midway.keep (hs : Midway c F s) (h : Spares c F s s') (hb : s.body.Kept s'.body) :
    Midway c F s' := by
  have books := (h hs.ledger).1
  refine ⟨books.ledger, ?_⟩
  rw [hb.fn]
  exact hs.underway.keep books

/-- Code leads from the middle of a function to the middle of that function. -/
theorem preserves_midway {α : Type} {m : Lower α} (hl : Lays m) (hm : Always (Spares c F) m) :
    Always (Preserves (Midway c F)) m :=
  fun _ _ _ h hs => hs.keep (hm _ _ _ h) (hl.kept h)

/-- The unit begins in the middle of the init function. -/
theorem midway_init (c : Context) (F : Definitions) (triple : String) :
    Midway c F ((State.declare { module := { triple } } (initFunction c.config)).setBody
      { fn := 0 }) := by
  have L : Ledger c F (State.declare { module := { triple } } (initFunction c.config)) :=
    ledger_init (initFunction_name c.config) rfl rfl rfl rfl
  have same : Bookkeeping c F (fun _ => True) _ ((State.declare { module := { triple } }
    (initFunction c.config)).setBody { fn := 0 }) := .of_funcs_eq L rfl rfl rfl rfl
  exact ⟨same.ledger, .inl rfl⟩

/-- The body of a definition begins in the middle of its function. -/
theorem midway_begin (L : Ledger c F s) (ho : Owns F s h id) (hnew : h.site.id ∉ s.lowered)
    (exported : Bool) {b : Body} (hb : b.fn = id) :
    Midway c F ((s.beginBody h.site.id id exported).setBody b) := by
  refine ⟨ledger_begin L ho hnew exported b, .inr ⟨h, ⟨ho.1, ?_⟩, List.mem_cons_self⟩⟩
  rw [State.setBody_body, hb]
  exact ho.2

end Lower

/-- Whatever lowers without error keeps the function under construction and its loops, and a nested
    definition the whole body under construction: its blocks, its counters, its loops and the place
    of the next instruction. In the middle of a function a statement also leaves the functions in
    the module as they are whose bodies were begun, among them that function and all around it; and
    it is in the middle of a function that units and bodies begin, and that the prototypes, the
    parameters and the statements before it end. -/
theorem enclosing_kept (c : Context) :
    (∀ n s s', statement c n s = .ok () s' → s.body.Kept s'.body) ∧
    (∀ e s s', (∀ v, valueOf c e s = .ok v s' → s.body.Kept s'.body) ∧
      (∀ v, condition c e s = .ok v s' → s.body.Kept s'.body) ∧
      (∀ p, placeOf c e s = .ok p s' → s.body.Kept s'.body)) ∧
    (∀ n h body s s', n.unwrap = .funcDecl h body → statement c n s = .ok () s' →
      s'.body = s.body) ∧
    ∀ F : Definitions, F.Identified →
      (∀ triple, Midway c F ((State.declare { module := { triple } }
        (initFunction c.config)).setBody { fn := 0 })) ∧
      (∀ s h id exported b, Ledger c F s → Owns F s h id → h.site.id ∉ s.lowered → b.fn = id →
        Midway c F ((s.beginBody h.site.id id exported).setBody b)) ∧
      (∀ inSpace decls, (∀ m ∈ Node.partsAll decls, ∀ h body, m = .funcDecl h body → F h body) →
        Always (Preserves (Midway c F)) (emitLeading c (emissionOrder c.analysis inSpace decls))) ∧
      (∀ fn site i params, Always (Preserves (Midway c F)) (storeParams c fn site i params)) ∧
      ∀ n, (∀ m ∈ n.parts, ∀ h body, m = .funcDecl h body → F h body) → ∀ s s', Midway c F s →
        statement c n s = .ok () s' → Midway c F s' ∧
          s'.module.funcs[s.body.fn]? = s.module.funcs[s.body.fn]? ∧
          ∀ id, Underway F s id → s'.module.funcs[id]? = s.module.funcs[id]? := by
  refine ⟨fun n s s' h => statement_kept h, fun e s s' => ⟨fun v h => (lays_valueOf c e).kept h,
    fun v h => (lays_condition c e).kept h, fun p h => (lays_placeOf c e).kept h⟩,
    fun n h body s s' hn hr => funcDecl_keeps_body hn hr, fun F ident => ?_⟩
  have spares := tolerant_spares c F
  refine ⟨midway_init c F, fun s h id exported b L ho hnew hb => midway_begin L ho hnew exported hb,
    fun inSpace decls hn => preserves_midway (lays_emitLeading c _)
      ((introduces_spares ident).emitLeading hn),
    fun fn site i params => preserves_midway (lays_storeParams c fn site i params)
      (spares.storeParams (fun _ _ => .of_funcs_eq rfl rfl rfl rfl) fn site i params), ?_⟩
  intro n hn s s' hs hr
  have spared := spares_statement ident hn s () s' hr
  have entries := (spared hs.ledger).2
  exact ⟨hs.keep spared (statement_kept hr), entries _ hs.underway, entries⟩

/-- A loop that is left at once. -/
def idleLoop (site : NodeId) : Node :=
  .whileStmt { id := site } (.boolLit { id := site + 1 } true)
    (.mk { id := site + 2 } [.branch { id := site + 3 } (.known .breakWord)])

/-- The function `outer`, with a loop and with the function `inner`, which has a loop too. -/
def nestedLoops : Node :=
  .funcDecl { site := { id := 1 }, name := "outer" }
    (.mk { id := 2 } [idleLoop 10, .funcDecl innerHead (.mk { id := 4 } [idleLoop 20]), idleLoop 30])

/-- The init function when it begins. -/
def initBegins : State :=
  (State.declare { module := { triple := "" } } (initFunction {})).setBody { fn := 0 }

/-- The init function around both functions. -/
theorem enclosing_kept_nestedLoops :
    ∃ s', statement ⟨twoFunctions, {}⟩ nestedLoops initBegins = .ok () s' ∧
      s'.body = initBegins.body ∧ s'.module.funcs[0]? = initBegins.module.funcs[0]? ∧
      (∃ f ∈ s'.module.funcs[2]?, f.blocks.length = 5) := by
  have mem {h : FuncHead} {body : Block} (hm : .funcDecl h body ∈ nestedLoops.parts) :
      (h = { site := { id := 1 }, name := "outer" } ∧ body = (.mk { id := 2 } [idleLoop 10,
        .funcDecl innerHead (.mk { id := 4 } [idleLoop 20]), idleLoop 30])) ∨
      (h = innerHead ∧ body = .mk { id := 4 } [idleLoop 20]) := by
    simpa [nestedLoops, idleLoop, Node.parts, Block.parts, Node.partsAll] using hm
  have identified : Definitions.Identified fun h body => .funcDecl h body ∈ nestedLoops.parts := by
    intro h body h' body' hd hd' he
    rcases mem hd with ⟨rfl, rfl⟩ | ⟨rfl, rfl⟩ <;> rcases mem hd' with ⟨rfl, rfl⟩ | ⟨rfl, rfl⟩
    · exact ⟨rfl, rfl⟩
    · exact absurd he (by decide)
    · exact absurd he (by decide)
    · exact ⟨rfl, rfl⟩
  have lowered : ∃ s ∈ Lower.endState? (statement ⟨twoFunctions, {}⟩ nestedLoops initBegins),
      ∃ f ∈ s.module.funcs[2]?, f.blocks.length = 5 := by decide +kernel
  obtain ⟨s', hs, hf⟩ := lowered
  have hs := Lower.eq_ok_of_mem_endState? hs
  obtain ⟨-, -, nested, midway⟩ := enclosing_kept ⟨twoFunctions, {}⟩
  obtain ⟨starts, -, -, -, kept⟩ := midway _ identified
  have entries := kept nestedLoops (fun m hm h body he => he ▸ hm) _ s' (starts "") hs
  exact ⟨s', hs, nested _ _ _ _ _ rfl hs, entries.2.2 0 (.inl rfl), hf⟩

end TreeLowering
