import TreeLowering.Proofs.Prototypes

/-!
Every prototype gets its body. A namespace declares its functions before anything else in it is
lowered, and lowers their bodies in turn; a statement in it that diverts cuts the rest off. So the
bodies of all prototypes are lowered if in no namespace a function follows such a statement
(`lowerUnit_fills_prototypes`); otherwise a prototype may be left without a body
(`lowerUnit_leaves_prototype`).
-/
namespace TreeLowering

open Lower

/-! ## Namespaces -/

/-- A declaration of a function whose body is to be lowered. -/
def Node.Fills (c : Context) (n : Node) (h : FuncHead) (body : Block) : Prop :=
  n.unwrap = .funcDecl h body ∧ h.hasBody body = true ∧ h.Active c

/-- No function whose body is to be lowered follows a declaration that diverts. -/
def Orderly (c : Context) (inSpace : Bool) : List Node → Prop
  | [] => True
  | n :: ns =>
    (takesTurn c.analysis inSpace n = true → n.diverts c = true →
      ∀ m ∈ ns, ∀ h body, ¬ m.Fills c h body) ∧ Orderly c inSpace ns

namespace Lower

variable {c : Context} {F : Definitions} {K : NodeId → Prop} {s s' : State} {u : Unit}

theorem statement_unwrap (c : Context) (n : Node) : statement c n.unwrap = statement c n := by
  fun_induction Node.unwrap n with
  | case1 site label x ih =>
    have look : statement c (.labelled site label x) = statement c x := by rw [statement]
    rw [look, ih]
  | case2 n _ => rfl

theorem takesTurn_of_fills {a : Analysis} {inSpace : Bool} {n : Node} {h : FuncHead}
    {body : Block} (hn : n.Fills c h body) : takesTurn a inSpace n = true := by
  unfold takesTurn
  rw [classify_eq_func.mpr hn.1]
  have hb := hn.2.1
  simp only [FuncHead.hasBody, Bool.and_eq_true] at hb
  exact hb.1

/-- Declarations lower the bodies of all functions among them, if none is cut off by one that
    diverts. At top level none is, as control reaches the end. -/
theorem statementsWhere_lowers (ident : F.Identified) {inSpace : Bool} {decls : List Node}
    (hF : ∀ n ∈ decls, ∀ h body, n.unwrap = .funcDecl h body → F h body)
    (hstep : ∀ n ∈ decls, Handled c (Tracks c F K) n)
    (hord : Orderly c inSpace decls ∨ s'.body.cursor.isSome)
    (hr : statementsWhere c (takesTurn c.analysis inSpace) decls s = .ok u s')
    (hl : s.body.cursor.isSome) (L : Ledger c F s) :
    ∀ n ∈ decls, ∀ h body, n.Fills c h body → h.site.id ∈ s'.lowered := by
  induction decls generalizing s with
  | nil => exact fun n hn => absurd hn List.not_mem_nil
  | cons m ms ih =>
    intro n hn h body hfills
    have hF' := (List.forall_mem_cons.mp hF).2
    have hstep' := (List.forall_mem_cons.mp hstep).2
    have hord' : Orderly c inSpace ms ∨ s'.body.cursor.isSome := hord.imp_left And.right
    unfold statementsWhere at hr
    rcases ite_eq_ok.mp hr with ⟨hturn, hr⟩ | ⟨hturn, hr⟩
    · obtain ⟨_, s₁, h₁, h₂⟩ := bind_eq_ok.mp hr
      have p₁ := (hstep m List.mem_cons_self).statement s _ s₁ h₁ L
      rcases List.mem_cons.mp hn with rfl | hn
      · -- It is its turn, and there is a place for instructions.
        have hbody := (hstep n List.mem_cons_self).body h body hfills.1
        have hd := hF n List.mem_cons_self h body hfills.1
        rw [← statement_unwrap, hfills.1] at h₁
        have here := (funcDecl_books ident hd hbody h₁ L).2 hl hfills.2.1 hfills.2.2
        exact (always_statementsWhere hstep' _ s₁ _ s' h₂ p₁.ledger).lowered here
      · have hlive := statement_live h₁ hl
        cases hdiv : m.diverts c with
        | false =>
          rw [hdiv] at hlive
          exact ih hF' hstep' hord' h₂ hlive p₁.ledger n hn h body hfills
        | true =>
          -- The rest is cut off.
          rcases hord with hord | hend
          · exact absurd hfills (hord.1 hturn hdiv n hn h body)
          · have hdead : s₁.body.cursor = none := by simpa [hdiv] using hlive
            cases (realizes_statementsWhere c _ ms).dead s₁ _ s' h₂ hdead
            rw [hdead] at hend
            cases hend
    · rcases List.mem_cons.mp hn with rfl | hn
      · exact absurd (takesTurn_of_fills hfills) hturn
      · exact ih hF' hstep' hord' hr hl L n hn h body hfills

/-- The definitions that declarations make wait before they lower them. -/
def Declared (decls : List Node) (key : NodeId) : Prop :=
  ∃ n ∈ decls, ∃ h body, n.unwrap = .funcDecl h body ∧ h.site.id = key

theorem tracks_emitLeading (ident : F.Identified) {inSpace : Bool} {decls : List Node}
    (hF : ∀ n ∈ decls, ∀ h body, n.unwrap = .funcDecl h body → F h body) :
    Always (Tracks c F fun key => K key ∨ Declared decls key)
      (emitLeading c (emissionOrder c.analysis inSpace decls)) := by
  refine .bind' (.forM_mem fun p hp => ?_) fun _ =>
    .bind' (.forM_mem fun d _ => tracks_defineVariable d) fun _ =>
      .forM_mem fun d _ => tracks_defineVariable d
  obtain ⟨n, hn, he⟩ := mem_funcs_emissionOrder.mp hp
  intro s u s' hr L
  refine (enterPrototype_books ident (hF n hn _ _ he) hr L).mono fun key hk => ?_
  exact .inr ⟨n, hn, _, _, he, hk.symm⟩

/-- Declarations in order: all functions are declared first, then their bodies lowered. -/
theorem declarations_books (ident : F.Identified) {inSpace : Bool} {decls : List Node} {s₁ : State}
    (hF : ∀ n ∈ decls, ∀ h body, n.unwrap = .funcDecl h body → F h body)
    (hstep : ∀ n ∈ decls, Handled c (Tracks c F K) n)
    (hord : Orderly c inSpace decls ∨ s'.body.cursor.isSome)
    (h₁ : emitLeading c (emissionOrder c.analysis inSpace decls) s = .ok u s₁)
    (h₂ : statementsWhere c (takesTurn c.analysis inSpace) decls s₁ = .ok u s')
    (hl : s.body.cursor.isSome) (L : Ledger c F s) : Bookkeeping c F K s s' := by
  have p₁ := tracks_emitLeading (K := K) ident hF s _ s₁ h₁ L
  have p₂ := always_statementsWhere hstep _ s₁ _ s' h₂ p₁.ledger
  have hl₁ : s₁.body.cursor.isSome := by
    obtain ⟨-, code, g⟩ := lays_emitLeading c _ _ _ _ h₁
    exact g.live hl
  refine (p₁.trans (p₂.mono fun _ hk => .inl hk)).settle ?_
  rintro f ⟨⟨id, ho⟩, hwait⟩ (hk | ⟨n, hn, h, body, he, hkey⟩)
  · exact hk
  · -- An owner declared here is active, so its body was lowered here.
    obtain ⟨rfl, hb⟩ := ho.eq_of_id ident (hF n hn h body he) hkey.symm
    have ha := p₂.ledger.active f id ho
    exact absurd (statementsWhere_lowers ident hF hstep hord h₂ hl₁ p₁.ledger n hn f body
      ⟨he, hb, ha⟩) hwait

/-- What is asked of the nodes of a unit: functions are definitions, and namespaces are orderly
    unless it does not matter who waits. -/
structure Settled (c : Context) (F : Definitions) (K : NodeId → Prop) (n : Node) : Prop where
  function : ∀ h body, n = .funcDecl h body → F h body
  space : ∀ site name decls, n = .space site name decls → Orderly c true decls ∨ ∀ key, K key

theorem Settled.definition {decls : List Node} (h : ∀ m ∈ Node.partsAll decls, Settled c F K m) :
    ∀ n ∈ decls, ∀ head body, n.unwrap = .funcDecl head body → F head body :=
  fun _ hn head body he => (h _ (Node.unwrap_mem_partsAll hn)).function head body he

theorem handles_tracks (ident : F.Identified) :
    Handles c (Settled c F K) (Tracks c F K) where
  toTolerant := tolerant_tracks c F K
  varDecl d _ := tracks_defineVariable d
  funcDecl h body hn hb s u s' hr L :=
    (funcDecl_books ident (hn.function h body rfl) hb hr L).1
  space site name decls hn inside hs s u s' hr L := by
    have hF := Settled.definition inside
    unfold statement at hr
    rcases whenLive_eq_ok.mp hr with ⟨hl, hr⟩ | ⟨-, rfl⟩
    · simp only [report_bind_apply] at hr
      obtain ⟨_, s₁, h₁, h₂⟩ := bind_eq_ok.mp hr
      have p₀ : Bookkeeping c F K s
          { s with trace := s.trace ++ [.enteredSpace name
            (emissionOrder c.analysis true decls).size] } := .of_funcs_eq L rfl rfl rfl rfl
      refine p₀.trans ?_
      rcases hn.space site name decls rfl with hord | hall
      · exact declarations_books ident hF hs (.inl hord) h₁ h₂ hl p₀.ledger
      · have p₁ := tracks_emitLeading (K := K) ident hF _ _ _ h₁ p₀.ledger
        have p₂ := always_statementsWhere hs _ s₁ _ s' h₂ p₁.ledger
        exact (p₁.mono fun key _ => hall key).trans p₂
    · exact .refl L

/-! ## Units -/

/-- The bodies of all functions at top level are lowered, as control reaches the end. -/
theorem topLevel_books (ident : F.Identified) {decls : List Node}
    (hn : ∀ m ∈ Node.partsAll decls, Settled c F K m) (hr : topLevel c decls s = .ok u s')
    (hl : s.body.cursor.isSome) (L : Ledger c F s) : Bookkeeping c F K s s' := by
  obtain ⟨s₂, s₃, code, hend, h₃, rfl⟩ := topLevel_eq_ok hr
  obtain ⟨_, s₁, h₁, h₂⟩ := bind_eq_ok.mp code
  have hs := (handles_tracks ident).eachStatement decls hn
  have p₁ := declarations_books ident (Settled.definition hn) hs (.inr hend) h₁ h₂ hl L
  have p₂ := (tolerant_tracks c F K).touches.runEntry _ _ _ _ h₃ p₁.ledger
  exact p₁.trans (p₂.trans ((tolerant_tracks c F K).body _ _ p₂.ledger))

/-- After the init function was declared there are no prototypes and no bodies. -/
theorem ledger_init {f : Ir.Function} (hf : f.name = Abi.initFunction)
    (hm : s.module.funcs.size = 0) (hy : s.symbols = []) (hp : s.prototypes = [])
    (hl : s.lowered = []) : Ledger c F (s.declare f) := by
  have none : ∀ h id, ¬ Owns F (s.declare f) h id := by
    intro h id ho
    have := ho.prototype
    rw [State.declare, hp] at this
    cases this
  have only : ∀ name id, (s.declare f).symbols.lookup name = some id →
      name = f.name ∧ id = s.module.funcs.size := by
    intro name id hn
    rcases lookup_cons_cases hn with hn | only
    · rw [hy] at hn
      cases hn
    · exact only
  exact
    { init := by rw [← hf, State.declare, List.lookup_cons_self, hm]
      size := fun name id hn => by
        rw [(only name id hn).2]
        exact Nat.lt_of_lt_of_eq (Nat.lt_succ_self _) (Array.size_push _).symm
      inj := fun a b id ha hb => (only a id ha).1.trans (only b id hb).1.symm
      active := fun h id ho => absurd ho (none h id)
      symbol := fun h id ho => absurd ho (none h id)
      single := fun h _ id _ ho => absurd ho (none h id)
      begun := fun key hk => by
        rw [State.declare, hl] at hk
        cases hk
      nodup := by
        rw [State.declare, hl]
        exact List.nodup_nil }

/-- From the declaration of the init function on, the books are kept. -/
theorem wholeUnit_books (ident : F.Identified) {decls : List Node}
    (hn : ∀ m ∈ Node.partsAll decls, Settled c F K m) (hm : s.module.funcs.size = 0)
    (hy : s.symbols = []) (hp : s.prototypes = []) (hl : s.lowered = [])
    (hr : wholeUnit c decls s = .ok u s') :
    Bookkeeping c F K (s.declare (initFunction c.config)) s' := by
  obtain ⟨trace, s₁, h₁, rfl⟩ := wholeUnit_eq_ok hr
  have L : Ledger c F (s.declare (initFunction c.config)) :=
    ledger_init (initFunction_name c.config) hm hy hp hl
  have p₀ : Bookkeeping c F K (s.declare (initFunction c.config))
      ((State.declare { s with trace } (initFunction c.config)).setBody
        { fn := s.module.funcs.size }) := .of_funcs_eq L rfl rfl rfl rfl
  have p₁ := topLevel_books ident hn h₁ rfl p₀.ledger
  exact p₀.trans (p₁.trans (install_books p₁.ledger s.body s₁.trace))

end Lower

/-- If in no namespace a function follows a declaration that diverts, then every definition with a
    body that got a prototype has its body lowered exactly once, and its function has blocks. -/
theorem lowerUnit_fills_prototypes (analysis : Analysis) (config : Config) (decls : List Node)
    (m : Ir.Module) (ident : (definitionsOf decls).Identified)
    (hord : ∀ site name inner, .space site name inner ∈ Node.partsAll decls →
      Orderly ⟨analysis, config⟩ true inner)
    (h : (lowerUnit analysis config decls).result = .ok m) :
    ∃ s, Lower.wholeUnit ⟨analysis, config⟩ decls { module := { triple := config.triple } } =
        .ok () s ∧ s.module = m ∧
      ∀ head body id, definitionsOf decls head body → head.hasBody body = true →
        head.Active ⟨analysis, config⟩ → s.prototypes.lookup head.site.id = some (some id) →
        s.lowered.count head.site.id = 1 ∧ ∃ f, m.funcs[id]? = some f ∧ f.blocks ≠ [] := by
  obtain ⟨s, hs, rfl⟩ := lowerUnit_eq_ok h
  refine ⟨s, hs, rfl, fun head body id hd hb _ hp => ?_⟩
  have settled : ∀ n ∈ Node.partsAll decls,
      Lower.Settled ⟨analysis, config⟩ (definitionsOf decls) (fun _ => False) n := fun n hn =>
    ⟨fun h body he => by rwa [definitionsOf, ← he],
      fun site name inner he => .inl (hord site name inner (he ▸ hn))⟩
  have books := Lower.wholeUnit_books ident settled rfl rfl rfl rfl hs
  have ho : Owns (definitionsOf decls) s head id := ⟨⟨body, hd, hb⟩, hp⟩
  have hlow : head.site.id ∈ s.lowered := by
    by_cases hm : head.site.id ∈ s.lowered
    · exact hm
    · -- Nothing waited in the beginning.
      rcases books.waits head ⟨⟨id, ho⟩, hm⟩ with ⟨⟨_, hw⟩, -⟩ | hk
      · cases hw.prototype
      · exact hk.elim
  obtain ⟨head', id', he, ho', hf⟩ := books.done _ hlow List.not_mem_nil
  have hsame : id' = id := by
    have := ho'.prototype
    rw [he, hp] at this
    cases this
    rfl
  rw [hsame] at hf
  exact ⟨by rw [books.ledger.nodup.count, if_pos hlow], hf⟩

/-- Two functions that return nothing. -/
def twoFunctions : Analysis where
  store :=
    { scopes := #[{ bindings := [("outer", 0), ("inner", 1)] }]
      objects := #[
        { name := "outer", type := .func [] .missing false, kind := .variable {} },
        { name := "inner", type := .func [] .missing false, kind := .variable {} }] }
  facts := { types := [(some 3, .func [] .missing false)] }

/-- The function `inner`. -/
def innerHead : FuncHead := { site := { id := 3 }, name := "inner" }

/-- The function `outer`, with a namespace around the function `inner` and a `return`. -/
def spaceUnit (returnsFirst : Bool) : List Node :=
  let inner : Node := .funcDecl innerHead (.mk { id := 4 } [])
  let leave : Node := .ret { id := 5 } .absent
  [.funcDecl { site := { id := 1 }, name := "outer" }
    (.mk { id := 2 } [.space { id := 6 } "N" (if returnsFirst then [leave, inner]
      else [inner, leave])])]

/-- The state in which a run that succeeds ends. -/
def Lower.endState? : EStateM.Result Fault State Unit → Option State
  | .ok _ s => some s
  | .error _ _ => none

theorem Lower.eq_ok_of_mem_endState? {r : EStateM.Result Fault State Unit} {s : State}
    (h : s ∈ endState? r) : r = .ok () s := by
  cases r with
  | ok u s' =>
    cases h
    rfl
  | error f s' => cases h

theorem lowerUnit_fills_prototypes_spaceUnit :
    (definitionsOf (spaceUnit false)).Identified ∧
      (∀ site name inner, .space site name inner ∈ Node.partsAll (spaceUnit false) →
        Orderly ⟨twoFunctions, {}⟩ true inner) ∧
      ∃ m, (lowerUnit twoFunctions {} (spaceUnit false)).result = .ok m ∧
        ∃ s, Lower.wholeUnit ⟨twoFunctions, {}⟩ (spaceUnit false) {} = .ok () s ∧ s.module = m ∧
          s.prototypes.lookup innerHead.site.id = some (some 2) ∧
          s.lowered.count innerHead.site.id = 1 ∧ ∃ f, m.funcs[2]? = some f ∧ f.blocks ≠ [] := by
  have identified : (definitionsOf (spaceUnit false)).Identified := by
    intro h body h' body' hd hd' he
    simp only [definitionsOf, spaceUnit, Node.partsAll, Node.parts, Block.parts, List.mem_cons,
      List.append_nil, List.nil_append, List.cons_append, List.not_mem_nil, Node.funcDecl.injEq,
      reduceCtorEq, or_false, false_or, Bool.false_eq_true, if_false] at hd hd'
    rcases hd with ⟨rfl, rfl⟩ | ⟨rfl, rfl⟩ <;> rcases hd' with ⟨rfl, rfl⟩ | ⟨rfl, rfl⟩
    · exact ⟨rfl, rfl⟩
    · exact absurd he (by decide)
    · exact absurd he (by decide)
    · exact ⟨rfl, rfl⟩
  have orderly : ∀ site name inner, .space site name inner ∈ Node.partsAll (spaceUnit false) →
      Orderly ⟨twoFunctions, {}⟩ true inner := by
    intro site name inner hn
    simp only [spaceUnit, Node.partsAll, Node.parts, Block.parts, List.mem_cons,
      List.append_nil, List.nil_append, List.cons_append, List.not_mem_nil, Node.space.injEq,
      reduceCtorEq, or_false, false_or, Bool.false_eq_true, if_false] at hn
    obtain ⟨-, -, rfl⟩ := hn
    refine ⟨fun _ hd => ?_, fun _ _ _ hm => ?_, trivial⟩
    · cases hd
    · cases hm
  have lowered : ∃ m ∈ (lowerUnit twoFunctions {} (spaceUnit false)).result.toOption, True := by
    decide +kernel
  have prototyped : ∃ s ∈ Lower.endState?
      (Lower.wholeUnit ⟨twoFunctions, {}⟩ (spaceUnit false) {}),
      s.prototypes.lookup innerHead.site.id = some (some 2) := by decide +kernel
  obtain ⟨m, hm, -⟩ := lowered
  obtain ⟨s, hs, hp⟩ := prototyped
  have hm := eq_ok_of_mem_toOption hm
  have hs := Lower.eq_ok_of_mem_endState? hs
  obtain ⟨s', hs', hmod, filled⟩ :=
    lowerUnit_fills_prototypes twoFunctions {} (spaceUnit false) m identified orderly hm
  cases hs.symm.trans hs'
  have active : innerHead.Active ⟨twoFunctions, {}⟩ := ⟨rfl, [], .missing, rfl⟩
  exact ⟨identified, orderly, m, hm, s, hs, hmod, hp,
    filled innerHead (.mk { id := 4 } []) 2 (by simp [definitionsOf, spaceUnit, Node.partsAll,
      Node.parts, Block.parts]) rfl active hp⟩

/-- A `return` before a function of the same namespace leaves its prototype without a body. -/
theorem lowerUnit_leaves_prototype :
    ∃ m, (lowerUnit twoFunctions {} (spaceUnit true)).result = .ok m ∧
      ∃ s, Lower.wholeUnit ⟨twoFunctions, {}⟩ (spaceUnit true) {} = .ok () s ∧ s.module = m ∧
        definitionsOf (spaceUnit true) innerHead (.mk { id := 4 } []) ∧
        innerHead.hasBody (.mk { id := 4 } []) = true ∧ innerHead.Active ⟨twoFunctions, {}⟩ ∧
        s.prototypes.lookup innerHead.site.id = some (some 2) ∧
        s.lowered.count innerHead.site.id = 0 ∧
          ∃ f, m.funcs[2]? = some f ∧ f.blocks = [] := by
  have lowered : ∃ m ∈ (lowerUnit twoFunctions {} (spaceUnit true)).result.toOption, True := by
    decide +kernel
  have left : ∃ s ∈ Lower.endState? (Lower.wholeUnit ⟨twoFunctions, {}⟩ (spaceUnit true) {}),
      s.prototypes.lookup innerHead.site.id = some (some 2) ∧
        s.lowered.count innerHead.site.id = 0 ∧ ∃ f ∈ s.module.funcs[2]?, f.blocks = [] := by
    decide +kernel
  obtain ⟨m, hm, -⟩ := lowered
  have hm := eq_ok_of_mem_toOption hm
  obtain ⟨s, hs, hp, hc, hf⟩ := left
  have hs := Lower.eq_ok_of_mem_endState? hs
  obtain ⟨s', hs', rfl⟩ := lowerUnit_eq_ok hm
  cases hs.symm.trans hs'
  exact ⟨_, hm, s, hs, rfl, by simp [definitionsOf, spaceUnit, Node.partsAll, Node.parts,
    Block.parts], rfl, ⟨rfl, [], .missing, rfl⟩, hp, hc, hf⟩

end TreeLowering
