import TreeLowering.Proofs.Statement

/-!
Function bodies. Lowering a definition fills the function of its prototype with a finished body,
leaves the body around it as it was, and does nothing else to functions but what lowering the
statements inside does. With that every statement is lowered to the flow it stands for
(`realizes_statement`), and every function of a lowered unit is a declaration or finished
(`lowerUnit_finished`).
-/
namespace TreeLowering

namespace State

/-- The state in which the body of a definition begins. -/
def beginBody (s : State) (key : NodeId) (id : Ir.FuncId) (exported : Bool) : State :=
  { s with
    lowered := key :: s.lowered
    module := if exported then
      { s.module with funcs := s.module.funcs.modify id fun f => { f with isExported := true } }
      else s.module }

/-- The types of the parameters of a function. -/
def paramTypes (s : State) (id : Ir.FuncId) : List Ir.Ty :=
  ((s.module.funcs[id]?).map fun f => f.params.map Prod.snd).getD []

/-- Installs the blocks of the body under construction, and goes back to another body. -/
def install (s : State) (outer : Body) : State :=
  { s with
    module := { s.module with
      funcs := s.module.funcs.modify s.body.fn fun f => { f with blocks := s.body.closed } }
    body := outer }

end State

/-- How a body ends that runs to its end: it returns if it returns nothing. -/
def Context.ending (c : Context) (result : Ty) : Ir.Term :=
  if result.isMissing || c.analysis.store.isVoid result then .ret none else .unreachable

theorem Context.ending_successors (c : Context) (result : Ty) :
    (c.ending result).successors = [] := by
  unfold Context.ending
  split <;> rfl

namespace Lower

variable {s s' : State} {u : Unit}

theorem withBody_eq_ok {body : Body} {step : Lower Unit}
    (h : withBody body step s = .ok u s') :
    ∃ s₁, step (s.setBody body) = .ok () s₁ ∧ s' = s₁.install s.body := by
  unfold withBody at h
  simp only [get_bind_apply, modifyBody_bind_apply] at h
  obtain ⟨_, s₁, hs, h⟩ := bind_eq_ok.mp h
  exact ⟨s₁, hs, ((EStateM.Result.ok.inj h).2).symm⟩

theorem closeBody_eq_ok {c : Context} (ho : s.body.cursor.isSome → s.body.cursorIsOpen = true)
    (h : closeBody c s = .ok u s') : s' = s.setBody (s.body.finish (c.ending s.body.result)) := by
  unfold closeBody at h
  simp only [get_bind_apply] at h
  rcases ite_eq_ok.mp h with ⟨-, h⟩ | ⟨hn, h⟩
  · unfold Context.ending
    rcases ite_eq_ok.mp h with ⟨hv, h⟩ | ⟨hv, h⟩
    · rw [if_pos hv]
      exact (terminate_eq_ok.mp h).2.symm
    · rw [if_neg hv]
      exact (terminate_eq_ok.mp h).2.symm
  · obtain ⟨-, rfl⟩ := pure_eq_ok.mp h
    have hc : s.body.cursor = none := by
      cases hc : s.body.cursor with
      | none => rfl
      | some l => exact absurd (ho (by simp [hc])) hn
    rw [Body.finish_eq_self hc, State.setBody_self]

theorem signatureOf_eq_ok {c : Context} {h : FuncHead} {sig : Signature}
    (hs : signatureOf c h s = .ok sig s') :
    s' = s ∧ c.analysis.typeOfFunc h = .func sig.params sig.result sig.inactive := by
  unfold signatureOf knownType at hs
  obtain ⟨t, s₁, ht, hs⟩ := bind_eq_ok.mp hs
  rcases ite_eq_ok.mp ht with ⟨-, ht⟩ | ⟨-, ht⟩
  · simp at ht
  · obtain ⟨rfl, rfl⟩ := pure_eq_ok.mp ht
    generalize c.analysis.typeOfFunc h = t at hs
    cases t with
    | func params result inactive =>
      obtain ⟨rfl, rfl⟩ := pure_eq_ok.mp hs
      exact ⟨rfl, rfl⟩
    | _ => exact (reject_ne_ok.mp hs).elim

/-- The parameters are stored, the statements lowered, and the end is closed. -/
def bodySteps (c : Context) (id : Ir.FuncId) (site : Site) (params : List (String × Ir.Ty))
    (step : Lower Unit) : Lower Unit := do
  storeParams c id site 0 params
  step
  closeBody c

/-- Lowering the body of an active definition fills the function of its prototype, and stores its
    parameters with the types that the function has. -/
theorem fillBody_opens {c : Context} {h : FuncHead} {body : Block} {step : Lower Unit}
    {params : List (String × Ty)} {result : Ty} (hbody : h.hasBody body = true)
    (hdecl : h.isTypeDecl = false) (htype : c.analysis.typeOfFunc h = .func params result false)
    (hf : fillBody c h body step s = .ok u s') :
    ∃ (id : Ir.FuncId) (site : Site) (exported : Bool) (s₁ : State) (trace : List Event),
      s.prototypes.lookup h.site.id = some (some id) ∧ body.site? = some site ∧
      h.site.id ∉ s.lowered ∧
      bodySteps c id site
        ((h.params.map Prod.fst).zip ((s.beginBody h.site.id id exported).paramTypes id)) step
        ((s.beginBody h.site.id id exported).setBody { fn := id, head := some h, result }) =
          .ok () s₁ ∧
      s' = { s₁.install s.body with trace } := by
  unfold fillBody at hf
  rw [if_neg (by simp [hbody, hdecl])] at hf
  obtain ⟨sig, s₀, hsig, hf⟩ := bind_eq_ok.mp hf
  have hsame := (signatureOf_eq_ok hsig).2
  cases (signatureOf_eq_ok hsig).1
  rw [htype, Ty.func.injEq] at hsame
  rw [if_neg (by simp [← hsame.2.2])] at hf
  simp only [get_bind_apply] at hf
  cases hid : s.prototypes.lookup h.site.id with
  | none => simp [hid] at hf
  | some proto =>
    cases proto with
    | none => simp [hid] at hf
    | some id =>
      cases hsite : body.site? with
      | none => simp [hid, hsite] at hf
      | some site =>
        simp only [hid, hsite, get_bind_apply] at hf
        rcases ite_eq_ok.mp hf with ⟨-, hf⟩ | ⟨hlow, hf⟩
        · simp at hf
        have hlow : h.site.id ∉ s.lowered := by simpa using hlow
        refine ⟨id, site, ?_⟩
        rw [hsame.2.1]
        simp only [modify_bind_apply] at hf
        -- Exported or not, the rest is the same.
        rcases ite_eq_ok.mp hf with ⟨-, hf⟩ | ⟨-, hf⟩
        · obtain ⟨_, s₁, hm, hf⟩ := bind_eq_ok.mp hf
          cases hm
          rw [get_bind_apply] at hf
          obtain ⟨_, s₂, hb, hf⟩ := bind_eq_ok.mp hf
          obtain ⟨s₃, hs, rfl⟩ := withBody_eq_ok hb
          cases hf
          exact ⟨true, s₃, _, rfl, rfl, hlow, hs, rfl⟩
        · rw [get_bind_apply] at hf
          obtain ⟨_, s₂, hb, hf⟩ := bind_eq_ok.mp hf
          obtain ⟨s₃, hs, rfl⟩ := withBody_eq_ok hb
          cases hf
          exact ⟨false, s₃, _, rfl, rfl, hlow, hs, rfl⟩

/-- Lowering the body of an active definition fills the function of its prototype. -/
theorem fillBody_enters {c : Context} {h : FuncHead} {body : Block} {step : Lower Unit}
    {params : List (String × Ty)} {result : Ty} (hbody : h.hasBody body = true)
    (hdecl : h.isTypeDecl = false) (htype : c.analysis.typeOfFunc h = .func params result false)
    (hf : fillBody c h body step s = .ok u s') :
    ∃ (id : Ir.FuncId) (site : Site) (types : List Ir.Ty) (exported : Bool) (s₁ : State)
      (trace : List Event),
      s.prototypes.lookup h.site.id = some (some id) ∧ body.site? = some site ∧
      h.site.id ∉ s.lowered ∧
      bodySteps c id site ((h.params.map Prod.fst).zip types) step
        ((s.beginBody h.site.id id exported).setBody { fn := id, head := some h, result }) =
          .ok () s₁ ∧
      s' = { s₁.install s.body with trace } := by
  obtain ⟨id, site, exported, s₁, trace, rest⟩ := fillBody_opens hbody hdecl htype hf
  exact ⟨id, site, _, exported, s₁, trace, rest⟩

/-- Lowering the body of a definition without one, or of one that is not active, does nothing. -/
theorem fillBody_skips {c : Context} {h : FuncHead} {body : Block} {step : Lower Unit}
    (hskip : ¬ (h.hasBody body = true ∧ h.isTypeDecl = false ∧
      ∃ params result, c.analysis.typeOfFunc h = .func params result false))
    (hf : fillBody c h body step s = .ok u s') : s' = s := by
  unfold fillBody at hf
  rcases ite_eq_ok.mp hf with ⟨-, hf⟩ | ⟨hbody, hf⟩
  · exact (pure_eq_ok.mp hf).2.symm
  obtain ⟨sig, s₀, hsig, hf⟩ := bind_eq_ok.mp hf
  have htype := (signatureOf_eq_ok hsig).2
  cases (signatureOf_eq_ok hsig).1
  rcases ite_eq_ok.mp hf with ⟨-, hf⟩ | ⟨hactive, hf⟩
  · exact (pure_eq_ok.mp hf).2.symm
  · simp only [Bool.or_eq_true, not_or, Bool.not_eq_true, Bool.not_eq_false'] at hbody
    rw [Bool.not_eq_true] at hactive
    rw [hactive] at htype
    exact absurd ⟨hbody.1, hbody.2, _, _, htype⟩ hskip

/-- Lowering a body does nothing, or fills the function of the prototype. -/
theorem fillBody_eq_ok {c : Context} {h : FuncHead} {body : Block} {step : Lower Unit}
    (hf : fillBody c h body step s = .ok u s') :
    s' = s ∨ ∃ (params : List (String × Ty)) (result : Ty) (id : Ir.FuncId)
      (site : Site) (types : List Ir.Ty) (exported : Bool) (s₁ : State) (trace : List Event),
      c.analysis.typeOfFunc h = .func params result false ∧
      s.prototypes.lookup h.site.id = some (some id) ∧ body.site? = some site ∧
      h.site.id ∉ s.lowered ∧
      bodySteps c id site ((h.params.map Prod.fst).zip types) step
        ((s.beginBody h.site.id id exported).setBody { fn := id, head := some h, result }) =
          .ok () s₁ ∧
      s' = { s₁.install s.body with trace } := by
  by_cases henter : h.hasBody body = true ∧ h.isTypeDecl = false ∧
      ∃ params result, c.analysis.typeOfFunc h = .func params result false
  · obtain ⟨hbody, hdecl, params, result, htype⟩ := henter
    obtain ⟨id, site, types, exported, s₁, trace, rest⟩ := fillBody_enters hbody hdecl htype hf
    exact .inr ⟨params, result, id, site, types, exported, s₁, trace, htype, rest⟩
  · exact .inl (fillBody_skips henter hf)

/-- The statements of a function come after its parameters were stored, and the end after them. -/
theorem bodySteps_reads {c : Context} {id : Ir.FuncId} {site : Site}
    {params : List (String × Ir.Ty)} {step : Lower Unit} {R : Reading} (h : Realizes step R)
    {head : Option FuncHead} {result : Ty}
    (hs : bodySteps c id site params step (s.setBody { fn := id, head, result }) = .ok u s') :
    Advances s s' ∧ ∃ s₁ code f s₂,
      storeParams c id site 0 params (s.setBody { fn := id, head, result }) = .ok () s₁ ∧
      GrowsBy { fn := id, head, result } code s₁.body ∧ s₁.body.cursor.isSome ∧
      step s₁ = .ok () s₂ ∧ R s₁ f s₂ ∧ s'.body = s₂.body.finish (c.ending result) := by
  obtain ⟨_, s₁, h₁, hs⟩ := bind_eq_ok.mp hs
  obtain ⟨_, s₂, h₂, h₃⟩ := bind_eq_ok.mp hs
  obtain ⟨a₁, code, g₁⟩ := lays_storeParams c id site 0 params _ _ _ h₁
  have hcode : Builds none { fn := id, head, result } (.code code) true s₁.body := .code rfl g₁
  obtain ⟨a₂, f, hf, b₂⟩ := h.builds h₂ hcode.cursor_isSome
  have built := Builds.seq hcode b₂
  -- Where the cursor is, the block has not ended.
  have hopen : s₂.body.cursor.isSome → s₂.body.cursorIsOpen = true := by
    intro hl
    obtain ⟨shaped, -⟩ := built.shaped (P := []) (shaped_start id head result)
    obtain ⟨l, hl⟩ := Option.isSome_iff_exists.mp hl
    obtain ⟨-, block, hb, hlabel, ht⟩ := shaped.cursor l hl
    simp only [Body.cursorIsOpen, hl, List.any_eq_true]
    exact ⟨block, Ir.findBlock_mem hb, by simp [hlabel, ht]⟩
  have hresult : s₂.body.result = result := built.kept.result
  cases closeBody_eq_ok hopen h₃
  exact ⟨(a₁.of_setBody.trans a₂).setBody _, s₁, code, f, s₂, h₁, g₁, hcode.cursor_isSome, h₂, hf,
    by rw [State.setBody_body, hresult]⟩

theorem advances_beginBody (s : State) (key : NodeId) (id : Ir.FuncId) (exported : Bool) :
    Advances s (s.beginBody key id exported) := by
  cases exported with
  | true =>
    exact .modify (g := fun f => { f with isExported := true }) rfl fun _ => .inl rfl
  | false => exact .of_funcs_eq rfl

theorem advances_install {s : State} (outer : Body)
    (h : Finished s.body.fn s.body.closed) : Advances s (s.install outer) :=
  .modify (g := fun f => { f with blocks := s.body.closed }) rfl fun _ => .inr h

theorem fillBody_advances {c : Context} {h : FuncHead} {body : Block} {step : Lower Unit}
    {R : Reading} (hr : Realizes step R) (hf : fillBody c h body step s = .ok u s') :
    Advances s s' ∧ s'.body = s.body := by
  rcases fillBody_eq_ok hf with
    rfl | ⟨params, result, id, site, types, exported, s₁, trace, -, -, -, -, hs, rfl⟩
  · exact ⟨.of_funcs_eq rfl, rfl⟩
  · obtain ⟨adv, s₂, code, f, s₃, -, hg, hl, -, hf, hbody⟩ := bodySteps_reads hr hs
    have hb : Builds none _ (.seq (.code code) f) _ s₃.body :=
      .seq (.code rfl hg) (hr.built s₂ f s₃ hf hl)
    have hfn : s₁.body.fn = id := by
      rw [hbody, Body.finish_fn]
      exact hb.kept.fn
    -- Storing the parameters is code before the statements.
    have hfin : Finished s₁.body.fn s₁.body.closed := by
      rw [hfn, hbody]
      exact ⟨_, _, _, _, s₃.body, _, hb, c.ending_successors result, rfl⟩
    exact ⟨((advances_beginBody s h.site.id id exported).trans adv).trans
      (advances_install s.body hfin), rfl⟩

/-! ## Statements -/

theorem realizes_funcDecl (c : Context) (h : FuncHead) {body : Block} {R : Reading}
    (hb : Realizes (blockStatements c body) R) :
    Realizes (statement c (.funcDecl h body)) (Node.Reads c (.funcDecl h body)) := by
  unfold Node.Reads statement
  refine .of_body_eq fun s u s' hm => ?_
  simp only [get_bind_apply] at hm
  rcases ite_eq_ok.mp hm with ⟨-, hm⟩ | ⟨-, hm⟩
  · obtain ⟨_, s₁, hp, hf⟩ := bind_eq_ok.mp hm
    obtain ⟨adv₁, hb₁⟩ := declares_enterPrototype c h body _ _ _ hp
    obtain ⟨adv₂, hb₂⟩ := fillBody_advances hb hf
    exact ⟨adv₁.trans adv₂, hb₂.trans hb₁⟩
  · exact fillBody_advances hb hm

theorem steady_enterStruct (c : Context) (d : StructDecl) : Steady (enterStruct c d) := by
  intro s u s' h
  unfold enterStruct at h
  cases ht : c.analysis.recordedType? (some d.site) with
  | none =>
    simp only [ht, pure_eq_ok] at h
    exact h.2 ▸ ⟨rfl, .refl s⟩
  | some t =>
    have hd : ∀ t, Steady (discard (instructionType c t)) := by
      intro t s u s' h
      obtain ⟨a, ha⟩ := discard_eq_ok.mp h
      exact steady_instructionType c t s a s' ha
    cases t with
    | missing =>
      simp only [ht, pure_eq_ok] at h
      exact h.2 ▸ ⟨rfl, .refl s⟩
    | _ =>
      simp only [ht] at h
      exact hd _ s u s' h

theorem realizes_space (c : Context) (site : Site) (name : String) {decls : List Node}
    (h : Realizes (statementsWhere c (takesTurn c.analysis true) decls)
      (Node.ReadsAll c (takesTurn c.analysis true) decls)) :
    Realizes (statement c (.space site name decls)) (Node.Reads c (.space site name decls)) := by
  unfold statement Node.Reads
  refine .of_live ?_ fun s u s' hm hl => ?_
  · rintro s f s' ⟨code, g, s₁, rfl, ⟨-, hg⟩, hf⟩ hl
    have hb : Builds none s.body (.code code) true s₁.body := .code hl hg
    exact .seq hb (h.built s₁ g s' hf hb.cursor_isSome)
  obtain ⟨s₁, h₁, h₂⟩ : ∃ s₁, enterSpace c name decls s = .ok () s₁ ∧
      statementsWhere c (takesTurn c.analysis true) decls s₁ = .ok u s' := by
    simp only [report_bind_apply] at hm
    obtain ⟨_, s₁, h₁, h₂⟩ := bind_eq_ok.mp hm
    exact ⟨s₁, h₁, h₂⟩
  obtain ⟨a₁, code, g₁⟩ := lays_enterSpace c name decls _ _ _ h₁
  obtain ⟨a₂, f, hf⟩ := h.live _ _ _ h₂ (g₁.live hl)
  exact ⟨a₁.trans a₂, .seq (.code code) f, code, f, s₁, rfl, ⟨h₁, g₁⟩, hf⟩

theorem Realizes.misplaced {n : Node} :
    Realizes (whenLive (Lower.misplaced n)) fun _ _ _ => False := by
  refine .of_live (fun _ _ _ h => h.elim) fun s u s' h _ => ?_
  unfold Lower.misplaced at h
  cases hs : n.site? <;> simp [hs] at h

mutual

/-- A statement is lowered to the flow it stands for. -/
theorem realizes_statement (c : Context) :
    ∀ n : Node, Realizes (statement c n) (Node.Reads c n)
  | .labelled _ _ x => by
    unfold statement Node.Reads
    exact realizes_statement c x
  | .expr e => by
    unfold statement Node.Reads
    refine .of_live ?_ fun s u s' h hl => ?_
    · rintro s f s' ⟨code, v, rfl, -, hg⟩ hl
      exact .code hl hg
    obtain ⟨v, hv⟩ := discard_eq_ok.mp h
    obtain ⟨ha, code, hg⟩ := lays_valueOf c e s v s' hv
    exact ⟨ha, .code code, code, v, rfl, hv, hg⟩
  | .varDecl d => by
    unfold statement Node.Reads
    exact .of_lays (lays_defineVariable c d)
  | .funcDecl h body => realizes_funcDecl c h (realizes_blockStatements c body)
  | .structDecl d => by
    unfold Node.Reads statement
    exact .of_body_eq (Declares.of_steady (steady_enterStruct c d))
  | .space site name decls =>
    realizes_space c site name (realizes_statementsWhere c _ decls)
  | .block b => by
    have h := realizes_blockStatements c b
    unfold statement Node.Reads
    exact .of_live h.built h.live
  | .ifStmt site cond yes elifs no =>
    realizes_conditional c site cond (realizes_blockStatements c yes) (realizes_arms c elifs)
      fun _ => realizes_blockStatements c no
  | .forStmt site init cond iter body => by
    have h := Realizes.seq (realizes_statementsWhere c (fun _ => true) init)
      (realizes_forLoop c cond (realizes_blockStatements c body)
        (realizes_statementsWhere c (fun _ => true) iter))
    unfold statement Node.Reads
    exact .of_live h.built h.live
  | .whileStmt site cond body => by
    unfold statement
    exact realizes_whileLoop c site cond (realizes_blockStatements c body)
  | .branch site token => by
    unfold statement
    exact realizes_jump c site token
  | .ret site result => by
    unfold statement
    exact realizes_leave c site result
  | .typeRef _ | .program _ _ | .file _ | .elif _ => by
    unfold statement Node.Reads
    exact .misplaced

theorem realizes_blockStatements (c : Context) :
    ∀ b : Block, Realizes (blockStatements c b) (Block.Reads c b)
  | .missing => by
    unfold blockStatements Block.Reads
    exact ⟨fun _ _ _ h => (breach_ne_ok.mp h).elim, fun _ _ _ h => (breach_ne_ok.mp h).elim,
      fun _ _ _ h => h.elim⟩
  | .mk _ stmts => by
    unfold blockStatements Block.Reads
    exact realizes_statementsWhere c (fun _ => true) stmts

theorem realizes_statementsWhere (c : Context) (keep : Node → Bool) :
    ∀ ns : List Node, Realizes (statementsWhere c keep ns) (Node.ReadsAll c keep ns)
  | [] => by
    unfold statementsWhere Node.ReadsAll
    exact realizes_pure
  | n :: ns => by
    have first := realizes_statement c n
    have rest := realizes_statementsWhere c keep ns
    unfold statementsWhere Node.ReadsAll
    cases keep n with
    | true => exact first.seq rest
    | false => exact rest

theorem realizes_arms (c : Context) : ∀ es : List Elif, ∀ e ∈ es, Realized c e
  | [], _, h => nomatch h
  | .missing :: es, e, h => by
    rcases List.mem_cons.mp h with rfl | h
    · trivial
    · exact realizes_arms c es e h
  | .mk site cond body :: es, e, h => by
    have here := realizes_blockStatements c body
    rcases List.mem_cons.mp h with rfl | h
    · exact here
    · exact realizes_arms c es e h

end

end Lower

end TreeLowering
