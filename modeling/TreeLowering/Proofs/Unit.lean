import TreeLowering.Proofs.Checked
import TreeLowering.Proofs.Function

/-!
Whole units. Every function of a lowered unit is a declaration or was finished
(`lowerUnit_finished`), so what holds of every finished function holds of the module: it passes
verification (`lowerUnit_verifies`) and its graphs are connected (`lowerUnit_connected`).
Verification therefore never changes the outcome.
-/
namespace TreeLowering

namespace Lower

variable {s s' : State} {u : Unit}

theorem steady_entryFunc (c : Context) :
    ∀ funcs : List (FuncHead × Block), Steady (entryFunc c funcs)
  | [] => .pure' _
  | (h, _) :: rest => by
    unfold entryFunc
    refine .ite' (.get_bind fun s => ?_) (steady_entryFunc c rest)
    split
    · exact .pure' _
    · exact steady_entryFunc c rest

theorem lays_runEntry (c : Context) (funcs : List (FuncHead × Block)) :
    Lays (runEntry c funcs) := by
  refine .bind' (Lays.of_steady (steady_entryFunc c funcs)) fun r => ?_
  split
  · exact .pure' _
  · have call : ∀ callee, Lays (discard (callAt .cursor callee [])) := fun callee =>
      .of_emits fun fn => Emits.discard' (emits_callAt (p := .free fn) _ trivial (by simp))
    exact .get_bind fun s => .ite' (call _) (.reject' _ _)

/-- What top-level code does before it calls the entry function: the declarations in order. -/
def topCode (c : Context) (decls : List Node) : Lower Unit := do
  emitLeading c (emissionOrder c.analysis false decls)
  statementsWhere c (takesTurn c.analysis false) decls

/-- What the init function returns: that of a shared library says that it was loaded. -/
def initResult (config : Config) : Option Ir.Value :=
  if config.isLibrary then some (.i32 Abi.librarySuccess) else none

theorem topLevel_eq (c : Context) (decls : List Node) :
    topLevel c decls = (do
      topCode c decls
      if (← get).body.cursor.isNone then reject Position.none .noFallThrough
      runEntry c (emissionOrder c.analysis false decls).funcs
      terminate (.ret (initResult c.config))) := by
  unfold topLevel topCode
  rw [bind_assoc]
  rfl

/-- Top-level code comes to its end, where it calls the entry function and returns. -/
theorem topLevel_eq_ok {c : Context} {decls : List Node} (h : topLevel c decls s = .ok u s') :
    ∃ s₁ s₂, topCode c decls s = .ok () s₁ ∧ s₁.body.cursor.isSome ∧
      runEntry c (emissionOrder c.analysis false decls).funcs s₁ = .ok () s₂ ∧
      s' = s₂.setBody (s₂.body.finish (.ret (initResult c.config))) := by
  rw [topLevel_eq] at h
  obtain ⟨_, s₁, h₁, h⟩ := bind_eq_ok.mp h
  rw [get_bind_apply] at h
  rcases ite_eq_ok.mp h with ⟨-, h⟩ | ⟨hl, h⟩
  · simp at h
  obtain ⟨_, s₂, h₂, h⟩ := bind_eq_ok.mp h
  obtain ⟨-, rfl⟩ := terminate_eq_ok.mp h
  exact ⟨s₁, s₂, h₁, by cases hc : s₁.body.cursor <;> simp [hc] at hl ⊢, h₂, rfl⟩

theorem topCode_builds {c : Context} {decls : List Node} {b : Body} (hl : b.cursor.isSome)
    (h : topCode c decls (s.setBody b) = .ok u s') :
    Advances s s' ∧ ∃ flow r, Builds none b flow r s'.body := by
  obtain ⟨_, s₁, h₁, h₂⟩ := bind_eq_ok.mp h
  obtain ⟨a₁, code₁, g₁⟩ := lays_emitLeading c _ _ _ _ h₁
  have b₁ : Builds none b (.code code₁) true s₁.body := .code hl g₁
  obtain ⟨a₂, f, -, b₂⟩ := (realizes_statementsWhere c _ decls).builds h₂ b₁.cursor_isSome
  exact ⟨a₁.of_setBody.trans a₂, _, _, b₁.seq b₂⟩

/-- The top-level code of a unit is a body that runs to its end and returns. -/
theorem topLevel_builds {c : Context} {decls : List Node} {init : Ir.FuncId}
    (h : topLevel c decls (s.setBody { fn := init }) = .ok u s') :
    Advances s s' ∧ s'.body.fn = init ∧ Finished init s'.body.closed := by
  obtain ⟨s₁, s₂, h₁, hl, h₂, rfl⟩ := topLevel_eq_ok h
  obtain ⟨a₁, flow, r, b₁⟩ := topCode_builds rfl h₁
  obtain ⟨a₂, code, g₂⟩ := lays_runEntry c _ _ _ _ h₂
  -- Control falls through to the end.
  obtain rfl : r = true := b₁.cursor_isSome.symm.trans hl
  have built := b₁.seq (.code hl g₂)
  refine ⟨(a₁.trans a₂).setBody _, ?_, _, _, _, _, s₂.body, _, built, ?_, rfl⟩
  · rw [State.setBody_body, Body.finish_fn]
    exact built.kept.fn
  · rfl

theorem initFunction_blocks (config : Config) : (initFunction config).blocks = [] := by
  unfold initFunction
  split <;> rfl

theorem wholeUnit_advances {c : Context} {decls : List Node}
    (h : wholeUnit c decls s = .ok u s') : Advances s s' := by
  unfold wholeUnit at h
  simp only [report_bind_apply] at h
  obtain ⟨init, s₁, h₁, h⟩ := bind_eq_ok.mp h
  obtain ⟨s₂, h₂, rfl⟩ := withBody_eq_ok h
  have a₁ := (declares_addSymbol (initFunction_blocks c.config) _ _ _ h₁).1
  obtain ⟨a₂, hfn, hfin⟩ := topLevel_builds h₂
  have a₃ := advances_install s₁.body (hfn.symm ▸ hfin)
  exact Advances.trans (fun i f hf => a₁ i f hf) (a₂.trans a₃)

end Lower

/-- The module of a lowered unit is the one that the lowering of its declarations ends with. -/
theorem lowerUnit_eq_ok {analysis : Analysis} {config : Config} {decls : List Node}
    {m : Ir.Module} (h : (lowerUnit analysis config decls).result = .ok m) :
    ∃ s, Lower.wholeUnit ⟨analysis, config⟩ decls { module := { triple := config.triple } } =
      .ok () s ∧ s.module = m := by
  unfold lowerUnit at h
  simp only at h
  split at h
  · cases h
  · rename_i s hs
    refine ⟨s, hs, ?_⟩
    split at h
    · split at h
      · exact Except.ok.inj h
      · cases h
    · exact Except.ok.inj h

/-- Every function of a lowered unit is a declaration or was finished. -/
theorem lowerUnit_finished {analysis : Analysis} {config : Config} {decls : List Node}
    {m : Ir.Module} (h : (lowerUnit analysis config decls).result = .ok m) :
    ∀ i f, m.funcs[i]? = some f → f.blocks = [] ∨ Finished i f.blocks := by
  intro i f hf
  obtain ⟨s, hs, rfl⟩ := lowerUnit_eq_ok h
  rcases Lower.wholeUnit_advances hs i f hf with hb | ⟨f₀, hf₀, -⟩ | hb
  · exact .inl hb
  · simp at hf₀
  · exact .inr hb

/-! ## Verification -/

theorem verify_of_lowerUnit {analysis : Analysis} {config : Config} {decls : List Node}
    {m : Ir.Module} (h : (lowerUnit analysis config decls).result = .ok m) :
    m.verify = .ok () := by
  refine Ir.Module.verify_eq_ok_iff.mpr fun f hf => ?_
  obtain ⟨i, hi⟩ := Array.mem_iff_getElem?.mp hf
  rcases lowerUnit_finished h i f hi with hb | hb
  · exact fun hne => absurd hb hne
  · exact hb.wellFormed

/-- A unit fails with a fault; verification finds nothing in a module that was lowered. -/
theorem lowerUnit_failure {analysis : Analysis} {config : Config} {decls : List Node} {f : Failure}
    (h : (lowerUnit analysis config decls).result = .error f) : ∃ fault, f = .fault fault := by
  have passes := fun m =>
    @verify_of_lowerUnit analysis { config with verify := false } decls m
  have hsame : Lower.wholeUnit ⟨analysis, config⟩ decls =
      Lower.wholeUnit ⟨analysis, { config with verify := false }⟩ decls :=
    Lower.wholeUnit_checked ⟨analysis, { config with verify := false }⟩ config.verify decls
  unfold lowerUnit at h passes
  simp only [hsame] at h passes
  generalize Lower.wholeUnit ⟨analysis, { config with verify := false }⟩ decls
    { module := { triple := config.triple } } = r at h passes
  cases r with
  | error fault s => exact ⟨fault, (Except.error.inj h).symm⟩
  | ok u s =>
    have hv : s.module.verify = .ok () := passes s.module rfl
    simp only [hv] at h
    split at h <;> cases h

/-- A loop left at once, with a condition that needs blocks of its own. -/
def shortCircuitLoop : List Node :=
  [.whileStmt { id := 1 }
    (.binary { id := 2 } (.known .condAnd) (.boolLit { id := 3 } true) (.boolLit { id := 4 } false))
    (.mk { id := 5 } [.branch { id := 6 } (.known .breakWord)])]

/-- A lowered module passes verification, whatever was lowered; so asking for verification changes
    neither the outcome nor the reports. -/
theorem lowerUnit_verifies (analysis : Analysis) (config : Config) (decls : List Node) :
    (∀ m, (lowerUnit analysis { config with verify := false } decls).result = .ok m →
      m.verify = .ok ()) ∧
    lowerUnit analysis { config with verify := true } decls =
      lowerUnit analysis { config with verify := false } decls := by
  refine ⟨fun m h => verify_of_lowerUnit h, ?_⟩
  -- Lowering does not ask whether its result will be verified.
  have hsame : Lower.wholeUnit ⟨analysis, { config with verify := true }⟩ decls =
      Lower.wholeUnit ⟨analysis, { config with verify := false }⟩ decls :=
    Lower.wholeUnit_checked ⟨analysis, { config with verify := false }⟩ true decls
  have hpass := fun m => @verify_of_lowerUnit analysis { config with verify := false } decls m
  unfold lowerUnit at hpass ⊢
  simp only [hsame] at hpass ⊢
  generalize Lower.wholeUnit ⟨analysis, { config with verify := false }⟩ decls
    { module := { triple := config.triple } } = r at hpass ⊢
  cases r with
  | error f s => rfl
  | ok u s =>
    have hv : s.module.verify = .ok () := hpass s.module rfl
    simp only [hv]
    rfl

theorem lowerUnit_verifies_shortCircuitLoop :
    ∃ m, (lowerUnit default { verify := false } shortCircuitLoop).result = .ok m ∧
      m.verify = .ok () :=
  ⟨_, rfl, (lowerUnit_verifies default {} shortCircuitLoop).1 _ rfl⟩

/-! ## Graphs -/

/-- In a lowered module the blocks of every function with a body hang together: terminators lead to
    blocks of the function, nothing leads to the stack slots and only they lead to the first block,
    and joins of values come first and match the blocks that lead to them. -/
theorem lowerUnit_connected (analysis : Analysis) (config : Config) (decls : List Node)
    (m : Ir.Module) (h : (lowerUnit analysis config decls).result = .ok m) :
    ∀ f ∈ m.funcs, f.blocks ≠ [] → Ir.Connected f.blocks := by
  intro f hf hb
  obtain ⟨i, hi⟩ := Array.mem_iff_getElem?.mp hf
  rcases lowerUnit_finished h i f hi with he | hfin
  · exact absurd he hb
  · exact hfin.connected

theorem lowerUnit_connected_shortCircuitLoop :
    ∃ m : Ir.Module, (lowerUnit default {} shortCircuitLoop).result = .ok m ∧
      ∃ f ∈ m.funcs, f.blocks ≠ [] ∧ Ir.Connected f.blocks := by
  refine ⟨_, rfl, _, Array.getElem_mem (i := 0) (by decide), List.cons_ne_nil _ _, ?_⟩
  exact lowerUnit_connected default {} shortCircuitLoop _ rfl _
    (Array.getElem_mem (by decide)) (List.cons_ne_nil _ _)

end TreeLowering
