import TreeLowering.Proofs.EmissionOrder
import TreeLowering.Proofs.Homes
import TreeLowering.Proofs.Unit

/-!
Lowering keeps variables at home, so a unit whose variables are at home is lowered to functions
that refer to nothing of each other (`lowerUnit_selfContained`). A unit in which an inner
definition names a variable of an outer one may not be (`lowerUnit_captures`).
-/
namespace TreeLowering

namespace Lower

variable {home : ObjectId → Option Owner} {o : Owner} {fn : Ir.FuncId} {c : Context}

/-! ## Definitions -/

/-- A question to the analysis is answered by what it resolves. -/
theorem stays_variableAt (c : Context) (name : String) (site : Site) :
    Stays home o fn (variableAt c name site)
      fun v => c.analysis.resolve name (some site) = some v := by
  refine .of_emits (.of_steady (steady_variableAt c name site) fun s v s' h => ?_)
  unfold variableAt at h
  cases hr : c.analysis.resolve name (some site) with
  | none => simp [hr] at h
  | some v' =>
    simp only [hr, pure_eq_ok] at h
    rw [h.1]

theorem stays_defineGlobal {d : VarDecl} (hd : d.value.Names (AtHome c home o)) (v : ObjectId)
    (type : Ir.Ty) : Stays home o fn (defineGlobal c d v type) fun _ => True := by
  refine .bind' (.of_steady (steady_addGlobal _ _)) fun g _ => ?_
  have bind : Stays home o fn (bindVariable v (.global g type)) fun _ => True :=
    stays_bindVariable (.inl rfl)
  apply Stays.ite'
  · exact bind
  · refine .bind' (stays_valueAs hd _) fun init hi => ?_
    apply Stays.ite'
    · exact .bind' (.of_steady (steady_modifyGlobal _ _)) fun _ _ => bind
    · -- The place is a global, so it belongs to every function.
      exact .bind' (stays_storeAt _ hi trivial) fun _ _ => bind

theorem stays_defineLocal {d : VarDecl} (hd : d.value.Names (AtHome c home o)) {v : ObjectId}
    (hv : home v = some o) (type : Ir.Ty) :
    Stays home o fn (defineLocal c d v type) fun _ => True := by
  have rest : ∀ init : Ir.Value, init.BelongsTo fn → Stays home o fn (do
      let slot ← stackSlot type none
      store init slot
      bindVariable v slot) fun _ => True :=
    fun init hi => .bind' (stays_stackSlot _) fun slot hs =>
      .bind' (stays_storeAt _ hi hs) fun _ _ => stays_bindVariable (.inr ⟨hv, hs⟩)
  apply Stays.ite'
  · exact .bind' (.pure' trivial) rest
  · exact .bind' (stays_valueAs hd _) rest

/-- Whether a variable is local is a matter of its site and of the owner. -/
theorem stays_isLocal (d : VarDecl) :
    Stays home o fn (isLocal c d.site) fun b => b = d.isLocal c o :=
  .of_homely fun homes s b s' hm ho _ hh => by
    unfold isLocal at hm
    unfold VarDecl.isLocal
    cases hs : d.site.scope with
    | some scope =>
      simp only [hs, pure_eq_ok] at hm
      obtain ⟨rfl, rfl⟩ := hm
      exact ⟨rfl, rfl, rfl, hh⟩
    | none =>
      simp only [hs, get_bind_apply, pure_eq_ok] at hm
      obtain ⟨rfl, rfl⟩ := hm
      exact ⟨by rw [← ho, Body.owner, Option.isSome_map], rfl, rfl, hh⟩

theorem stays_defineVariable {d : VarDecl} (hd : d.Homed c home o) :
    Stays home o fn (defineVariable c d) fun _ => True := by
  refine .bind' (stays_variableAt c _ _) fun v hv => .ite' (.reject' _ _) ?_
  refine .bind' (.of_steady (steady_instructionType c _)) fun type _ => ?_
  have global : Stays home o fn (defineGlobal c d v type) fun _ => True :=
    stays_defineGlobal hd.value v type
  by_cases hg : (variableFlags c v).isGlobal = true
  · rw [if_pos hg]
    exact global
  · rw [if_neg hg]
    -- The code asks where it stands; the owner knows the answer beforehand.
    refine .bind' (stays_isLocal d) fun b hb => ?_
    subst hb
    by_cases hl : d.isLocal c o = true
    · rw [if_pos hl]
      exact stays_defineLocal hd.value (hd.settles v hv (by simpa using hg) hl) type
    · rw [if_neg hl]
      exact global

/-- A new function is a declaration. -/
theorem selfContained_push {funcs : Array Ir.Function} {f : Ir.Function} (hf : f.blocks = [])
    (h : ∀ i f, funcs[i]? = some f → Ir.SelfContained i f.blocks) :
    ∀ i f', (funcs.push f)[i]? = some f' → Ir.SelfContained i f'.blocks := by
  intro i f' hi
  rw [Array.getElem?_push] at hi
  split at hi
  · cases hi
    rw [hf]
    exact fun _ hb => nomatch hb
  · exact h i f' hi

theorem stays_addSymbol {f : Ir.Function} (hf : f.blocks = []) :
    Stays home o fn (addSymbol f) fun _ => True :=
  .of_homely fun homes s id s' hm _ _ hh => by
    cases hm
    exact ⟨trivial, rfl, rfl, { hh with funcs := selfContained_push hf hh.funcs }⟩

theorem stays_declareSymbol (h : FuncHead) (hasBody : Bool) (result : Ir.Ty)
    (params : List Ir.Ty) :
    Stays home o fn (declareSymbol h hasBody result params) fun _ => True := by
  refine .get_bind fun s => ?_
  split
  · apply Stays.ite'
    · exact .reject' _ _
    · exact stays_addSymbol rfl
  · exact .ite' (.reject' _ _) (.pure' trivial)

theorem stays_notePrototype (h : FuncHead) (f : Option Ir.FuncId) :
    Stays home o fn (notePrototype h f) fun _ => True :=
  .of_homely fun homes s u s' hm _ _ hh => by
    cases hm
    exact ⟨trivial, rfl, rfl, { hh with }⟩

theorem stays_report (e : Event) : Stays home o fn (report e) fun _ => True :=
  .of_steady (steady_report e)

/-- A function is a constant, so its variable needs no home. -/
theorem stays_declarePrototype (h : FuncHead) (body : Block) (v : ObjectId) (sig : Signature) :
    Stays home o fn (declarePrototype c h body v sig) fun _ => True := by
  refine .ite' .reject_bind ?_
  refine .bind' (.of_steady (steady_instructionSignature c _ _)) fun r _ => ?_
  refine .bind' (stays_declareSymbol _ _ _ _) fun id _ => ?_
  refine .bind' (stays_notePrototype _ _) fun _ _ => .get_bind fun s => ?_
  exact .bind' (stays_bindVariable (.inl rfl)) fun _ _ => stays_report _

theorem stays_enterPrototype (h : FuncHead) (body : Block) :
    Stays home o fn (enterPrototype c h body) fun _ => True := by
  refine .bind' (.of_steady (steady_signatureOf c h)) fun sig _ => ?_
  apply Stays.ite'
  · exact .bind' (stays_notePrototype _ _) fun _ _ => stays_report _
  · refine .bind' (.of_steady (steady_variableAt c _ _)) fun v _ => ?_
    have declare : Stays home o fn (declarePrototype c h body v sig) fun _ => True :=
      stays_declarePrototype h body v sig
    apply Stays.ite'
    · apply Stays.ite'
      · exact .reject_bind
      · exact .bind' (stays_report _) fun _ _ => declare
    · exact declare

/-- Parameters settle where they are stored. -/
theorem stays_storeParams {site : Site} :
    ∀ (i : Nat) (params : List (String × Ir.Ty)),
      (∀ name ∈ params.map Prod.fst, Settles c home o name site) →
      Stays home o fn (storeParams c fn site i params) fun _ => True
  | _, [], _ => .pure' trivial
  | i, (_, _) :: rest, hp =>
    .bind' (stays_variableAt c _ _) fun v hv => .bind' (stays_stackSlot _) fun _ hs =>
      .bind' (stays_storeAt _ rfl hs) fun _ _ =>
        .bind' (stays_bindVariable (.inr ⟨hp _ List.mem_cons_self v hv, hs⟩)) fun _ _ =>
          stays_storeParams (i + 1) rest fun name hn => hp name (List.mem_cons_of_mem _ hn)

/-! ## Control flow -/

theorem stays_conditionalArm {cond : Expr} (hc : cond.Names (AtHome c home o)) (done : Ir.Label)
    {arm : Lower Unit} (ha : Stays home o fn arm fun _ => True) (otherwise : Option String) :
    Stays home o fn (conditionalArm c done cond arm otherwise) fun _ => True := by
  refine .bind' (stays_condition hc) fun v hv => .bind' (stays_openBlock _) fun yes _ => ?_
  have rest : ∀ no, Stays home o fn (do
      terminate (.condBr v yes no)
      moveTo yes
      arm
      let joined ← branchIfLive done
      moveTo no
      pure (joined || otherwise.isNone)) fun _ => True :=
    fun no => .bind' (stays_condBr hv _ _) fun _ _ => .bind' (stays_moveTo _) fun _ _ =>
      .bind' ha fun _ _ => .bind' (stays_branchIfLive _) fun _ _ =>
        .bind' (stays_moveTo _) fun _ _ => .pure' trivial
  cases otherwise with
  | some name => exact .bind' (stays_openBlock _) fun no _ => rest no
  | none => exact .bind' (R := fun _ => True) (.pure' trivial) fun no _ => rest no

theorem stays_closeConditional (done : Ir.Label) (reached : Bool) :
    Stays home o fn (closeConditional done reached) fun _ => True := by
  apply Stays.ite'
  · exact .bind' (.modifyBody' (fun _ => ⟨rfl, rfl⟩) fun _ hb => hb.moveToEnd done) fun _ _ =>
      stays_moveTo _
  · exact .bind' (.modifyBody' (fun _ => ⟨rfl, rfl⟩) fun _ hb => hb.dropBlock done) fun _ _ =>
      stays_moveNowhere

theorem stays_runLoop (loop : Loop) (start : Ir.Label) {step : Lower Unit}
    (hs : Stays home o fn step fun _ => True) :
    Stays home o fn (runLoop loop start step) fun _ => True :=
  .bind' (.modifyBody' (fun _ => ⟨rfl, rfl⟩) fun _ hb => hb) fun _ _ =>
    .bind' (stays_moveTo _) fun _ _ => .bind' hs fun _ _ =>
      .bind' (.discard' (stays_branchIfLive _)) fun _ _ =>
        .modifyBody' (fun _ => ⟨rfl, rfl⟩) fun _ hb => hb

theorem stays_whileLoop {cond : Expr} (hc : cond.Names (AtHome c home o)) {step : Lower Unit}
    (hs : Stays home o fn step fun _ => True) :
    Stays home o fn (whileLoop c cond step) fun _ => True :=
  .bind' (stays_openBlock _) fun _ _ => .bind' (stays_openBlock _) fun _ _ =>
    .bind' (stays_openBlock _) fun _ _ => .bind' (stays_br _) fun _ _ =>
      .bind' (stays_moveTo _) fun _ _ => .bind' (stays_condition hc) fun _ hv =>
        .bind' (stays_condBr hv _ _) fun _ _ => .bind' (stays_runLoop _ _ hs) fun _ _ =>
          stays_moveTo _

theorem stays_forLoop {cond : Expr} (hc : cond.Names (AtHome c home o)) {iter step : Lower Unit}
    (hi : Stays home o fn iter fun _ => True) (hs : Stays home o fn step fun _ => True) :
    Stays home o fn (forLoop c cond iter step) fun _ => True := by
  refine .bind' (stays_openBlock _) fun test _ => .bind' (stays_openBlock _) fun start _ =>
    .bind' (stays_openBlock _) fun next _ => .bind' (stays_openBlock _) fun exit _ =>
      .bind' (stays_br _) fun _ _ => .bind' (stays_moveTo _) fun _ _ => ?_
  have rest : Stays home o fn (do
      runLoop ⟨exit, next⟩ start step
      moveTo next
      iter
      discard (branchIfLive test)
      moveTo exit) fun _ => True :=
    .bind' (stays_runLoop _ _ hs) fun _ _ => .bind' (stays_moveTo _) fun _ _ =>
      .bind' hi fun _ _ => .bind' (.discard' (stays_branchIfLive _)) fun _ _ => stays_moveTo _
  apply Stays.ite'
  · -- There is no condition.
    exact .bind' (stays_br _) fun _ _ => rest
  · exact .bind' (stays_condition hc) fun _ hv => .bind' (stays_condBr hv _ _) fun _ _ => rest

theorem stays_jump (site : Site) (token : Token) :
    Stays home o fn (jump site token) fun _ => True := by
  refine .get_bind fun s => ?_
  split
  · exact .reject' _ _
  · exact .bind' (stays_br _) fun _ _ => stays_moveNowhere

theorem stays_leave {result : Expr} (hr : result.Names (AtHome c home o)) (site : Site) :
    Stays home o fn (leave c site result) fun _ => True := by
  have ret : ∀ value : Option Ir.Value, (∀ v ∈ value, v.BelongsTo fn) →
      Stays home o fn (terminate (.ret value) >>= fun _ => moveNowhere) fun _ => True :=
    fun value hv => .bind' (stays_terminate (by simpa [Ir.Term.operands] using hv)) fun _ _ =>
      stays_moveNowhere
  refine .get_bind fun s => ?_
  dsimp only
  cases s.body.head with
  | none => exact .reject' _ _
  | some h =>
    apply Stays.ite'
    · exact .ite' (ret none (by simp)) .reject_bind
    · apply Stays.ite'
      · exact .reject_bind
      · exact .bind' (stays_valueAs hr _) fun v hv => ret (some v) (by simpa using hv)

/-! ## Bodies -/

theorem stays_closeBody : Stays home o fn (closeBody c) fun _ => True := by
  refine .get_bind fun s => ?_
  apply Stays.ite'
  · apply Stays.ite'
    · exact stays_terminate (by simp [Ir.Term.operands])
    · exact stays_terminate (by simp [Ir.Term.operands])
  · exact .pure' trivial

section
variable {homes : Owner → Option Ir.FuncId} {s : State} {h : FuncHead}

/-- The functions of the owners after the body of one more definition was begun. -/
def beginHome (homes : Owner → Option Ir.FuncId) (key : NodeId) (id : Ir.FuncId) :
    Owner → Option Ir.FuncId := fun o => if o = some key then some id else homes o

/-- A definition that is begun now had no home before, so the others keep theirs. -/
theorem beginHome_of_eq_some (hh : Homely home homes s) {key : NodeId} (hnew : key ∉ s.lowered)
    (id : Ir.FuncId) {o : Owner} {g : Ir.FuncId} (hg : homes o = some g) :
    beginHome homes key id o = some g := by
  have he : o ≠ some key := by
    rintro rfl
    exact hnew (hh.begun key (by simp [hg]))
  rw [beginHome, if_neg he, hg]

theorem homely_begin (hh : Homely home homes s) (hnew : h.site.id ∉ s.lowered) (id : Ir.FuncId)
    (exported : Bool) (result : Ty) :
    Homely home (beginHome homes h.site.id id)
      ((s.beginBody h.site.id id exported).setBody { fn := id, head := some h, result }) where
  here := if_pos rfl
  begun key hk := by
    by_cases he : key = h.site.id
    · rw [he]
      exact List.mem_cons_self
    · rw [beginHome, if_neg (by simpa using he)] at hk
      exact List.mem_cons_of_mem _ (hh.begun key hk)
  values v x hl := (hh.values v x hl).imp_right fun ⟨o, g, hv, hg, hx⟩ =>
    ⟨o, g, hv, beginHome_of_eq_some hh hnew id hg, hx⟩
  body := Body.selfContained_start _ _ _
  funcs i f hf := by
    cases exported with
    | false => exact hh.funcs i f hf
    | true =>
      change (s.module.funcs.modify id fun f => { f with isExported := true })[i]? = some f at hf
      rw [Array.getElem?_modify] at hf
      split at hf
      · obtain ⟨f₀, hf₀, rfl⟩ := Option.map_eq_some_iff.mp hf
        exact hh.funcs i f₀ hf₀
      · exact hh.funcs i f hf

/-- Installing a body keeps all functions self-contained, as the body is. -/
theorem install_selfContained (hh : Homely home homes s) (outer : Body) :
    ∀ i f, (s.install outer).module.funcs[i]? = some f → Ir.SelfContained i f.blocks := by
  intro i f hf
  change (s.module.funcs.modify s.body.fn fun f => { f with blocks := s.body.closed })[i]? =
    some f at hf
  rw [Array.getElem?_modify] at hf
  split at hf
  · rename_i he
    obtain ⟨f₀, -, rfl⟩ := Option.map_eq_some_iff.mp hf
    exact he ▸ hh.body
  · exact hh.funcs i f hf

end

/-- A body inside another one has a home of its own, and leaves the other one as it was. -/
theorem stays_fillBody {h : FuncHead} {body : Block} {step : Lower Unit}
    (hp : ∀ site, body.site? = some site → ∀ name ∈ h.params.map Prod.fst,
      Settles c home (some h.site.id) name site)
    (hs : ∀ id, Stays home (some h.site.id) id step fun _ => True) :
    Stays home o fn (fillBody c h body step) fun _ => True := by
  intro homes s u s' hf ho hfn hh
  rcases fillBody_eq_ok hf with
    rfl | ⟨params, result, id, site, types, exported, s₁, trace, -, -, hsite, hnew, hb, rfl⟩
  · exact ⟨trivial, ho, hfn, homes, fun _ _ hg => hg, hh⟩
  · have steps : Stays home (some h.site.id) id
        (bodySteps c id site ((h.params.map Prod.fst).zip types) step) fun _ => True :=
      .bind' (stays_storeParams 0 _ fun name hn => hp site hsite name (by
        obtain ⟨p, hp, rfl⟩ := List.mem_map.mp hn
        exact (List.of_mem_zip hp).1)) fun _ _ => .bind' (hs id) fun _ _ => stays_closeBody
    obtain ⟨-, -, -, homes', hx, hh'⟩ :=
      steps _ _ _ _ hb rfl rfl (homely_begin hh hnew id exported result)
    -- What was begun inside is at home elsewhere, so the body around finds its slots as they were.
    have keep : ∀ o g, homes o = some g → homes' o = some g := fun o g hg =>
      hx o g (beginHome_of_eq_some hh hnew id hg)
    have outer : Homely home homes' { s₁.install s.body with trace } :=
      { here := keep _ _ hh.here
        begun := hh'.begun
        values := hh'.values
        body := hh.body
        funcs := install_selfContained hh' s.body }
    exact ⟨trivial, ho, hfn, homes', keep, outer⟩

/-! ## Statements -/

theorem homed_unwrap : ∀ {n : Node}, n.Homed c home o → n.unwrap.Homed c home o
  | .labelled _ _ x, h => by
    unfold Node.Homed at h
    unfold Node.unwrap
    exact homed_unwrap h
  | .expr _, h | .varDecl _, h | .funcDecl _ _, h | .structDecl _, h | .space _ _ _, h
  | .block _, h | .ifStmt _ _ _ _ _, h | .forStmt _ _ _ _ _, h | .whileStmt _ _ _, h
  | .branch _ _, h | .ret _ _, h | .typeRef _, h | .program _ _, h | .file _, h | .elif _, h => h

theorem homed_of_mem : ∀ {ns : List Node}, Node.HomedAll c home o ns →
    ∀ n ∈ ns, n.Homed c home o
  | m :: ns, h, n, hn => by
    unfold Node.HomedAll at h
    rcases List.mem_cons.mp hn with rfl | hn
    · exact h.1
    · exact homed_of_mem h.2 n hn

theorem stays_emitLeading {inSpace : Bool} {decls : List Node}
    (h : Node.HomedAll c home o decls) :
    Stays home o fn (emitLeading c (emissionOrder c.analysis inSpace decls)) fun _ => True := by
  have homed : ∀ d, d ∈ (emissionOrder c.analysis inSpace decls).consts ∨
      d ∈ (emissionOrder c.analysis inSpace decls).globals → d.Homed c home o := by
    intro d hd
    obtain ⟨n, hn, he⟩ := mem_emissionOrder hd
    have hu := homed_unwrap (homed_of_mem h n hn)
    rw [he] at hu
    unfold Node.Homed at hu
    exact hu
  refine .bind' (.forM' fun p _ => stays_enterPrototype p.1 p.2) fun _ _ => ?_
  exact .bind' (.forM' fun d hd => stays_defineVariable (homed d (.inl hd))) fun _ _ =>
    .forM' fun d hd => stays_defineVariable (homed d (.inr hd))

theorem stays_misplaced (n : Node) : Stays home o fn (misplaced n) fun _ => True := by
  unfold misplaced
  split
  · exact .reject' _ _
  · exact .breach' _

mutual

/-- Statements whose variables are at home keep variables at home. -/
theorem stays_statement (c : Context) {o : Owner} {fn : Ir.FuncId} :
    ∀ n : Node, n.Homed c home o → Stays home o fn (statement c n) fun _ => True
  | .labelled _ _ x, h => by
    unfold Node.Homed at h
    unfold statement
    exact stays_statement c x h
  | .expr e, h => by
    unfold Node.Homed at h
    unfold statement
    exact .whenLive' (.discard' (stays_valueOf h))
  | .varDecl d, h => by
    unfold Node.Homed at h
    unfold statement
    exact .whenLive' (stays_defineVariable h)
  | .funcDecl head body, h => by
    unfold Node.Homed at h
    unfold statement
    -- The statements inside are those of another owner, whichever function it gets.
    have fill : Stays home o fn (fillBody c head body (blockStatements c body)) fun _ => True :=
      stays_fillBody h.1 fun id => stays_blockStatements c body h.2
    refine .whenLive' (.get_bind fun s => ?_)
    apply Stays.ite'
    · exact .bind' (stays_enterPrototype head body) fun _ _ => fill
    · exact fill
  | .structDecl d, _ => by
    unfold statement
    exact .whenLive' (.of_steady (steady_enterStruct c d))
  | .space _ _ decls, h => by
    unfold Node.Homed at h
    unfold statement
    exact .whenLive' (.bind' (stays_report _) fun _ _ => .bind' (stays_emitLeading h) fun _ _ =>
      stays_statementsWhere c _ decls h)
  | .block b, h => by
    unfold Node.Homed at h
    unfold statement
    exact .whenLive' (stays_blockStatements c b h)
  | .ifStmt _ cond yes elifs no, h => by
    unfold Node.Homed at h
    unfold statement
    obtain ⟨hcond, hyes, helifs, hno⟩ := h
    apply Stays.whenLive'
    apply Stays.ite'
    · exact .bind' (.breach' _) fun _ (hf : False) => hf.elim
    · refine .bind' (stays_openBlock _) fun done _ => ?_
      refine .bind' (stays_conditionalArm hcond done (stays_blockStatements c yes hyes) _)
        fun first _ => ?_
      refine .bind' (stays_elifArms c done no elifs helifs) fun later _ => ?_
      have close : ∀ last, Stays home o fn (closeConditional done (first || later || last))
          fun _ => True := fun last => stays_closeConditional done _
      apply Stays.ite'
      · exact .bind' (R := fun _ => True) (.pure' trivial) fun _ _ => close _
      · exact .bind' (stays_blockStatements c no hno) fun _ _ =>
          .bind' (stays_branchIfLive done) fun _ _ => close _
  | .forStmt _ init cond iter body, h => by
    unfold Node.Homed at h
    unfold statement
    obtain ⟨hinit, hcond, hiter, hbody⟩ := h
    refine .whenLive' (.bind' (stays_statementsWhere c _ init hinit) fun _ _ => ?_)
    exact .whenLive' (stays_forLoop hcond (stays_statementsWhere c _ iter hiter)
      (stays_blockStatements c body hbody))
  | .whileStmt _ cond body, h => by
    unfold Node.Homed at h
    unfold statement
    exact .whenLive' (stays_whileLoop h.1 (stays_blockStatements c body h.2))
  | .branch site token, _ => by
    unfold statement
    exact .whenLive' (stays_jump site token)
  | .ret site result, h => by
    unfold Node.Homed at h
    unfold statement
    exact .whenLive' (stays_leave h site)
  | .typeRef _, _ | .program _ _, _ | .file _, _ | .elif _, _ => by
    unfold statement
    exact .whenLive' (stays_misplaced _)

theorem stays_blockStatements (c : Context) {o : Owner} {fn : Ir.FuncId} :
    ∀ b : Block, b.Homed c home o → Stays home o fn (blockStatements c b) fun _ => True
  | .missing, _ => by
    unfold blockStatements
    exact .breach' _
  | .mk _ stmts, h => by
    unfold Block.Homed at h
    unfold blockStatements
    exact stays_statementsWhere c _ stmts h

theorem stays_statementsWhere (c : Context) {o : Owner} {fn : Ir.FuncId} (keep : Node → Bool) :
    ∀ ns : List Node, Node.HomedAll c home o ns →
      Stays home o fn (statementsWhere c keep ns) fun _ => True
  | [], _ => by
    unfold statementsWhere
    exact .pure' trivial
  | n :: ns, h => by
    unfold Node.HomedAll at h
    unfold statementsWhere
    have rest : Stays home o fn (statementsWhere c keep ns) fun _ => True :=
      stays_statementsWhere c keep ns h.2
    apply Stays.ite'
    · exact .bind' (stays_statement c n h.1) fun _ _ => rest
    · exact rest

theorem stays_elifArms (c : Context) {o : Owner} {fn : Ir.FuncId} (done : Ir.Label) (no : Block) :
    ∀ es : List Elif, Elif.HomedAll c home o es →
      Stays home o fn (elifArms c done no es) fun _ => True
  | [], _ => by
    unfold elifArms
    exact .pure' trivial
  | .missing :: _, _ => by
    unfold elifArms
    exact .breach' _
  | .mk _ cond body :: rest, h => by
    unfold Elif.HomedAll at h
    unfold elifArms
    exact .bind' (stays_conditionalArm h.1 done (stays_blockStatements c body h.2.1) _)
      fun _ _ => .bind' (stays_elifArms c done no rest h.2.2) fun _ _ => .pure' trivial

end

/-! ## Units -/

theorem stays_runEntry (funcs : List (FuncHead × Block)) :
    Stays home o fn (runEntry c funcs) fun _ => True := by
  refine .bind' (.of_steady (steady_entryFunc c funcs)) fun r _ => ?_
  have call : ∀ (f : Ir.Function) id, Stays home o fn (discard (callAt .cursor (f.value id) []))
      fun _ => True := fun f id =>
    .of_emits (.discard' (emits_callAt _ trivial (by simp)))
  split
  · exact .pure' trivial
  · refine .get_bind fun s => ?_
    apply Stays.ite'
    · exact call _ _
    · exact .reject' _ _

theorem stays_topLevel {decls : List Node} (h : Node.HomedAll c home o decls) :
    Stays home o fn (topLevel c decls) fun _ => True := by
  refine .bind' (stays_emitLeading h) fun _ _ =>
    .bind' (stays_statementsWhere c _ decls h) fun _ _ => .get_bind fun s => ?_
  apply Stays.ite'
  · exact .reject_bind
  · refine .bind' (stays_runEntry _) fun _ _ => stays_terminate ?_
    -- A library returns a constant, anything else returns nothing.
    intro v hv
    cases hlib : c.config.isLibrary with
    | true =>
      rw [hlib] at hv
      cases List.mem_singleton.mp hv
      exact Ir.Value.belongsTo_of_isConstant rfl
    | false =>
      rw [hlib] at hv
      cases hv

/-- When a unit begins, its top-level code is the only owner that was begun. -/
theorem homely_unit {s : State} (init : Ir.FuncId) (hv : s.values = [])
    (hf : ∀ i f, s.module.funcs[i]? = some f → Ir.SelfContained i f.blocks) :
    Homely home (fun o => if o = none then some init else none) (s.setBody { fn := init }) where
  here := rfl
  begun key hk := by simp at hk
  values v x hl := by simp [hv] at hl
  body := Body.selfContained_start _ _ _
  funcs := hf

theorem wholeUnit_selfContained {s s' : State} {u : Unit} {decls : List Node}
    (hd : Node.HomedAll c home none decls) (hv : s.values = [])
    (hf : ∀ i f, s.module.funcs[i]? = some f → Ir.SelfContained i f.blocks)
    (h : wholeUnit c decls s = .ok u s') :
    ∀ i f, s'.module.funcs[i]? = some f → Ir.SelfContained i f.blocks := by
  unfold wholeUnit at h
  simp only [report_bind_apply] at h
  obtain ⟨init, s₁, h₁, h⟩ := bind_eq_ok.mp h
  obtain ⟨s₂, h₂, rfl⟩ := withBody_eq_ok h
  have hs₁ : s₁.values = [] ∧
      ∀ i f, s₁.module.funcs[i]? = some f → Ir.SelfContained i f.blocks := by
    cases h₁
    exact ⟨hv, selfContained_push (initFunction_blocks c.config) hf⟩
  have start : Homely home _ (s₁.setBody { fn := init }) := homely_unit init hs₁.1 hs₁.2
  obtain ⟨-, -, -, homes, -, hh⟩ := stays_topLevel hd _ _ _ _ h₂ rfl rfl start
  exact install_selfContained hh _

end Lower

/-- A function `inner` inside a function `outer`; both have a variable. -/
def nestedAnalysis : Analysis where
  store :=
    { scopes := #[{}, { parent := some 0, bindings := [("outer", 0)] },
        { parent := some 1, bindings := [("x", 1), ("inner", 2)], function := some 1 },
        { parent := some 2, bindings := [("y", 3)], function := some 4 }]
      objects := #[
        { name := "outer", type := .func [] .missing false, kind := .variable {} },
        { name := "x", type := .scalar .i32, kind := .variable {} },
        { name := "inner", type := .func [] (.scalar .i32) false, kind := .variable {} },
        { name := "y", type := .scalar .i32, kind := .variable {} }] }
  facts := {}

/-- The inner function returns the variable of this name, which its scope sees. -/
def nestedUnit (name : String) : List Node :=
  [.funcDecl { site := { id := 1, scope := some 1 }, name := "outer" }
    (.mk { id := 2, scope := some 2 }
      [.varDecl { site := { id := 3, scope := some 2 }, token := .known .varWord, name := "x" },
        .funcDecl { site := { id := 4, scope := some 2 }, name := "inner" }
          (.mk { id := 5, scope := some 3 }
            [.varDecl
                { site := { id := 6, scope := some 3 }, token := .known .varWord, name := "y" },
              .ret { id := 7, scope := some 3 }
                (.varRef { id := 8, scope := some 3 } name (.known .none))])])]

/-- If every variable with a slot is named only in the definition it is defined in, then no function
    of the module refers to a parameter or a result of another one. -/
theorem lowerUnit_selfContained (analysis : Analysis) (config : Config) (decls : List Node)
    (home : ObjectId → Option Owner) (m : Ir.Module)
    (hhome : Node.HomedAll ⟨analysis, config⟩ home none decls)
    (h : (lowerUnit analysis config decls).result = .ok m) :
    ∀ i f, m.funcs[i]? = some f → Ir.SelfContained i f.blocks := by
  obtain ⟨s, hs, rfl⟩ := lowerUnit_eq_ok h
  exact Lower.wholeUnit_selfContained hhome rfl (by simp) hs

/-- The homes of `x` and `y`. -/
def nestedHome (v : ObjectId) : Option Owner :=
  if v = 1 then some (some 1) else if v = 3 then some (some 4) else none

theorem lowerUnit_selfContained_nestedUnit :
    Node.HomedAll ⟨nestedAnalysis, {}⟩ nestedHome none (nestedUnit "y") ∧
      ∃ m : Ir.Module, (lowerUnit nestedAnalysis {} (nestedUnit "y")).result = .ok m ∧
        ∃ f, m.funcs[2]? = some f ∧ f.blocks ≠ [] ∧ Ir.SelfContained 2 f.blocks := by
  have homed : Node.HomedAll ⟨nestedAnalysis, {}⟩ nestedHome none (nestedUnit "y") := by
    have x : ∀ v ∈ nestedAnalysis.resolve "x" (some { id := 3, scope := some 2 }),
        nestedHome v = some (some 1) := by decide +kernel
    have y : ∀ v ∈ nestedAnalysis.resolve "y" (some { id := 6, scope := some 3 }),
        nestedHome v = some (some 4) := by decide +kernel
    have result : ∀ v ∈ nestedAnalysis.resolve "y" (some { id := 8, scope := some 3 }),
        nestedHome v = none ∨ nestedHome v = some (some 4) := by decide +kernel
    simp only [nestedUnit, Node.HomedAll, Node.Homed, Block.Homed, and_true]
    exact ⟨by simp, ⟨trivial, fun v hv _ _ => x v hv⟩, by simp,
      ⟨trivial, fun v hv _ _ => y v hv⟩, result⟩
  have lowered : ∃ m ∈ (lowerUnit nestedAnalysis {} (nestedUnit "y")).result.toOption,
      ∃ f ∈ m.funcs[2]?, f.blocks ≠ [] := by decide +kernel
  obtain ⟨m, hm, f, hf, hb⟩ := lowered
  have hm := eq_ok_of_mem_toOption hm
  exact ⟨homed, m, hm, f, hf, hb,
    lowerUnit_selfContained nestedAnalysis {} (nestedUnit "y") nestedHome m homed hm 2 f hf⟩

/-- The slot of an outer variable is not kept from an inner function that names it. -/
theorem lowerUnit_captures :
    ∃ m : Ir.Module, (lowerUnit nestedAnalysis {} (nestedUnit "x")).result = .ok m ∧
      ∃ i f, m.funcs[i]? = some f ∧ ¬ Ir.SelfContained i f.blocks := by
  have lowered : ∃ m ∈ (lowerUnit nestedAnalysis {} (nestedUnit "x")).result.toOption,
      ∃ f ∈ m.funcs[2]?, ¬ Ir.SelfContained 2 f.blocks := by decide +kernel
  obtain ⟨m, hm, f, hf, hb⟩ := lowered
  exact ⟨m, eq_ok_of_mem_toOption hm, 2, f, hf, hb⟩

end TreeLowering
