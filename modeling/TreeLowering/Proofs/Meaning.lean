import TreeLowering.Proofs.Function
import TreeLowering.Proofs.Simulation

/-!
The meaning of a lowered body. The blocks of a function execute exactly what the flow that its body
stands for executes, whatever the instructions compute, and end exactly where it ends: in a return
where the flow returns, and where the flow runs to its end in the way its result type asks for
(`fillBody_runsAs`). The flow is read off the statements in the very run that filled the function.
-/
namespace TreeLowering

open Ir (Point Steps)

/-- The terminator in which a function ends that is left in some way; a jump does not leave it. -/
def Exit.term (ending : Ir.Term) : Exit → Option Ir.Term
  | .through => some ending
  | .jump _ => none
  | .ret value => some (.ret value)

/-- The trail with which the statements of a function begin: the stack slots have been set up. -/
def Outcomes.setup {fn : Ir.FuncId} (o : Outcomes fn) (blocks : List Ir.Block) : Trail :=
  o.execute [] (blocks.head?.elim [] Ir.Block.lines)

/-- Blocks execute what a flow executes, and end where it ends, whatever instructions compute. -/
structure RunsAs (fn : Ir.FuncId) (ending : Ir.Term) (blocks : List Ir.Block) (flow : Flow) :
    Prop where
  executes : ∀ (o : Outcomes fn) t, Ir.Executes o blocks t ↔ flow.Executes o (o.setup blocks) t
  halts : ∀ (o : Outcomes fn) t term, Ir.Halts o blocks t term ↔
    ∃ e, flow.Halts o (o.setup blocks) e t ∧ e.term ending = some term

section
variable {fn : Ir.FuncId} {o : Outcomes fn} {blocks : List Ir.Block} {p : Point} {ending : Ir.Term}

/-- Outside loops a run takes as many steps as asked for, or ends as the flow does. -/
theorem Meets.outside {n : Nat} {x : Progress}
    (h : Meets o blocks n [] (·.Ends ending) p x) :
    ∃ k q, Steps o blocks k p q ∧ q.trail = x.trail ∧
      ((∃ t, x = .unfinished t) ∧ n ≤ k ∨
        ∃ e t term, x = .finished e t ∧ e.term ending = some term ∧ q.Ends term) := by
  cases x with
  | unfinished t =>
    obtain ⟨k, q, hk, hs, ht⟩ := h
    exact ⟨k, q, hs, ht, .inl ⟨⟨t, rfl⟩, hk⟩⟩
  | finished e t =>
    cases e with
    | through =>
      obtain ⟨k, q, hs, ht, he⟩ := h
      exact ⟨k, q, hs, ht, .inr ⟨_, _, _, rfl, rfl, he⟩⟩
    | jump isBreak =>
      obtain ⟨_, _, hloops, -⟩ := h
      cases hloops
    | ret value =>
      obtain ⟨k, q, hs, ht, he⟩ := h
      exact ⟨k, q, hs, ht, .inr ⟨_, _, _, rfl, rfl, he⟩⟩

section
variable {f : Flow} {t₀ : Trail} (h : ∀ n, Meets o blocks n [] (·.Ends ending) p (f.run o n t₀))
include h

theorem Meets.executes_iff (hp : p.trail = []) (t : Trail) :
    (∃ n q, Steps o blocks n p q ∧ q.trail = t) ↔ f.Executes o t₀ t := by
  constructor
  · rintro ⟨n, q, hs, rfl⟩
    obtain ⟨k, q', hs', htrail, hdone⟩ := (h n).outside
    have hle : n ≤ k := by
      rcases hdone with ⟨-, hk⟩ | ⟨_, _, _, -, -, he⟩
      · exact hk
      · exact hs.le_of_ends hs' he
    exact ⟨n, htrail ▸ (hs.rest hs' hle).trail_suffix⟩
  · rintro ⟨n, ht⟩
    obtain ⟨k, q, hs, htrail, -⟩ := (h n).outside
    exact hs.exists_trail t (hp ▸ List.nil_suffix) (htrail ▸ ht)

theorem Meets.halts_iff (t : Trail) (term : Ir.Term) :
    (∃ n q, Steps o blocks n p q ∧ q.Ends term ∧ q.trail = t) ↔
      ∃ e, f.Halts o t₀ e t ∧ e.term ending = some term := by
  constructor
  · rintro ⟨n, q, hs, hend, rfl⟩
    -- Asked for more steps than there are, the flow must have ended.
    obtain ⟨k, q', hs', htrail, ⟨-, hk⟩ | ⟨e, t, term', hx, hterm, hend'⟩⟩ := (h (n + 1)).outside
    · have := hs'.le_of_ends hs hend
      omega
    · cases hs.ends_unique hs' hend hend'
      have heq : term' = term := Option.some.inj (hend'.2.1.symm.trans hend.2.1)
      rw [hx] at htrail
      exact ⟨e, ⟨n + 1, by rw [hx, htrail]; rfl⟩, heq ▸ hterm⟩
  · rintro ⟨e, ⟨n, hx⟩, hterm⟩
    obtain ⟨k, q, hs, htrail, ⟨⟨t', hx'⟩, -⟩ | ⟨e', t', term', hx', hterm', hend⟩⟩ := (h n).outside
    · rw [hx] at hx'
      cases hx'
    · rw [hx] at hx' htrail
      cases hx'
      cases hterm.symm.trans hterm'
      exact ⟨k, q, hs, hend, htrail⟩

end

end

/-! ## Finished bodies -/

theorem Labelled.findBlock_closed {b : Body} (h : Labelled b) {id : Nat} {block : Ir.Block}
    (hb : b.block? id = some block) : Ir.findBlock b.closed id = some block := by
  have hm : block.label ∈ b.labels := List.mem_map_of_mem (Ir.findBlock_mem hb)
  have hid : varsLabel.id ≠ id := by
    rw [← Body.block?_id hb]
    exact (h.id_pos hm).symm
  unfold Body.block? at hb
  unfold Ir.findBlock Body.closed at *
  rw [List.find?_cons]
  simpa [hid] using hb

theorem Held.closed {b b' : Body} {cursor : Option Ir.Label} (h : Held b b'.blocks cursor)
    (hl : Labelled b') : Held b b'.closed cursor where
  ended id block hb ht := hl.findBlock_closed (h.ended id block hb ht)
  cursor l block hc hb := by
    obtain ⟨block', hb', hrest⟩ := h.cursor l block hc hb
    exact ⟨block', hl.findBlock_closed hb', hrest⟩

/-- A body that was built from nothing but stack slots runs as the flow it was built from. -/
theorem Builds.runsAs {fn : Ir.FuncId} {b₀ b : Body} {f : Flow} {r : Bool} {t : Ir.Term}
    (hs : Shaped [] b₀) (hl : Labelled b₀) (hfn : b₀.fn = fn) (hloops : b₀.loops = [])
    (hblocks : b₀.blocks = [{ label := entryLabel }]) (hcursor : b₀.cursor = some entryLabel)
    (h : Builds none b₀ f r b) (ht : t.successors = []) :
    RunsAs fn t (b.finish t).closed f := by
  have s₁ := (h.shaped (P := []) hs).1
  have hF : Held (b.finish t).halt (b.finish t).closed none :=
    Held.closed (Held.refl (b.finish t).halt) ((h.labelled hl).finish t)
  have hF₁ := Held.of_finish s₁ hF
  have hF₀ := (h.leads (P := []) hs).trans hF₁
  -- The run sets up the stack slots, goes on to the entry, and does there what the flow does.
  have meets : ∀ (o : Outcomes fn) n, Meets o (b.finish t).closed n [] (·.Ends t)
      (Ir.Block.start ⟨varsLabel, (b.finish t).vars, some (.br entryLabel)⟩)
      (f.run o n (o.setup (b.finish t).closed)) := by
    intro o n
    have hvars : ∀ l ∈ (b.finish t).vars, l.inst.isPhi = false := by
      rw [Body.finish_vars]
      exact s₁.setup
    have hsteps : Steps o (b.finish t).closed (b.finish t).vars.length
        (Ir.Block.start ⟨varsLabel, (b.finish t).vars, some (.br entryLabel)⟩)
        ⟨varsLabel, none, [], some (.br entryLabel), o.setup (b.finish t).closed⟩ :=
      Steps.lines _ _ hvars
    refine ((Meets.of_leaves (f.run o n) ⟨rfl, rfl⟩ hF₀ hcursor ?_ fun q hst => ?_).after
      hsteps).le (Nat.le_add_left _ _)
    · rw [Body.block?, hblocks]
      rfl
    · have hm := h.runs (o := o) (n := n) [] hs hF₁ hfn q hst
      rw [hloops] at hm
      refine hm.mono fun q hq => .here ?_
      obtain ⟨hrest, hterm⟩ := hq.finish hF
      exact ⟨hrest, hterm, ht⟩
  constructor
  · intro o t'
    rw [← Meets.executes_iff (meets o) rfl t']
    constructor
    · rintro ⟨_, n, q, hfirst, hrest⟩
      cases hfirst
      exact ⟨n, q, hrest⟩
    · rintro ⟨n, q, hrest⟩
      exact ⟨_, n, q, rfl, hrest⟩
  · intro o t' term
    rw [← Meets.halts_iff (meets o) t' term]
    constructor
    · rintro ⟨_, n, q, hfirst, hrest⟩
      cases hfirst
      exact ⟨n, q, hrest⟩
    · rintro ⟨n, q, hrest⟩
      exact ⟨_, n, q, rfl, hrest⟩

namespace Lower

variable {s s' : State} {u : Unit}

/-- Of the body under construction only the stack slots have changed. -/
def SlotsOnly (s s' : State) : Prop :=
  s'.body.blocks = s.body.blocks ∧ s'.body.cursor = s.body.cursor

instance : Lasting SlotsOnly where
  refl _ := ⟨rfl, rfl⟩
  trans h₁ h₂ := ⟨h₂.1.trans h₁.1, h₂.2.trans h₁.2⟩

theorem slotsOnly_of_steady {α : Type} {m : Lower α} (h : Steady m) : Always SlotsOnly m :=
  h.mono fun hs => ⟨by rw [hs.1], by rw [hs.1]⟩

theorem slotsOnly_emitAt (inst : Ir.Inst) (type : Ir.Ty) :
    Always SlotsOnly (emitAt .vars inst type) := by
  intro s v s' h
  obtain ⟨-, rfl⟩ := emitAt_vars_eq_ok.mp h
  exact ⟨rfl, rfl⟩

theorem slotsOnly_storeAt (value place : Ir.Value) :
    Always SlotsOnly (storeAt .vars value place) := by
  refine .get_bind fun s => .ite' ?_ (.breach' _)
  intro s u s' h
  obtain ⟨a, h⟩ := discard_eq_ok.mp h
  exact slotsOnly_emitAt _ _ s a s' h

/-- Parameters are stored where the stack slots are. -/
theorem slotsOnly_storeParams (c : Context) (fn : Ir.FuncId) (site : Site) :
    ∀ (i : Nat) (params : List (String × Ir.Ty)), Always SlotsOnly (storeParams c fn site i params)
  | _, [] => .pure' _
  | i, (_, _) :: rest =>
    .bind' (slotsOnly_of_steady (steady_variableAt c _ _)) fun _ =>
      .bind' (slotsOnly_emitAt _ _) fun _ => .bind' (slotsOnly_storeAt _ _) fun _ =>
        .bind' (.modify' fun _ => ⟨rfl, rfl⟩) fun _ => slotsOnly_storeParams c fn site (i + 1) rest

/-- The function of a body that was installed has the blocks of the body. -/
theorem blocks_of_install (outer : Body) {f : Ir.Function}
    (hf : (s.install outer).module.funcs[s.body.fn]? = some f) : f.blocks = s.body.closed := by
  change (s.module.funcs.modify s.body.fn _)[s.body.fn]? = some f at hf
  rw [Array.getElem?_modify, if_pos rfl, Option.map_eq_some_iff] at hf
  obtain ⟨f₀, -, rfl⟩ := hf
  rfl

end Lower

/-- The statements of a definition begin in the state `start`: the body of its function was begun in
    the state `s`, and its parameters have been stored. -/
def Lower.StartsIn (c : Context) (h : FuncHead) (body : Block) (id : Ir.FuncId) (result : Ty)
    (s start : State) : Prop :=
  ∃ site exported, body.site? = some site ∧
    storeParams c id site 0
        ((h.params.map Prod.fst).zip ((s.beginBody h.site.id id exported).paramTypes id))
        ((s.beginBody h.site.id id exported).setBody { fn := id, head := some h, result }) =
      .ok () start

open Lower in
/-- The function of a lowered body runs as the statements of the body say, each with the code that
    it was lowered to in this run: they can be read as a flow, and every flow that they can be read
    as is what the blocks execute. -/
theorem fillBody_runsAs (c : Context) (h : FuncHead) (body : Block) (s s' : State)
    (id : Ir.FuncId) (f : Ir.Function)
    (hfill : fillBody c h body (blockStatements c body) s = .ok () s')
    (hproto : s.prototypes.lookup h.site.id = some (some id))
    (hnew : h.site.id ∉ s.lowered) (hdone : h.site.id ∈ s'.lowered)
    (hfunc : s'.module.funcs[id]? = some f) :
    ∃ params result start last, c.analysis.typeOfFunc h = .func params result false ∧
      StartsIn c h body id result s start ∧ blockStatements c body start = .ok () last ∧
      (∃ flow, body.Reads c start flow last) ∧
      ∀ flow, body.Reads c start flow last → RunsAs id (c.ending result) f.blocks flow := by
  by_cases henter : h.hasBody body = true ∧ h.isTypeDecl = false ∧
      ∃ params result, c.analysis.typeOfFunc h = .func params result false
  · obtain ⟨hbody, hdecl, params, result, htype⟩ := henter
    obtain ⟨id', site, exported, s₁, trace, hproto', hsite, -, hsteps, rfl⟩ :=
      fillBody_opens hbody hdecl htype hfill
    cases hproto.symm.trans hproto'
    obtain ⟨-, s₂, code, flow, s₃, hparams, hg, hl, hrun, hreads, hend⟩ :=
      bodySteps_reads (realizes_blockStatements c body) hsteps
    refine ⟨params, result, s₂, s₃, htype, ⟨site, exported, hsite, hparams⟩, hrun,
      ⟨flow, hreads⟩, fun flow hreads => ?_⟩
    have hb := (realizes_blockStatements c body).built s₂ flow s₃ hreads hl
    have hfn : s₁.body.fn = id := by
      rw [hend, Body.finish_fn]
      exact hb.kept.fn.trans hg.kept.fn
    obtain ⟨hsame, hcursor⟩ := slotsOnly_storeParams c id site 0 _ _ _ _ hparams
    rw [← hfn] at hfunc
    rw [blocks_of_install s.body hfunc, hend]
    exact hb.runsAs (hg.shaped (shaped_start id (some h) result)).1
      (hg.labelled (labelled_start id (some h) result)) hg.kept.fn hg.kept.loops hsame hcursor
      (c.ending_successors result)
  · rw [fillBody_skips henter hfill] at hdone
    exact absurd hdone hnew

/-- A global `ready`, named twice, and the type of a function that returns nothing. -/
def pollContext : Context where
  analysis :=
    { store := { objects := #[{ name := "ready", type := .scalar .bool, kind := .variable {} }] }
      facts :=
        { types := [(some 1, .func [] .missing false)]
          definitions := [(some 5, 0), (some 7, 0)] } }
  config := {}

def pollHead : FuncHead := { site := { id := 1 }, name := "poll" }

/-- Continues while `ready && !ready`. -/
def pollBody : Block :=
  .mk { id := 2 } [.whileStmt { id := 3 }
    (.binary { id := 4 } (.known .condAnd) (.varRef { id := 5 } "ready" (.known .none))
      (.unary { id := 6 } (.known .not) (.varRef { id := 7 } "ready" (.known .none))))
    (.mk { id := 8 } [.branch { id := 9 } (.known .continueWord)])]

/-- The function has its prototype, and the global its place. -/
def pollState : State where
  module := { funcs := #[{ name := "poll", result := .void }] }
  values := [(0, .global 0 (.int 1))]
  prototypes := [(1, some 0)]

open Lower in
theorem fillBody_runsAs_poll :
    ∃ s' f, fillBody pollContext pollHead pollBody (blockStatements pollContext pollBody)
        pollState = .ok () s' ∧ s'.module.funcs[0]? = some f ∧
      ∃ start last, StartsIn pollContext pollHead pollBody 0 .missing pollState start ∧
        (∃ flow, pollBody.Reads pollContext start flow last) ∧
        ∀ flow, pollBody.Reads pollContext start flow last →
          RunsAs 0 (.ret none) f.blocks flow := by
  refine ⟨_, _, rfl, rfl, ?_⟩
  obtain ⟨params, result, start, last, htype, hstart, -, hreads, hruns⟩ :=
    fillBody_runsAs pollContext pollHead pollBody pollState _ 0 _ rfl rfl (by decide)
      List.mem_cons_self rfl
  cases htype
  exact ⟨start, last, hstart, hreads, hruns⟩

end TreeLowering
