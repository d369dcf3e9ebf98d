import TreeLowering.Proofs.Oversight

/-!
Failures that no unit ends in.

Lowering guards against three states that it never gets into if every function definition stands at
one place of the tree (`lowerUnit_consistent`):

* Top-level code that does not get past its declarations. Jumps need a loop around them and returns
  a function, so top-level code that diverts is rejected before (`stuck_statement`).
* An active definition that is noted without a function. A definition is noted so only if it is not
  active, and no other definition has its identity.
* A body that is lowered for the second time. A definition is met once, and its identity is among
  the lowered ones only after that.
-/
namespace TreeLowering

open Lower

/-! ## Top-level code that diverts -/

/-- There is a place for instructions, outside of loops and of functions other than the init
    function. -/
structure Body.AtTop (b : Body) : Prop where
  live : b.cursor.isSome
  loops : b.loops = []
  head : b.head = none

theorem Body.AtTop.of_kept {b b' : Body} (h : b.AtTop) (kept : Kept b b')
    (live : b'.cursor.isSome) : b'.AtTop :=
  ⟨live, kept.loops.trans h.loops, kept.head.trans h.head⟩

namespace Lower

variable {α β : Type} {c : Context}

/-- The step never succeeds in top-level code. -/
def Stuck (m : Lower α) : Prop := ∀ s a s', s.body.AtTop → m s ≠ .ok a s'

/-- The step stays in top-level code. -/
abbrev StaysTop (m : Lower α) : Prop := Always (Preserves fun s => s.body.AtTop) m

namespace Stuck

variable {m : Lower α} {g : α → Lower β}

theorem bind' (hm : Stuck m) : Stuck (m >>= g) := by
  intro s b s' top h
  obtain ⟨a, s₁, h₁, -⟩ := bind_eq_ok.mp h
  exact hm s a s₁ top h₁

theorem after (hm : StaysTop m) (hg : ∀ a, Stuck (g a)) : Stuck (m >>= g) := by
  intro s b s' top h
  obtain ⟨a, s₁, h₁, h₂⟩ := bind_eq_ok.mp h
  exact hg a s₁ b s' (hm s a s₁ h₁ top) h₂

theorem ite' {p : Prop} [Decidable p] {x y : Lower α} (hx : Stuck x) (hy : Stuck y) :
    Stuck (if p then x else y) := by
  split
  · exact hx
  · exact hy

theorem whenLive' {m : Lower Unit} (hm : Stuck m) : Stuck (whenLive m) := by
  intro s u s' top h
  rcases whenLive_eq_ok.mp h with ⟨-, h⟩ | ⟨hdead, -⟩
  · exact hm s u s' top h
  · simpa [hdead] using top.live

end Stuck

theorem staysTop_of_lays {m : Lower α} (h : Lays m) : StaysTop m := by
  intro s a s' hm top
  obtain ⟨-, code, grows⟩ := h s a s' hm
  exact top.of_kept grows.kept (grows.live top.live)

theorem staysTop_openBlock (name : String) : StaysTop (openBlock name) := by
  intro s l s' h top
  cases h
  exact top.of_kept (.addBlock _ _) top.live

theorem stuck_conditionalArm {arm : Lower Unit} (ha : Stuck arm) (done : Ir.Label) (cond : Expr)
    (otherwise : Option String) : Stuck (conditionalArm c done cond arm otherwise) := by
  have rest : ∀ v yes no, Stuck (do
      terminate (.condBr v yes no)
      moveTo yes
      arm
      let joined ← branchIfLive done
      moveTo no
      pure (joined || otherwise.isNone)) := by
    intro v yes no
    refine .after (fun s u s' h top => ?_) fun _ => .after (fun s u s' h top => ?_) fun _ =>
      ha.bind'
    · obtain ⟨-, rfl⟩ := terminate_eq_ok.mp h
      exact top.of_kept (.finish _ _) (by simpa using top.live)
    · cases h
      exact top.of_kept (.goto _ _) rfl
  refine .after (staysTop_of_lays (lays_condition c cond)) fun v =>
    .after (staysTop_openBlock _) fun yes => ?_
  cases otherwise with
  | some name => exact .after (staysTop_openBlock _) fun no => rest v yes no
  | none => exact .after (.pure' _) fun no => rest v yes no

mutual

/-- In top-level code no statement that diverts is lowered: a jump has no loop to leave, and a
    return no function. -/
theorem stuck_statement (c : Context) : ∀ n : Node, n.diverts c = true → Stuck (statement c n)
  | .labelled _ _ x, h => by
    unfold Node.diverts at h
    unfold statement
    exact stuck_statement c x h
  | .block b, h => by
    unfold Node.diverts at h
    unfold statement
    exact .whenLive' (stuck_blockStatements c b h)
  | .ifStmt _ cond yes elifs no, h => by
    unfold Node.diverts at h
    simp only [Bool.and_eq_true] at h
    have arm := stuck_blockStatements c yes h.1
    unfold statement
    refine .whenLive' (.ite' (.bind' fun _ _ _ _ hb => breach_ne_ok.mp hb) ?_)
    exact .after (staysTop_openBlock _) fun done => .bind' (stuck_conditionalArm arm done cond _)
  | .space _ _ decls, h => by
    unfold Node.diverts at h
    unfold statement
    refine .whenLive' (.after (.modify' fun _ top => top) fun _ => ?_)
    exact .after (staysTop_of_lays (lays_emitLeading c _)) fun _ =>
      stuck_statementsWhere c _ decls h
  | .forStmt _ init cond iter body, h => by
    unfold Node.diverts at h
    unfold statement
    exact .whenLive' (.bind' (stuck_statementsWhere c _ init h))
  | .branch site token, _ => by
    unfold statement
    refine .whenLive' fun s u s' top h => ?_
    unfold jump at h
    rw [get_bind_apply, top.loops] at h
    simp at h
  | .ret site result, _ => by
    unfold statement
    refine .whenLive' fun s u s' top h => ?_
    unfold leave at h
    rw [get_bind_apply] at h
    simp [top.head] at h
  | .expr _, h | .typeRef _, h | .program _ _, h | .file _, h | .varDecl _, h | .funcDecl _ _, h
  | .structDecl _, h | .elif _, h | .whileStmt _ _ _, h => by
    unfold Node.diverts at h
    cases h

theorem stuck_blockStatements (c : Context) :
    ∀ b : Block, b.diverts c = true → Stuck (blockStatements c b)
  | .missing, h => by
    unfold Block.diverts at h
    cases h
  | .mk _ stmts, h => by
    unfold Block.diverts at h
    unfold blockStatements
    exact stuck_statementsWhere c _ stmts h

theorem stuck_statementsWhere (c : Context) (keep : Node → Bool) :
    ∀ ns : List Node, Node.someDiverts c keep ns = true → Stuck (statementsWhere c keep ns)
  | [], h => by
    unfold Node.someDiverts at h
    cases h
  | n :: ns, h => by
    have first := stuck_statement c n
    have rest := stuck_statementsWhere c keep ns
    unfold Node.someDiverts at h
    unfold statementsWhere
    by_cases hk : keep n = true
    · simp only [hk, Bool.true_and, Bool.or_eq_true] at h
      rw [if_pos hk]
      by_cases hd : n.diverts c = true
      · exact (first hd).bind'
      · refine .after (fun s u s' hs top => ?_) fun _ => rest (h.resolve_left hd)
        obtain ⟨-, f, -, hb⟩ := (realizes_statement c n).builds hs top.live
        exact top.of_kept hb.kept (by rw [statement_live hs top.live]; simp [hd])
    · simp only [hk, Bool.false_and, Bool.false_or] at h
      rw [if_neg hk]
      exact rest h

end

/-- Top-level code gets past its declarations. -/
theorem declarations_fallThrough {inSpace : Bool} {decls : List Node} {s s' : State} {u : Unit}
    (top : s.body.AtTop) (h : (do
      emitLeading c (emissionOrder c.analysis inSpace decls)
      statementsWhere c (takesTurn c.analysis inSpace) decls) s = .ok u s') :
    s'.body.cursor.isSome := by
  obtain ⟨_, s₁, h₁, h₂⟩ := bind_eq_ok.mp h
  have top₁ := staysTop_of_lays (lays_emitLeading c _) s _ s₁ h₁ top
  rw [statementsWhere_live h₂ top₁.live, Bool.not_eq_true']
  by_contra hd
  exact stuck_statementsWhere c _ decls (by simpa using hd) s₁ u s' top₁ h₂

end Lower

/-! ## Definitions at one place -/

/-- The function that a node defines. -/
def Node.definition? : Node → Option FuncHead
  | .funcDecl h _ => some h
  | _ => none

/-- The identities of the functions that are defined in a unit, one for each place. -/
def definitionIds (decls : List Node) : List NodeId :=
  ((Node.partsAll decls).filterMap Node.definition?).map fun h => h.site.id

/-- The function that a mention defines. -/
def Mention.definition? : Mention → Option FuncHead
  | .definition h => some h
  | .reference _ _ => none

/-- The functions that are defined among mentions. -/
def definitions (k : Multiset Mention) : Multiset FuncHead := k.filterMap Mention.definition?

@[simp] theorem definitions_zero : definitions 0 = 0 := rfl

@[simp] theorem definitions_add (k l : Multiset Mention) :
    definitions (k + l) = definitions k + definitions l := Multiset.filterMap_add _ _ _

@[simp] theorem definitions_cons_reference (name : String) (site : Site) (k : Multiset Mention) :
    definitions (.reference name site ::ₘ k) = definitions k :=
  Multiset.filterMap_cons_none _ _ rfl

@[simp] theorem definitions_cons_definition (h : FuncHead) (k : Multiset Mention) :
    definitions (.definition h ::ₘ k) = h ::ₘ definitions k :=
  Multiset.filterMap_cons_some _ _ _ rfl

theorem definitions_reference (name : String) (site : Site) :
    definitions {.reference name site} = 0 := rfl

theorem mem_definitions {k : Multiset Mention} {h : FuncHead} :
    h ∈ definitions k ↔ .definition h ∈ k := by
  simp only [definitions, Multiset.mem_filterMap]
  constructor
  · rintro ⟨m, hm, he⟩
    cases m with
    | reference _ _ => cases he
    | definition h' =>
      cases he
      exact hm
  · exact fun hm => ⟨_, hm, rfl⟩

mutual

/-- Expressions define no functions. -/
theorem definitions_mentions : ∀ e : Expr, definitions e.mentions = 0
  | .varRef _ _ _ => by simp [Expr.mentions, definitions_reference]
  | .call _ _ args => by simp [Expr.mentions, definitions_mentionsAll args]
  | .structLit _ _ args => by simp [Expr.mentions, definitions_mentionsAll args]
  | .arrayLit _ args => by simp [Expr.mentions, definitions_mentionsAll args]
  | .selector _ x _ _ => by simp [Expr.mentions, definitions_mentions x]
  | .unary _ _ x => by simp [Expr.mentions, definitions_mentions x]
  | .cast _ x _ => by simp [Expr.mentions, definitions_mentions x]
  | .index _ x y => by simp [Expr.mentions, definitions_mentions x, definitions_mentions y]
  | .assign _ x y => by simp [Expr.mentions, definitions_mentions x, definitions_mentions y]
  | .binary _ _ x y => by simp [Expr.mentions, definitions_mentions x, definitions_mentions y]
  | .absent | .arrayAlloc _ _ _ | .intLit _ _ | .floatLit _ _ | .boolLit _ _
  | .stringLit _ _ => by simp [Expr.mentions]

theorem definitions_mentionsAll : ∀ es : List Expr, definitions (Expr.mentionsAll es) = 0
  | [] => by simp [Expr.mentionsAll]
  | e :: es => by simp [Expr.mentionsAll, definitions_mentions e, definitions_mentionsAll es]

end

theorem definitions_own (n : Node) :
    definitions n.own = (n.definition?.toList : List FuncHead) := by
  have none : ∀ es : List Expr, definitions (es.map Expr.mentions).sum = 0 := by
    intro es
    induction es with
    | nil => rfl
    | cons e es ih => simp [definitions_mentions, ih]
  unfold Node.own
  split
  · rfl
  · rename_i hn
    rw [none]
    cases n with
    | funcDecl h body => exact absurd rfl (hn h body)
    | _ => rfl

theorem definitions_total (ns : List Node) :
    definitions (Node.total ns) = (ns.filterMap Node.definition? : List FuncHead) := by
  induction ns with
  | nil => rfl
  | cons n ns ih =>
    rw [Node.total_cons, definitions_add, ih, definitions_own]
    cases hn : n.definition? with
    | none => simp [hn]
    | some h => simp [hn]

theorem nodup_definitions {decls : List Node} (once : (definitionIds decls).Nodup) :
    ((definitions (Node.total (Node.partsAll decls))).map fun h => h.site.id).Nodup := by
  rw [definitions_total, Multiset.map_coe]
  exact once

/-- The faults of states that lowering never gets into. -/
def Fault.IsInternal : Fault → Prop
  | .rejected _ .noFallThrough | .rejected _ (.noPrototype _) | .breach (.bodyTwice _) => True
  | _ => False

theorem Fault.IsOrdinary.not_isInternal {f : Fault} (h : f.IsOrdinary) : ¬f.IsInternal := by
  intro hi
  unfold IsInternal at hi
  split at hi
  · cases h
  · cases h
  · cases h
  · exact hi

namespace Lower

variable {c : Context} {decls : List Node}

/-- While the mentions `k` of the unit are to come, none of the functions that they define was
    lowered, and no active definition of the unit is noted without a function. -/
structure Untouched (c : Context) (decls : List Node) (k : Multiset Mention) (s : State) :
    Prop where
  within : k ≤ Node.total (Node.partsAll decls)
  fresh : ∀ h, .definition h ∈ k → h.site.id ∉ s.lowered
  noted : ∀ h, .definition h ∈ Node.total (Node.partsAll decls) →
    s.prototypes.lookup h.site.id = some none → ¬h.Active c

namespace Untouched

variable {k : Multiset Mention} {s s' : State} {h : FuncHead}

theorem of_eq (u : Untouched c decls k s) (hl : s'.lowered = s.lowered)
    (hp : s'.prototypes = s.prototypes) : Untouched c decls k s' :=
  ⟨u.within, by rw [hl]; exact u.fresh, by rw [hp]; exact u.noted⟩

/-- A definition is noted without a function only if it is not active. -/
theorem enter (once : (definitionIds decls).Nodup) (u : Untouched c decls k s)
    (hm : .definition h ∈ k) {body : Block} {r : Unit}
    (hr : enterPrototype c h body s = .ok r s') : Untouched c decls k s' := by
  obtain ⟨hl, hp⟩ := enterPrototype_eq_ok hr
  refine ⟨u.within, by rw [hl]; exact u.fresh, fun h' hm' hnone => ?_⟩
  obtain ⟨inactive, -, hp⟩ | ⟨-, v, id, -, -, hp⟩ := hp
  · rcases lookup_cons_cases (hp ▸ hnone) with hnone | ⟨he, -⟩
    · exact u.noted h' hm' hnone
    · -- no other definition has this identity
      have same : h' = h := Multiset.inj_on_of_nodup_map (nodup_definitions once) h'
        (mem_definitions.mpr hm') h (mem_definitions.mpr (Multiset.mem_of_le u.within hm)) he
      exact same ▸ inactive
  · rcases lookup_cons_cases (hp ▸ hnone) with hnone | ⟨-, he⟩
    · exact u.noted h' hm' hnone
    · cases he

/-- A definition that is begun is not to come again. -/
theorem begin (once : (definitionIds decls).Nodup) (u : Untouched c decls ({.definition h} + k) s)
    (id : Ir.FuncId) (exported : Bool) :
    Untouched c decls k (s.beginBody h.site.id id exported) where
  within := (Multiset.le_add_left _ _).trans u.within
  fresh h' hm hl := by
    have distinct : ((definitions ({.definition h} + k)).map fun h => h.site.id).Nodup :=
      Multiset.nodup_of_le (Multiset.map_le_map (Multiset.filterMap_le_filterMap _ u.within))
        (nodup_definitions once)
    rw [Multiset.singleton_add, definitions_cons_definition, Multiset.map_cons,
      Multiset.nodup_cons] at distinct
    rcases List.mem_cons.mp hl with he | hl
    · exact distinct.1 (he ▸ Multiset.mem_map_of_mem _ (mem_definitions.mpr hm))
    · exact u.fresh h' (Multiset.mem_add.mpr (.inr hm)) hl
  noted := u.noted

end Untouched

theorem oversees_untouched (c : Context) (once : (definitionIds decls).Nodup) :
    Oversees c (Untouched c decls) fun f _ => ¬f.IsInternal where
  less hle u := ⟨hle.trans u.within, fun h hm => u.fresh h (Multiset.mem_of_le hle hm), u.noted⟩
  ordinary _ _ h := h.not_isInternal
  tolerant _ := .of_calm fun calm u => u.of_eq calm.lowered calm.prototypes
  unbound _ _ _ _ := id
  bind _ _ u := u.of_eq rfl rfl
  report _ u := u.of_eq rfl rfl
  global _ _ _ s g s' hr u :=
    have calm := (steady_addGlobal _ _ s g s' hr).2
    u.of_eq calm.lowered calm.prototypes
  enter body hm s u := by
    refine ⟨fun _ _ hr => u.enter once hm hr, fun f s' hr => ?_⟩
    rcases enterPrototype_eq_error hr with hf | rfl
    · exact hf.not_isInternal
    · exact id
  unprototyped u hm active hl := absurd active (u.noted _ (Multiset.mem_of_le u.within hm) hl)
  twice u hm hl := absurd hl (u.fresh _ hm)
  begin id exported u := u.begin once id exported
  install _ u := u.of_eq rfl rfl

/-- A unit whose definitions stand at one place each does not fail with an internal fault. -/
theorem wholeUnit_consistent (once : (definitionIds decls).Nodup) {s s' : State} {f : Fault}
    (hl : s.lowered = []) (hp : s.prototypes = []) (h : wholeUnit c decls s = .error f s') :
    ¬f.IsInternal := by
  obtain ⟨trace, h⟩ := wholeUnit_eq_error h
  have o := oversees_untouched c once
  refine o.topLevel (P := fun s => Untouched c decls (Node.total (Node.partsAll decls)) s ∧
    s.body.AtTop) ?_ ?_ ⟨?_, rfl, rfl, rfl⟩ h
  · have first := o.prototypes false decls 0
    rw [add_zero] at first
    exact first.mono (fun _ hs => hs.1) fun _ hs => hs
  · intro s₁ s₂ hs hr hdead
    have live := declarations_fallThrough hs.2 hr
    simp [hdead] at live
  · exact ⟨le_refl _, by simp [State.declare, State.setBody, hl],
      by simp [State.declare, State.setBody, hp]⟩

end Lower

/-- If every function definition stands at one place of the tree, lowering never fails because
    top-level code does not fall through to its end, because a function has no prototype, or because
    a body is lowered twice. -/
theorem lowerUnit_consistent (analysis : Analysis) (config : Config) (decls : List Node)
    (once : (definitionIds decls).Nodup) :
    (∀ pos, (lowerUnit analysis config decls).result ≠
      .error (.fault (.rejected pos .noFallThrough))) ∧
    (∀ pos name, (lowerUnit analysis config decls).result ≠
      .error (.fault (.rejected pos (.noPrototype name)))) ∧
    ∀ name, (lowerUnit analysis config decls).result ≠
      .error (.fault (.breach (.bodyTwice name))) := by
  have consistent : ∀ f, (lowerUnit analysis config decls).result = .error (.fault f) →
      ¬f.IsInternal := by
    intro f h
    obtain ⟨s, hs⟩ := lowerUnit_eq_fault h
    exact wholeUnit_consistent once rfl rfl hs
  exact ⟨fun _ h => consistent _ h trivial, fun _ _ h => consistent _ h trivial,
    fun _ h => consistent _ h trivial⟩

/-- A function inside another one, and a loop that is left at the top level. -/
def jumpingUnit : List Node :=
  nestedUnit "y" ++
    [.whileStmt { id := 9 } (.boolLit { id := 10 } true)
      (.mk { id := 11 } [.branch { id := 12 } (.known .breakWord)])]

theorem lowerUnit_consistent_jumpingUnit :
    definitionIds jumpingUnit = [1, 4] ∧
      (∀ pos, (lowerUnit nestedAnalysis {} jumpingUnit).result ≠
        .error (.fault (.rejected pos .noFallThrough))) ∧
      (∀ pos name, (lowerUnit nestedAnalysis {} jumpingUnit).result ≠
        .error (.fault (.rejected pos (.noPrototype name)))) ∧
      ∀ name, (lowerUnit nestedAnalysis {} jumpingUnit).result ≠
        .error (.fault (.breach (.bodyTwice name))) :=
  ⟨rfl, lowerUnit_consistent nestedAnalysis {} jumpingUnit (by decide)⟩

end TreeLowering
