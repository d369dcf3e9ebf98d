import TreeLowering.Proofs.Faults
import TreeLowering.Proofs.Transparency
import TreeLowering.Proofs.Walk

/-!
Fall-through and dead code. `Node.fallsThrough` says by the shape of a statement alone whether
control gets past it; it agrees with where lowering leaves the cursor (`statement_cursor`). With the
cursor nowhere a statement does nothing, and it cannot fail either (`statement_nowhere`), so what
follows a statement that does not fall through can be replaced by anything.

`Node.Revised n n'` says that `n'` is `n` with such tails of statement lists replaced, any number of
them, at any depth. Both are lowered alike (`statement_revised`, by recursion over the revision),
and units that differ in dead code only have the same outcome.
-/
namespace TreeLowering

open Lower

/-! ## Fall-through -/

mutual

/-- Whether control can get past a statement. -/
def Node.fallsThrough : Node → Bool
  | .labelled _ _ x => x.fallsThrough
  | .block b => b.fallsThrough
  | .space _ _ decls => Node.allFallThrough decls
  -- Without a final block the condition can fail on every arm.
  | .ifStmt _ _ yes elifs no =>
    yes.fallsThrough || Elif.someFallsThrough elifs || no.isMissing || no.fallsThrough
  | .forStmt _ init _ _ _ => Node.allFallThrough init
  | .branch _ _ | .ret _ _ => false
  | .expr _ | .typeRef _ | .program _ _ | .file _ | .varDecl _ | .funcDecl _ _ | .structDecl _
  | .elif _ | .whileStmt _ _ _ => true

/-- Whether control can get past a block. -/
def Block.fallsThrough : Block → Bool
  | .missing => true
  | .mk _ stmts => Node.allFallThrough stmts

/-- Whether control can get past each statement of a list. -/
def Node.allFallThrough : List Node → Bool
  | [] => true
  | n :: ns => n.fallsThrough && Node.allFallThrough ns

/-- Whether control can get past one of the arms. -/
def Elif.someFallsThrough : List Elif → Bool
  | [] => false
  | .missing :: es => Elif.someFallsThrough es
  | .mk _ _ body :: es => body.fallsThrough || Elif.someFallsThrough es

end

theorem Node.diverts_unwrap (c : Context) : ∀ n : Node, n.unwrap.diverts c = n.diverts c
  | .labelled _ _ x => by
    rw [Node.unwrap, Node.diverts]
    exact Node.diverts_unwrap c x
  | .expr _ | .typeRef _ | .program _ _ | .file _ | .space _ _ _ | .varDecl _ | .funcDecl _ _
  | .structDecl _ | .block _ | .ifStmt _ _ _ _ _ | .elif _ | .forStmt _ _ _ _ _
  | .whileStmt _ _ _ | .branch _ _ | .ret _ _ => rfl

/-- A declaration that is lowered before its turn does not divert: it defines a variable or a
    function. -/
theorem Node.diverts_of_not_takesTurn (c : Context) {inSpace : Bool} {n : Node}
    (h : takesTurn c.analysis inSpace n = false) : n.diverts c = false := by
  rw [← Node.diverts_unwrap]
  cases hn : n.unwrap with
  | varDecl | funcDecl => rw [Node.diverts]
  | _ => simp [takesTurn, classify, hn] at h

mutual

/-- Control gets past a statement exactly if the statement does not divert. -/
theorem Node.fallsThrough_eq (c : Context) : ∀ n : Node, n.fallsThrough = !n.diverts c
  | .labelled _ _ x => by
    rw [Node.fallsThrough, Node.diverts, Node.fallsThrough_eq c x]
  | .block b => by
    rw [Node.fallsThrough, Node.diverts, Block.fallsThrough_eq c b]
  | .space _ _ decls => by
    rw [Node.fallsThrough, Node.diverts,
      Node.allFallThrough_eq c _ (fun _ => Node.diverts_of_not_takesTurn c) decls]
  | .ifStmt _ _ yes elifs no => by
    rw [Node.fallsThrough, Node.diverts, Block.fallsThrough_eq c yes,
      Elif.someFallsThrough_eq c elifs, Block.fallsThrough_eq c no]
    simp only [Bool.not_and, Bool.not_not, Bool.or_assoc]
  | .forStmt _ init _ _ _ => by
    rw [Node.fallsThrough, Node.diverts,
      Node.allFallThrough_eq c (fun _ => true) (fun _ h => nomatch h) init]
  | .branch _ _ | .ret _ _ | .expr _ | .typeRef _ | .program _ _ | .file _ | .varDecl _
  | .funcDecl _ _ | .structDecl _ | .elif _ | .whileStmt _ _ _ => by
    rw [Node.fallsThrough, Node.diverts]
    rfl

theorem Block.fallsThrough_eq (c : Context) : ∀ b : Block, b.fallsThrough = !b.diverts c
  | .missing => by
    rw [Block.fallsThrough, Block.diverts]
    rfl
  | .mk _ stmts => by
    rw [Block.fallsThrough, Block.diverts,
      Node.allFallThrough_eq c (fun _ => true) (fun _ h => nomatch h) stmts]

theorem Node.allFallThrough_eq (c : Context) (keep : Node → Bool)
    (hk : ∀ n : Node, keep n = false → n.diverts c = false) :
    ∀ ns : List Node, Node.allFallThrough ns = !Node.someDiverts c keep ns
  | [] => by
    rw [Node.allFallThrough, Node.someDiverts]
    rfl
  | n :: ns => by
    rw [Node.allFallThrough, Node.someDiverts, Node.fallsThrough_eq c n,
      Node.allFallThrough_eq c keep hk ns]
    cases hn : keep n with
    | true => simp
    | false => simp [hk n hn]

theorem Elif.someFallsThrough_eq (c : Context) :
    ∀ es : List Elif, Elif.someFallsThrough es = !Elif.allDivert c es
  | [] => by
    rw [Elif.someFallsThrough, Elif.allDivert]
    rfl
  | .missing :: es => by
    rw [Elif.someFallsThrough, Elif.allDivert, Elif.someFallsThrough_eq c es]
  | .mk _ _ body :: es => by
    rw [Elif.someFallsThrough, Elif.allDivert, Block.fallsThrough_eq c body,
      Elif.someFallsThrough_eq c es, Bool.not_and]

end

/-! ## Statements with the cursor nowhere -/

namespace Lower

variable {c : Context} {s s' : State} {u : Unit}

/-- Where lowering leaves the cursor: somewhere exactly if the statement falls through. -/
theorem statement_cursor {n : Node} (h : statement c n s = .ok u s')
    (hl : s.body.cursor.isSome) : s'.body.cursor.isSome = n.fallsThrough := by
  rw [statement_live h hl, Node.fallsThrough_eq c]

theorem statementsWhere_cursor {ns : List Node}
    (h : statementsWhere c (fun _ => true) ns s = .ok u s') (hl : s.body.cursor.isSome) :
    s'.body.cursor.isSome = Node.allFallThrough ns := by
  rw [statementsWhere_live h hl,
    Node.allFallThrough_eq c (fun _ => true) (fun _ h => nomatch h)]

theorem whenLive_nowhere (step : Lower Unit) (h : s.body.cursor.isSome = false) :
    whenLive step s = .ok () s := by
  unfold whenLive
  rw [get_bind_apply, h]
  rfl

/-- With the cursor nowhere no statement is lowered, whatever it is. -/
theorem statement_nowhere (h : s.body.cursor.isSome = false) :
    ∀ n : Node, statement c n s = .ok () s
  | .labelled _ _ x => by
    rw [statement]
    exact statement_nowhere h x
  | .expr _ | .typeRef _ | .program _ _ | .file _ | .space _ _ _ | .varDecl _ | .funcDecl _ _
  | .structDecl _ | .block _ | .ifStmt _ _ _ _ _ | .elif _ | .forStmt _ _ _ _ _
  | .whileStmt _ _ _ | .branch _ _ | .ret _ _ => by
    rw [statement]
    exact whenLive_nowhere _ h

theorem statementsWhere_nowhere (keep : Node → Bool) (h : s.body.cursor.isSome = false)
    (ns : List Node) : statementsWhere c keep ns s = .ok () s := by
  induction ns with
  | nil =>
    rw [statementsWhere]
    rfl
  | cons n ns ih =>
    rw [statementsWhere]
    split
    · exact (bind_of_ok (statement_nowhere h n)).trans ih
    · exact ih

theorem statementsWhere_append (c : Context) (keep : Node → Bool) (xs ys : List Node) :
    statementsWhere c keep (xs ++ ys) =
      statementsWhere c keep xs >>= fun _ => statementsWhere c keep ys := by
  induction xs with
  | nil => rw [statementsWhere, List.nil_append, pure_bind]
  | cons x xs ih =>
    rw [List.cons_append, statementsWhere, statementsWhere, ih]
    split
    · rw [bind_assoc]
    · rfl

/-- What follows statements that do not fall through has no effect. -/
theorem statementsWhere_cut (c : Context) {xs : List Node} (h : Node.allFallThrough xs = false)
    (ys : List Node) :
    statementsWhere c (fun _ => true) (xs ++ ys) = statementsWhere c (fun _ => true) xs := by
  funext s
  rw [statementsWhere_append]
  cases hx : statementsWhere c (fun _ => true) xs s with
  | error f s' => exact bind_eq_error.mpr (.inl hx)
  | ok u s' =>
    rw [bind_of_ok hx]
    refine statementsWhere_nowhere _ ?_ ys
    cases hl : s.body.cursor.isSome with
    | true => rw [statementsWhere_cursor hx hl, h]
    | false =>
      rw [statementsWhere_nowhere _ hl] at hx
      cases hx
      exact hl

end Lower

/-! ## Revisions of dead code -/

mutual

/-- The second tree is the first with dead code replaced. -/
inductive Node.Revised : Node → Node → Prop
  | refl (n : Node) : Node.Revised n n
  | labelled (site : Site) (label : String) {x x' : Node} :
    Node.Revised x x' → Node.Revised (.labelled site label x) (.labelled site label x')
  | program (site : Site) {files files' : List File} :
    File.RevisedAll files files' → Node.Revised (.program site files) (.program site files')
  | file {f f' : File} : File.Revised f f' → Node.Revised (.file f) (.file f')
  | space (site : Site) (name : String) {decls decls' : List Node} :
    Node.RevisedEach decls decls' → Node.Revised (.space site name decls) (.space site name decls')
  | funcDecl (head : FuncHead) {body body' : Block} :
    Block.Revised body body' → Node.Revised (.funcDecl head body) (.funcDecl head body')
  | block {b b' : Block} : Block.Revised b b' → Node.Revised (.block b) (.block b')
  | ifStmt (site : Site) (cond : Expr) {yes yes' no no' : Block} {elifs elifs' : List Elif} :
    Block.Revised yes yes' → Elif.RevisedAll elifs elifs' → Block.Revised no no' →
      Node.Revised (.ifStmt site cond yes elifs no) (.ifStmt site cond yes' elifs' no')
  | elif {e e' : Elif} : Elif.Revised e e' → Node.Revised (.elif e) (.elif e')
  | forStmt (site : Site) (cond : Expr) {init init' iter iter' : List Node} {body body' : Block} :
    Node.RevisedCode init init' → Node.RevisedCode iter iter' → Block.Revised body body' →
      Node.Revised (.forStmt site init cond iter body) (.forStmt site init' cond iter' body')
  | whileStmt (site : Site) (cond : Expr) {body body' : Block} :
    Block.Revised body body' →
      Node.Revised (.whileStmt site cond body) (.whileStmt site cond body')

/-- The second block is the first with dead code replaced. -/
inductive Block.Revised : Block → Block → Prop
  | missing : Block.Revised .missing .missing
  | mk (site : Site) {stmts stmts' : List Node} :
    Node.RevisedCode stmts stmts' → Block.Revised (.mk site stmts) (.mk site stmts')

inductive Elif.Revised : Elif → Elif → Prop
  | missing : Elif.Revised .missing .missing
  | mk (site : Site) (cond : Expr) {body body' : Block} :
    Block.Revised body body' → Elif.Revised (.mk site cond body) (.mk site cond body')

inductive Elif.RevisedAll : List Elif → List Elif → Prop
  | nil : Elif.RevisedAll [] []
  | cons {e e' : Elif} {es es' : List Elif} :
    Elif.Revised e e' → Elif.RevisedAll es es' → Elif.RevisedAll (e :: es) (e' :: es')

inductive File.Revised : File → File → Prop
  | missing : File.Revised .missing .missing
  | mk (site : Site) {decls decls' : List Node} :
    Node.RevisedEach decls decls' → File.Revised (.mk site decls) (.mk site decls')

inductive File.RevisedAll : List File → List File → Prop
  | nil : File.RevisedAll [] []
  | cons {f f' : File} {fs fs' : List File} :
    File.Revised f f' → File.RevisedAll fs fs' → File.RevisedAll (f :: fs) (f' :: fs')

/-- Declarations, each with its dead code replaced. None is dead as a whole: functions, constants
    and globals are lowered wherever they stand. -/
inductive Node.RevisedEach : List Node → List Node → Prop
  | nil : Node.RevisedEach [] []
  | cons {n n' : Node} {ns ns' : List Node} :
    Node.Revised n n' → Node.RevisedEach ns ns' → Node.RevisedEach (n :: ns) (n' :: ns')

/-- Statements of a block, or around a loop: after some that do not fall through, any others may
    stand. -/
inductive Node.RevisedCode : List Node → List Node → Prop
  | nil : Node.RevisedCode [] []
  | cons {n n' : Node} {ns ns' : List Node} :
    Node.Revised n n' → Node.RevisedCode ns ns' → Node.RevisedCode (n :: ns) (n' :: ns')
  | tail {xs xs' : List Node} (ys ys' : List Node) :
    Node.RevisedCode xs xs' → Node.allFallThrough xs = false →
      Node.RevisedCode (xs ++ ys) (xs' ++ ys')

end

theorem Block.Revised.site {b b' : Block} (h : b.Revised b') : b'.site? = b.site? := by
  cases h <;> rfl

theorem Block.Revised.isMissing {b b' : Block} (h : b.Revised b') :
    b'.isMissing = b.isMissing := by
  rw [b'.isMissing_eq, h.site, b.isMissing_eq]

theorem Elif.RevisedAll.any_isMissing {es es' : List Elif} (h : Elif.RevisedAll es es') :
    es'.any Elif.isMissing = es.any Elif.isMissing := by
  induction es generalizing es' with
  | nil =>
    cases h
    rfl
  | cons e es ih =>
    cases h with
    | cons he h =>
      rw [List.any_cons, List.any_cons, ih h]
      cases he <;> rfl

theorem Node.Revised.unwrap : ∀ {n n' : Node}, n.Revised n' → n.unwrap.Revised n'.unwrap
  | _, _, .labelled _ _ h => h.unwrap
  | _, _, .refl n => .refl n.unwrap
  | _, _, .program site h => .program site h
  | _, _, .file h => .file h
  | _, _, .space site name h => .space site name h
  | _, _, .funcDecl head h => .funcDecl head h
  | _, _, .block h => .block h
  | _, _, .ifStmt site cond hy he hn => .ifStmt site cond hy he hn
  | _, _, .elif h => .elif h
  | _, _, .forStmt site cond hi ht hb => .forStmt site cond hi ht hb
  | _, _, .whileStmt site cond h => .whileStmt site cond h

theorem Node.Revised.classify {n n' : Node} (h : n.Revised n') (a : Analysis) (inSpace : Bool) :
    (TreeLowering.classify a inSpace n).Alike (TreeLowering.classify a inSpace n') := by
  unfold TreeLowering.classify
  have hu := h.unwrap
  generalize n.unwrap = m at hu
  generalize n'.unwrap = m' at hu
  cases hu with
  | refl => exact .refl _
  | funcDecl head hb => exact .func head hb.site
  | _ => exact .other _ _

theorem Node.RevisedEach.emissionOrder {ns ns' : List Node} (h : Node.RevisedEach ns ns')
    (a : Analysis) (inSpace : Bool) :
    (TreeLowering.emissionOrder a inSpace ns).Alike
      (TreeLowering.emissionOrder a inSpace ns') := by
  induction ns generalizing ns' with
  | nil =>
    cases h
    exact ⟨rfl, rfl, .nil, rfl⟩
  | cons n ns ih =>
    cases h with
    | cons hn h => exact (ih h).push (hn.classify a inSpace)

namespace Lower

variable (c : Context)

theorem otherwiseName_revised {more more' : List Elif} {no no' : Block}
    (h : Elif.RevisedAll more more') (hn : no.Revised no') :
    otherwiseName more' no' = otherwiseName more no := by
  have he : more'.isEmpty = more.isEmpty := by cases h <;> rfl
  rw [otherwiseName, otherwiseName, he, hn.isMissing]

mutual

/-- Dead code is inert: a statement is lowered as it is with its dead code replaced. -/
theorem statement_revised : ∀ {n n' : Node}, n.Revised n' → statement c n' = statement c n
  | _, _, .refl n => rfl
  | _, _, .labelled _ _ h => by
    simp only [statement, statement_revised h]
  | _, _, .program _ _ => by
    simp only [statement]
    rfl
  | _, _, .file .missing => rfl
  | _, _, .file (.mk _ _) => by
    simp only [statement]
    rfl
  | _, _, .space _ _ h => by
    have ho := h.emissionOrder c.analysis true
    simp only [statement, ho.size, emitLeading_alike c ho, statementsWhere_revisedEach true h]
  | _, _, .funcDecl _ h => by
    simp only [statement, enterPrototype_congr c h.site, fillBody_congr c h.site,
      blockStatements_revised h]
  | _, _, .block h => by
    simp only [statement, blockStatements_revised h]
  | _, _, .ifStmt _ _ hy he hn => by
    simp only [statement, he.any_isMissing, blockStatements_revised hy, blockStatements_revised hn,
      otherwiseName_revised he hn, elifArms_revised hn he, hn.isMissing]
  | _, _, .elif .missing => rfl
  | _, _, .elif (.mk _ _ _) => by
    simp only [statement]
    rfl
  | _, _, .forStmt _ _ hi ht hb => by
    simp only [statement, statementsWhere_revisedCode hi, statementsWhere_revisedCode ht,
      blockStatements_revised hb]
  | _, _, .whileStmt _ _ h => by
    simp only [statement, blockStatements_revised h]

theorem blockStatements_revised : ∀ {b b' : Block}, b.Revised b' →
    blockStatements c b' = blockStatements c b
  | _, _, .missing => rfl
  | _, _, .mk _ h => by
    simp only [blockStatements, statementsWhere_revisedCode h]

theorem statementsWhere_revisedEach (inSpace : Bool) : ∀ {ns ns' : List Node},
    Node.RevisedEach ns ns' → statementsWhere c (takesTurn c.analysis inSpace) ns' =
      statementsWhere c (takesTurn c.analysis inSpace) ns
  | _, _, .nil => rfl
  | _, _, .cons hn h => by
    simp only [statementsWhere, (hn.classify c.analysis inSpace).takesTurn, statement_revised hn,
      statementsWhere_revisedEach inSpace h]

theorem statementsWhere_revisedCode : ∀ {ns ns' : List Node}, Node.RevisedCode ns ns' →
    statementsWhere c (fun _ => true) ns' = statementsWhere c (fun _ => true) ns
  | _, _, .nil => rfl
  | _, _, .cons hn h => by
    simp only [statementsWhere, statement_revised hn, statementsWhere_revisedCode h]
  | _, _, @Node.RevisedCode.tail xs xs' ys ys' h hx => by
    rw [statementsWhere_append, statementsWhere_revisedCode h, ← statementsWhere_append,
      statementsWhere_cut c hx, statementsWhere_cut c hx]

theorem elifArms_revised {done : Ir.Label} {no no' : Block} (hn : no.Revised no') :
    ∀ {es es' : List Elif}, Elif.RevisedAll es es' →
    elifArms c done no' es' = elifArms c done no es
  | _, _, .nil => rfl
  | _, _, .cons .missing _ => by simp only [elifArms]
  | _, _, .cons (.mk _ _ hb) h => by
    simp only [elifArms, blockStatements_revised hb, otherwiseName_revised h hn,
      elifArms_revised hn h]

end

theorem wholeUnit_revised {decls decls' : List Node} (h : Node.RevisedEach decls decls') :
    wholeUnit c decls' = wholeUnit c decls := by
  have ho := h.emissionOrder c.analysis false
  simp only [wholeUnit, topLevel, ho.consts, ho.globals, ho.funcs.length_eq, ho.other,
    emitLeading_alike c ho, runEntry_alike c ho, statementsWhere_revisedEach c false h]

end Lower

/-- Fall-through is exact and dead code is inert. After a statement that is lowered where there is
    a place for instructions, there is one exactly if the statement falls through; and declarations
    with dead code replaced, wherever it stands in them, give what they give without. -/
theorem lowering_follows_fallsThrough :
    (∀ (c : Context) (n : Node) (s s' : State) (u : Unit), statement c n s = .ok u s' →
      s.body.cursor.isSome → (s'.body.cursor.isSome ↔ n.fallsThrough)) ∧
    ∀ (analysis : Analysis) (config : Config) (decls decls' : List Node),
      Node.RevisedEach decls decls' →
        lowerUnit analysis config decls' = lowerUnit analysis config decls := by
  constructor
  · intro c n s s' u h hl
    rw [statement_cursor h hl]
  · intro analysis config decls decls' h
    unfold lowerUnit
    rw [wholeUnit_revised _ h]

/-- A conditional that leaves the loop around it on both arms, with something after the `break`. -/
def leavingArms (rest : List Node) : Node :=
  .ifStmt { id := 1 } (.boolLit { id := 2 } true)
    (.mk { id := 3 } (.branch { id := 4 } (.known .breakWord) :: rest)) []
    (.mk { id := 5 } [.branch { id := 6 } (.known .continueWord)])

/-- An endless loop around the conditional, with something after it. -/
def leftLoop (inside after : List Node) : List Node :=
  [.forStmt { id := 7 } [] .absent [] (.mk { id := 8 } (leavingArms inside :: after))]

/-- A variable that is not defined. -/
def unknownName : Node := .expr (.varRef { id := 9 } "unknown" (.known .none))

/-- A function inside a function, itself with a variable that is not defined. -/
def strayFunction : Node :=
  .funcDecl { site := { id := 10 }, name := "stray" } (.mk { id := 11 } [unknownName])

theorem lowering_follows_fallsThrough_leftLoop :
    Node.RevisedEach (leftLoop [] []) (leftLoop [unknownName] [strayFunction]) ∧
      lowerUnit default {} (leftLoop [unknownName] [strayFunction]) =
        lowerUnit default {} (leftLoop [] []) ∧
      (∃ m, (lowerUnit default {} (leftLoop [] [])).result = .ok m) ∧
      ∃ s s', s.body.cursor.isSome ∧ statement default (leavingArms []) s = .ok () s' ∧
        (s'.body.cursor.isSome ↔ (leavingArms []).fallsThrough) := by
  have arms : (leavingArms []).Revised (leavingArms [unknownName]) :=
    .ifStmt _ _ (.mk _ (.tail [] [unknownName] (.cons (.refl _) .nil) rfl)) .nil
      (.mk _ (.cons (.refl _) .nil))
  have revised : Node.RevisedEach (leftLoop [] []) (leftLoop [unknownName] [strayFunction]) :=
    .cons (.forStmt _ _ .nil .nil (.mk _ (.tail [] [strayFunction] (.cons arms .nil) rfl))) .nil
  have inLoop : ∃ s', statement default (leavingArms [])
      { body := { fn := 0, loops := [⟨entryLabel, entryLabel⟩] } } = .ok () s' := ⟨_, rfl⟩
  obtain ⟨s', hs⟩ := inLoop
  obtain ⟨ends, inert⟩ := lowering_follows_fallsThrough
  exact ⟨revised, inert default {} _ _ revised, ⟨_, rfl⟩, _, s', rfl, hs,
    ends default _ _ s' () hs rfl⟩

end TreeLowering
