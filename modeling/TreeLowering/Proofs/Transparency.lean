import Mathlib.Data.List.Forall2
import TreeLowering.Lower.Unit

/-!
Labels are transparent. `Node.Wrapped n n'` says that `n'` is `n` with labels, any number of them,
put around entries of its lists of declarations and statements, at any depth. The entries keep their
class (`Node.Wrapped.classify`), so both trees have the same emission order but for what is inside
bodies (`EmissionOrder.Alike`), and both are lowered alike (`statement_wrapped`, by recursion over
the wrapping). Hence units that differ in labels only have the same outcome, reports included.
-/
namespace TreeLowering

/-- A node under labels, the first of them outermost. -/
def Node.under : List (Site × String) → Node → Node
  | [], n => n
  | (site, label) :: rest, n => .labelled site label (Node.under rest n)

mutual

/-- The second tree is the first with labels put around entries of its lists. -/
inductive Node.Wrapped : Node → Node → Prop
  | refl (n : Node) : Node.Wrapped n n
  | labelled (site : Site) (label : String) {x x' : Node} :
    Node.Wrapped x x' → Node.Wrapped (.labelled site label x) (.labelled site label x')
  | program (site : Site) {files files' : List File} :
    File.WrappedAll files files' → Node.Wrapped (.program site files) (.program site files')
  | file {f f' : File} : File.Wrapped f f' → Node.Wrapped (.file f) (.file f')
  | space (site : Site) (name : String) {decls decls' : List Node} :
    Node.WrappedAll decls decls' → Node.Wrapped (.space site name decls) (.space site name decls')
  | funcDecl (head : FuncHead) {body body' : Block} :
    Block.Wrapped body body' → Node.Wrapped (.funcDecl head body) (.funcDecl head body')
  | block {b b' : Block} : Block.Wrapped b b' → Node.Wrapped (.block b) (.block b')
  | ifStmt (site : Site) (cond : Expr) {yes yes' no no' : Block} {elifs elifs' : List Elif} :
    Block.Wrapped yes yes' → Elif.WrappedAll elifs elifs' → Block.Wrapped no no' →
      Node.Wrapped (.ifStmt site cond yes elifs no) (.ifStmt site cond yes' elifs' no')
  | elif {e e' : Elif} : Elif.Wrapped e e' → Node.Wrapped (.elif e) (.elif e')
  | forStmt (site : Site) (cond : Expr) {init init' iter iter' : List Node} {body body' : Block} :
    Node.WrappedAll init init' → Node.WrappedAll iter iter' → Block.Wrapped body body' →
      Node.Wrapped (.forStmt site init cond iter body) (.forStmt site init' cond iter' body')
  | whileStmt (site : Site) (cond : Expr) {body body' : Block} :
    Block.Wrapped body body' →
      Node.Wrapped (.whileStmt site cond body) (.whileStmt site cond body')

/-- The second block is the first with labels put around entries of lists. -/
inductive Block.Wrapped : Block → Block → Prop
  | missing : Block.Wrapped .missing .missing
  | mk (site : Site) {stmts stmts' : List Node} :
    Node.WrappedAll stmts stmts' → Block.Wrapped (.mk site stmts) (.mk site stmts')

inductive Elif.Wrapped : Elif → Elif → Prop
  | missing : Elif.Wrapped .missing .missing
  | mk (site : Site) (cond : Expr) {body body' : Block} :
    Block.Wrapped body body' → Elif.Wrapped (.mk site cond body) (.mk site cond body')

inductive Elif.WrappedAll : List Elif → List Elif → Prop
  | nil : Elif.WrappedAll [] []
  | cons {e e' : Elif} {es es' : List Elif} :
    Elif.Wrapped e e' → Elif.WrappedAll es es' → Elif.WrappedAll (e :: es) (e' :: es')

inductive File.Wrapped : File → File → Prop
  | missing : File.Wrapped .missing .missing
  | mk (site : Site) {decls decls' : List Node} :
    Node.WrappedAll decls decls' → File.Wrapped (.mk site decls) (.mk site decls')

inductive File.WrappedAll : List File → List File → Prop
  | nil : File.WrappedAll [] []
  | cons {f f' : File} {fs fs' : List File} :
    File.Wrapped f f' → File.WrappedAll fs fs' → File.WrappedAll (f :: fs) (f' :: fs')

/-- The entries of the second list are those of the first, each under labels. -/
inductive Node.WrappedAll : List Node → List Node → Prop
  | nil : Node.WrappedAll [] []
  | cons (labels : List (Site × String)) {n n' : Node} {ns ns' : List Node} :
    Node.Wrapped n n' → Node.WrappedAll ns ns' →
      Node.WrappedAll (n :: ns) (n'.under labels :: ns')

end

theorem Node.unwrap_under (labels : List (Site × String)) (n : Node) :
    (n.under labels).unwrap = n.unwrap := by
  induction labels with
  | nil => rfl
  | cons l rest ih => exact ih

theorem Node.WrappedAll.append {ns ns' ms ms' : List Node} (h : Node.WrappedAll ns ns')
    (hm : Node.WrappedAll ms ms') : Node.WrappedAll (ns ++ ms) (ns' ++ ms') := by
  induction ns generalizing ns' with
  | nil =>
    cases h
    exact hm
  | cons n ns ih =>
    cases h with
    | cons labels hn h => exact .cons labels hn (ih h)

theorem Block.Wrapped.site {b b' : Block} (h : b.Wrapped b') : b'.site? = b.site? := by
  cases h <;> rfl

theorem Block.isMissing_eq (b : Block) : b.isMissing = b.site?.isNone := by
  cases b <;> rfl

theorem Block.Wrapped.isMissing {b b' : Block} (h : b.Wrapped b') :
    b'.isMissing = b.isMissing := by
  rw [b'.isMissing_eq, h.site, b.isMissing_eq]

theorem Elif.WrappedAll.any_isMissing {es es' : List Elif} (h : Elif.WrappedAll es es') :
    es'.any Elif.isMissing = es.any Elif.isMissing := by
  induction es generalizing es' with
  | nil =>
    cases h
    rfl
  | cons e es ih =>
    cases h with
    | cons he h =>
      have hm : ∀ {e e'}, Elif.Wrapped e e' → e'.isMissing = e.isMissing := by
        rintro _ _ (_ | _) <;> rfl
      rw [List.any_cons, List.any_cons, hm he, ih h]

/-! ## Emission order -/

theorem Node.Wrapped.unwrap : ∀ {n n' : Node}, n.Wrapped n' → n.unwrap.Wrapped n'.unwrap
  | _, _, .labelled _ _ h => h.unwrap
  | _, _, .refl n => .refl n.unwrap
  | _, _, .program site h => .program site h
  | _, _, .file h => .file h
  | _, _, .space site name h => .space site name h
  | _, _, .funcDecl head h => .funcDecl head h
  | _, _, .block h => .block h
  | _, _, .ifStmt site cond hy he hn => .ifStmt site cond hy he hn
  | _, _, .elif h => .elif h
  | _, _, .forStmt site cond hi ht hb => .forStmt site cond hi ht hb
  | _, _, .whileStmt site cond h => .whileStmt site cond h

/-- Two classes that differ at most in what is inside a body or another statement. -/
inductive DeclClass.Alike : DeclClass → DeclClass → Prop
  | const (d : VarDecl) : DeclClass.Alike (.const d) (.const d)
  | global (d : VarDecl) : DeclClass.Alike (.global d) (.global d)
  | func (head : FuncHead) {body body' : Block} (h : body'.site? = body.site?) :
    DeclClass.Alike (.func head body) (.func head body')
  | other (n n' : Node) : DeclClass.Alike (.other n) (.other n')

theorem DeclClass.Alike.refl : ∀ k : DeclClass, k.Alike k
  | .const d => .const d
  | .global d => .global d
  | .func head _ => .func head rfl
  | .other n => .other n n

theorem Node.Wrapped.classify {n n' : Node} (h : n.Wrapped n') (labels : List (Site × String))
    (a : Analysis) (inSpace : Bool) :
    (TreeLowering.classify a inSpace n).Alike
      (TreeLowering.classify a inSpace (n'.under labels)) := by
  unfold TreeLowering.classify
  rw [Node.unwrap_under]
  have hu := h.unwrap
  generalize n.unwrap = m at hu
  generalize n'.unwrap = m' at hu
  cases hu with
  | refl => exact .refl _
  | funcDecl head hb => exact .func head hb.site
  | _ => exact .other _ _

theorem DeclClass.Alike.takesTurn {n n' : Node} {a : Analysis} {inSpace : Bool}
    (h : (classify a inSpace n).Alike (classify a inSpace n')) :
    TreeLowering.takesTurn a inSpace n' = TreeLowering.takesTurn a inSpace n := by
  unfold TreeLowering.takesTurn
  generalize classify a inSpace n = k at h ⊢
  generalize classify a inSpace n' = k' at h ⊢
  cases h <;> rfl

namespace EmissionOrder

/-- Two emission orders that differ at most in what is inside bodies and other statements. -/
structure Alike (b b' : EmissionOrder) : Prop where
  consts : b'.consts = b.consts
  globals : b'.globals = b.globals
  funcs : List.Forall₂ (fun p p' => p'.1 = p.1 ∧ p'.2.site? = p.2.site?) b.funcs b'.funcs
  other : b'.other.length = b.other.length

theorem Alike.push {b b' : EmissionOrder} (h : b.Alike b') {k k' : DeclClass} (hk : k.Alike k') :
    (b.push k).Alike (b'.push k') := by
  obtain ⟨hc, hg, hf, ho⟩ := h
  cases hk with
  | const d => exact ⟨congrArg (d :: ·) hc, hg, hf, ho⟩
  | global d => exact ⟨hc, congrArg (d :: ·) hg, hf, ho⟩
  | func head hb =>
    refine ⟨hc, hg, .cons ⟨rfl, hb⟩ hf, ?_⟩
    -- The body of an external function has no turn.
    dsimp only [EmissionOrder.push]
    split
    · exact ho
    · exact congrArg (· + 1) ho
  | other n n' => exact ⟨hc, hg, hf, congrArg (· + 1) ho⟩

theorem Alike.size {b b' : EmissionOrder} (h : b.Alike b') : b'.size = b.size := by
  unfold EmissionOrder.size
  rw [h.consts, h.globals, h.funcs.length_eq, h.other]

end EmissionOrder

theorem Node.WrappedAll.emissionOrder {ns ns' : List Node} (h : Node.WrappedAll ns ns')
    (a : Analysis) (inSpace : Bool) :
    (TreeLowering.emissionOrder a inSpace ns).Alike
      (TreeLowering.emissionOrder a inSpace ns') := by
  induction ns generalizing ns' with
  | nil =>
    cases h
    exact ⟨rfl, rfl, .nil, rfl⟩
  | cons n ns ih =>
    cases h with
    | cons labels hn h => exact (ih h).push (hn.classify labels a inSpace)

namespace Lower

variable (c : Context)

/-! ## Steps that look at a body only for whether and where it is -/

section Bodies

variable {body body' : Block} (h : body'.site? = body.site?)
include h

theorem hasBody_congr (head : FuncHead) : head.hasBody body' = head.hasBody body := by
  rw [FuncHead.hasBody, FuncHead.hasBody, body'.isMissing_eq, body.isMissing_eq, h]

theorem enterPrototype_congr (head : FuncHead) :
    enterPrototype c head body' = enterPrototype c head body := by
  simp only [enterPrototype, declarePrototype, hasBody_congr h]

theorem fillBody_congr (head : FuncHead) (step : Lower Unit) :
    fillBody c head body' step = fillBody c head body step := by
  simp only [fillBody, hasBody_congr h, h]

end Bodies

theorem emitLeading_alike {b b' : EmissionOrder} (h : b.Alike b') :
    emitLeading c b' = emitLeading c b := by
  have hf := h.funcs
  unfold emitLeading
  rw [h.consts, h.globals]
  congr 1
  generalize b.funcs = fs at hf
  generalize b'.funcs = fs' at hf
  induction hf with
  | nil => rfl
  | @cons p p' ps ps' hp _ ih =>
    simp only [List.forM_eq_forM, List.forM_cons] at ih ⊢
    rw [hp.1, enterPrototype_congr c hp.2, ih]

theorem runEntry_alike {b b' : EmissionOrder} (h : b.Alike b') :
    runEntry c b'.funcs = runEntry c b.funcs := by
  have entry : entryFunc c b'.funcs = entryFunc c b.funcs := by
    have hf := h.funcs
    generalize b.funcs = fs at hf
    generalize b'.funcs = fs' at hf
    induction hf with
    | nil => rfl
    | cons hp _ ih => simp only [entryFunc, hp.1, ih]
  simp only [runEntry, entry]

theorem otherwiseName_wrapped {more more' : List Elif} {no no' : Block}
    (h : Elif.WrappedAll more more') (hn : no.Wrapped no') :
    otherwiseName more' no' = otherwiseName more no := by
  have he : more'.isEmpty = more.isEmpty := by cases h <;> rfl
  rw [otherwiseName, otherwiseName, he, hn.isMissing]

/-! ## Statements -/

theorem statement_under (labels : List (Site × String)) (n : Node) :
    statement c (n.under labels) = statement c n := by
  induction labels with
  | nil => rfl
  | cons l rest ih =>
    rw [Node.under, statement]
    exact ih

/-- A choice among the entries of a list that does not see labels. -/
def Blind (keep : Node → Bool) : Prop :=
  ∀ n n' labels, Node.Wrapped n n' → keep (n'.under labels) = keep n

theorem blind_true : Blind fun _ => true := fun _ _ _ _ => rfl

theorem blind_takesTurn (a : Analysis) (inSpace : Bool) : Blind (takesTurn a inSpace) :=
  fun _ _ labels h => (h.classify labels a inSpace).takesTurn

mutual

theorem statement_wrapped : ∀ {n n' : Node}, n.Wrapped n' → statement c n' = statement c n
  | _, _, .refl n => rfl
  | _, _, .labelled _ _ h => by
    simp only [statement, statement_wrapped h]
  | _, _, .program _ _ => by
    simp only [statement]
    rfl
  | _, _, .file .missing => rfl
  | _, _, .file (.mk _ _) => by
    simp only [statement]
    rfl
  | _, _, .space _ _ h => by
    have ho := h.emissionOrder c.analysis true
    simp only [statement, ho.size, emitLeading_alike c ho,
      statementsWhere_wrapped (blind_takesTurn c.analysis true) h]
  | _, _, .funcDecl _ h => by
    simp only [statement, enterPrototype_congr c h.site, fillBody_congr c h.site,
      blockStatements_wrapped h]
  | _, _, .block h => by
    simp only [statement, blockStatements_wrapped h]
  | _, _, .ifStmt _ _ hy he hn => by
    simp only [statement, he.any_isMissing, blockStatements_wrapped hy, blockStatements_wrapped hn,
      otherwiseName_wrapped he hn, elifArms_wrapped hn he, hn.isMissing]
  | _, _, .elif .missing => rfl
  | _, _, .elif (.mk _ _ _) => by
    simp only [statement]
    rfl
  | _, _, .forStmt _ _ hi ht hb => by
    simp only [statement, statementsWhere_wrapped blind_true hi,
      statementsWhere_wrapped blind_true ht, blockStatements_wrapped hb]
  | _, _, .whileStmt _ _ h => by
    simp only [statement, blockStatements_wrapped h]

theorem blockStatements_wrapped : ∀ {b b' : Block}, b.Wrapped b' →
    blockStatements c b' = blockStatements c b
  | _, _, .missing => rfl
  | _, _, .mk _ h => by
    simp only [blockStatements, statementsWhere_wrapped blind_true h]

theorem statementsWhere_wrapped {keep : Node → Bool} (hk : Blind keep) :
    ∀ {ns ns' : List Node}, Node.WrappedAll ns ns' →
    statementsWhere c keep ns' = statementsWhere c keep ns
  | _, _, .nil => rfl
  | _, _, .cons labels hn h => by
    simp only [statementsWhere, hk _ _ labels hn, statement_under, statement_wrapped hn,
      statementsWhere_wrapped hk h]

theorem elifArms_wrapped {done : Ir.Label} {no no' : Block} (hn : no.Wrapped no') :
    ∀ {es es' : List Elif}, Elif.WrappedAll es es' →
    elifArms c done no' es' = elifArms c done no es
  | _, _, .nil => rfl
  | _, _, .cons .missing _ => by simp only [elifArms]
  | _, _, .cons (.mk _ _ hb) h => by
    simp only [elifArms, blockStatements_wrapped hb, otherwiseName_wrapped h hn,
      elifArms_wrapped hn h]

end

theorem wholeUnit_wrapped {decls decls' : List Node} (h : Node.WrappedAll decls decls') :
    wholeUnit c decls' = wholeUnit c decls := by
  have ho := h.emissionOrder c.analysis false
  simp only [wholeUnit, topLevel, ho.consts, ho.globals, ho.funcs.length_eq, ho.other,
    emitLeading_alike c ho, runEntry_alike c ho,
    statementsWhere_wrapped c (blind_takesTurn c.analysis false) h]

end Lower

theorem File.WrappedAll.decls {files files' : List File} (h : File.WrappedAll files files') :
    Node.WrappedAll (files.flatMap File.decls) (files'.flatMap File.decls) := by
  induction files generalizing files' with
  | nil =>
    cases h
    exact .nil
  | cons f files ih =>
    cases h with
    | cons hf h =>
      cases hf with
      | missing => exact Node.WrappedAll.nil.append (ih h)
      | mk site hd => exact hd.append (ih h)

/-- Labels are transparent: files whose declarations and statements were put under labels, wherever
    they stand in the trees, give what the files without these labels give. -/
theorem lowerUnit_wrapped (analysis : Analysis) (config : Config) (files files' : List File)
    (h : File.WrappedAll files files') :
    lowerUnit analysis config (files'.flatMap File.decls) =
      lowerUnit analysis config (files.flatMap File.decls) := by
  unfold lowerUnit
  rw [Lower.wholeUnit_wrapped _ h.decls]

/-- A loop in a namespace, with something done to every entry of a list. -/
def loopFile (f : Node → Node) : File :=
  .mk { id := 1 } [f (.space { id := 2 } "N" [f (.forStmt { id := 3 }
    [f (.expr (.boolLit { id := 4 } true))] .absent [f (.expr (.boolLit { id := 5 } false))]
    (.mk { id := 6 } [f (.branch { id := 7 } (.known .breakWord))]))])]

def twoLabels : List (Site × String) := [({ id := 8 }, "outer"), ({ id := 9 }, "inner")]

theorem lowerUnit_wrapped_loopFile :
    File.WrappedAll [loopFile id] [loopFile (Node.under twoLabels)] ∧
      lowerUnit default {} ([loopFile (Node.under twoLabels)].flatMap File.decls) =
        lowerUnit default {} ([loopFile id].flatMap File.decls) ∧
      ∃ m, (lowerUnit default {} ([loopFile id].flatMap File.decls)).result = .ok m := by
  have wrapped : File.WrappedAll [loopFile id] [loopFile (Node.under twoLabels)] :=
    .cons (.mk _ (.cons twoLabels (.space _ _ (.cons twoLabels (.forStmt _ _
      (.cons twoLabels (.refl _) .nil) (.cons twoLabels (.refl _) .nil)
      (.mk _ (.cons twoLabels (.refl _) .nil))) .nil)) .nil)) .nil
  exact ⟨wrapped, lowerUnit_wrapped default {} _ _ wrapped, _, rfl⟩

end TreeLowering
