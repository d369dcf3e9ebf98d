import TreeLowering.Lower.Unit

/-!
Expressions, variables and bodies are lowered alike under every configuration
(`valueOf_configured`, `fillBody_configured`). Lowering does not look at whether the module is to be
verified: it does the same under a configuration that asks for verification as under one that does
not (`wholeUnit_checked`).
-/
namespace TreeLowering

/-- The context with another configuration. -/
def Context.configured (c : Context) (config : Config) : Context := { c with config }

/-- The context that asks for verification or not. -/
abbrev Context.checked (c : Context) (verify : Bool) : Context :=
  c.configured { c.config with verify }

namespace Lower

variable (c : Context) (k : Config)

mutual

theorem valueOf_configured : ∀ e : Expr, valueOf (c.configured k) e = valueOf c e
  | .call site name args => by
    have h := fun params => arguments_configured params args
    simp only [valueOf, h]
    rfl
  | .structLit site name args => by
    have h := fun type slot ts => storeFields_configured type slot 0 ts args
    simp only [valueOf, h]
    rfl
  | .arrayLit site elems => by
    have h := fun et elem buffer => storeElements_configured et elem buffer 0 elems
    simp only [valueOf, h]
    rfl
  | .selector site x field arrow => by
    simp only [valueOf, valueOf_configured x, placeOf_configured x]
    rfl
  | .index site x i => by
    simp only [valueOf, valueOf_configured x, valueOf_configured i]
    rfl
  | .assign _ target value => by
    simp only [valueOf, placeOf_configured target, valueOf_configured value]
    rfl
  | .binary site op x y => by
    simp only [valueOf, valueOf_configured x, valueOf_configured y]
    rfl
  | .unary site op x => by
    simp only [valueOf, valueOf_configured x, placeOf_configured x]
  | .cast _ x target => by
    simp only [valueOf, valueOf_configured x]
    rfl
  | .varRef _ _ _ | .arrayAlloc _ _ _ | .intLit _ _ | .floatLit _ _ | .stringLit _ _ => by
    simp only [valueOf]
    rfl
  | .absent | .boolLit _ _ => by simp only [valueOf]

theorem placeOf_configured : ∀ e : Expr, placeOf (c.configured k) e = placeOf c e
  | .selector site x field arrow => by
    simp only [placeOf, valueOf_configured x, placeOf_configured x]
    rfl
  | .index site x i => by
    simp only [placeOf, valueOf_configured x, valueOf_configured i]
    rfl
  | .unary _ op x => by
    cases op with
    | known op => cases op <;> simp only [placeOf, valueOf_configured x]
    | unknown _ => simp only [placeOf]
  | .varRef site name step => by
    cases step with
    | known step =>
      cases step with
      | none =>
        simp only [placeOf]
        rfl
      | _ => simp only [placeOf]
    | unknown _ => simp only [placeOf]
  | .absent | .structLit _ _ _ | .call _ _ _ | .arrayLit _ _ | .arrayAlloc _ _ _
  | .assign _ _ _ | .binary _ _ _ _ | .cast _ _ _ | .intLit _ _ | .floatLit _ _ | .boolLit _ _
  | .stringLit _ _ => by simp only [placeOf]

theorem arguments_configured : ∀ (params : List (Ir.Ty × Bool)) (es : List Expr),
    arguments (c.configured k) params es = arguments c params es
  | _, [] => by simp only [arguments]
  | [], e :: es => by
    simp only [arguments, valueOf_configured e, arguments_configured [] es]
  | (t, unsigned) :: ps, e :: es => by
    simp only [arguments, valueOf_configured e, arguments_configured ps es]
    rfl

theorem storeElements_configured (et : Ty) (elem : Ir.Ty) (buffer : Ir.Value) :
    ∀ (i : Nat) (es : List Expr),
    storeElements (c.configured k) et elem buffer i es = storeElements c et elem buffer i es
  | _, [] => by simp only [storeElements]
  | i, e :: es => by
    simp only [storeElements, valueOf_configured e,
      storeElements_configured et elem buffer (i + 1) es]
    rfl

theorem storeFields_configured (type : Ir.Ty) (slot : Ir.Value) :
    ∀ (i : Nat) (ts : List Ty) (es : List Expr),
    storeFields (c.configured k) type slot i ts es = storeFields c type slot i ts es
  | _, _, [] => by simp only [storeFields]
  | _, [], _ :: _ => by simp only [storeFields]
  | i, t :: ts, e :: es => by
    simp only [storeFields, valueOf_configured e, storeFields_configured type slot (i + 1) ts es]
    rfl

end

theorem condition_configured (e : Expr) : condition (c.configured k) e = condition c e := by
  simp only [condition, valueOf_configured]

theorem valueAs_configured (e : Expr) (t : Ty) : valueAs (c.configured k) e t = valueAs c e t := by
  simp only [valueAs, valueOf_configured]
  rfl

theorem defineVariable_configured (d : VarDecl) :
    defineVariable (c.configured k) d = defineVariable c d := by
  simp only [defineVariable, defineGlobal, defineLocal, valueAs_configured]
  rfl

theorem storeParams_configured (fn : Ir.FuncId) (site : Site) :
    ∀ (i : Nat) (params : List (String × Ir.Ty)),
    storeParams (c.configured k) fn site i params = storeParams c fn site i params
  | _, [] => rfl
  | i, (name, type) :: rest => by
    simp only [storeParams, storeParams_configured fn site (i + 1) rest]
    rfl

theorem fillBody_configured (h : FuncHead) (body : Block) (step : Lower Unit) :
    fillBody (c.configured k) h body step = fillBody c h body step := by
  simp only [fillBody, storeParams_configured]
  rfl

/-- Of the configuration, the call of the entry function depends on the entry's name only. -/
theorem runEntry_configured (h : (c.configured k).config.entry = c.config.entry)
    (funcs : List (FuncHead × Block)) :
    runEntry (c.configured k) funcs = runEntry c funcs := by
  have found : entryFunc (c.configured k) funcs = entryFunc c funcs := by
    induction funcs with
    | nil => rfl
    | cons f rest ih => simp only [entryFunc, h, ih]
  simp only [runEntry, h, found]

/-! ## Verification -/

variable (b : Bool)

theorem enterPrototype_checked (h : FuncHead) (body : Block) :
    enterPrototype (c.checked b) h body = enterPrototype c h body := rfl

theorem emitLeading_checked (o : EmissionOrder) :
    emitLeading (c.checked b) o = emitLeading c o := by
  simp only [emitLeading, enterPrototype_checked, funext (defineVariable_configured c _)]

mutual

theorem statement_checked : ∀ n : Node, statement (c.checked b) n = statement c n
  | .labelled _ _ x => by
    simp only [statement, statement_checked x]
  | .expr e => by
    simp only [statement, valueOf_configured]
  | .varDecl d => by
    simp only [statement, defineVariable_configured]
  | .funcDecl h body => by
    simp only [statement, blockStatements_checked body, fillBody_configured, enterPrototype_checked]
  | .structDecl d => by
    simp only [statement]
    rfl
  | .space _ name decls => by
    have h := fun keep => statementsWhere_checked keep decls
    simp only [statement, emitLeading_checked, h]
    rfl
  | .block body => by
    simp only [statement, blockStatements_checked body]
  | .ifStmt _ cond yes elifs no => by
    have h := fun done => elifArms_checked done no elifs
    simp only [statement, conditionalArm, condition_configured, blockStatements_checked yes,
      blockStatements_checked no, h]
  | .forStmt _ init cond iter body => by
    have h₁ := fun keep => statementsWhere_checked keep init
    have h₂ := fun keep => statementsWhere_checked keep iter
    simp only [statement, forLoop, condition_configured, blockStatements_checked body, h₁, h₂]
  | .whileStmt _ cond body => by
    simp only [statement, whileLoop, condition_configured, blockStatements_checked body]
  | .branch site token => by simp only [statement]
  | .ret site result => by
    simp only [statement, leave, valueAs_configured]
    rfl
  | .typeRef _ | .program _ _ | .file _ | .elif _ => by simp only [statement]

theorem blockStatements_checked :
    ∀ body : Block, blockStatements (c.checked b) body = blockStatements c body
  | .missing => by simp only [blockStatements]
  | .mk _ stmts => by
    simp only [blockStatements, statementsWhere_checked _ stmts]

theorem statementsWhere_checked (keep : Node → Bool) :
    ∀ ns : List Node, statementsWhere (c.checked b) keep ns = statementsWhere c keep ns
  | [] => by simp only [statementsWhere]
  | n :: ns => by
    simp only [statementsWhere, statement_checked n, statementsWhere_checked keep ns]

theorem elifArms_checked (done : Ir.Label) (no : Block) :
    ∀ es : List Elif, elifArms (c.checked b) done no es = elifArms c done no es
  | [] => by simp only [elifArms]
  | .missing :: _ => by simp only [elifArms]
  | .mk _ cond body :: rest => by
    simp only [elifArms, conditionalArm, condition_configured, blockStatements_checked body,
      elifArms_checked done no rest]

end

theorem wholeUnit_checked (decls : List Node) :
    wholeUnit (c.checked b) decls = wholeUnit c decls := by
  simp only [wholeUnit, topLevel, emitLeading_checked, statementsWhere_checked,
    runEntry_configured c { c.config with verify := b } rfl]
  rfl

end Lower

end TreeLowering
