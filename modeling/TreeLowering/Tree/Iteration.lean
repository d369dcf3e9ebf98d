import TreeLowering.Breach
import TreeLowering.Tree.Children

/-!
The children of a node, handed on one by one. Whoever receives them may keep a state, and says after
each child whether to go on. Nothing is collected on the way, so an iteration that is left early has
not looked at the children behind the last one it handed on.
-/
namespace TreeLowering

/-- A run over nodes that keeps a state and may break off. -/
abbrev Visit (σ : Type) := ExceptT Breach (StateM σ)

variable {σ : Type}

/-- A child that may be left out; one that is not there stops nothing. -/
def yieldIf (present : Bool) (yield : Node → Visit σ Bool) (n : Node) : Visit σ Bool :=
  if present then yield n else pure true

/-- Hands on the slots of typed names, each under its name. -/
def yieldTypedNames (site : Site) (yield : Node → Visit σ Bool) (names : List TypedName) :
    Visit σ Bool :=
  names.allM fun p => yield (.labelled site p.1 (.typeRef p.2))

/-- Hands on a list of nodes under a label with the number of the node, from one. -/
def yieldNumbered (site : Site) (label : String) (yield : Node → Visit σ Bool)
    (nodes : List Node) : Visit σ Bool :=
  nodes.zipIdx.allM fun p => yield (.labelled site (label ++ toString (p.2 + 1)) p.1)

/-- Hands on the children of an expression, until one is answered with `false`. -/
def Expr.yieldChildren (yield : Node → Visit σ Bool) : Expr → Visit σ Bool
  | .structLit _ _ args => args.allM fun e => yield (.expr e)
  | .call _ _ args => args.allM fun e => yield (.expr e)
  | .arrayLit site elems =>
    elems.zipIdx.allM fun p => yield (p.1.labelledNode site ("elem_" ++ toString p.2))
  | .arrayAlloc _ _ elem => yield (.typeRef elem)
  | .selector _ x _ _ => yield (.expr x)
  | .index site x i => yield (x.labelledNode site "array") <&&> yield (i.labelledNode site "index")
  | .assign site target value =>
    yield (target.labelledNode site "target") <&&> yield (value.labelledNode site "expression")
  | .binary _ _ x y => yield (.expr x) <&&> yield (.expr y)
  | .unary _ _ x => yield (.expr x)
  | .cast _ x target => yield (.expr x) <&&> yield (.typeRef target)
  | .absent | .varRef _ _ _ | .intLit _ _ | .floatLit _ _ | .boolLit _ _ | .stringLit _ _ =>
    pure true

/-- Hands on the children of a node in display order, until one is answered with `false`; the
    result is `false` in that case and `true` otherwise. A block, an arm or a file that is missing
    has no parts to look at. -/
def Node.yieldChildren (yield : Node → Visit σ Bool) : Node → Visit σ Bool
  | .labelled _ _ x => x.yieldChildren yield
  | .expr e => e.yieldChildren yield
  | .program _ files => files.allM fun f => yield (.file f)
  | .file (.mk _ decls) => decls.allM yield
  | .space _ _ decls => decls.allM yield
  | .block (.mk _ stmts) => stmts.allM yield
  | .ifStmt site cond yes elifs no =>
    yield (cond.labelledNode site "condition") <&&>
      yield (.labelled site "then" (.block yes)) <&&>
      elifs.allM (fun e => yield (.labelled site "elif" (.elif e))) <&&>
      yieldIf (!no.isMissing) yield (.labelled site "else" (.block no))
  | .elif (.mk site cond body) =>
    yield (cond.labelledNode site "condition") <&&> yield (.block body)
  | .forStmt site init cond iter body =>
    yieldNumbered site "init_" yield init <&&>
      yieldIf (!cond.isAbsent) yield (cond.labelledNode site "condition") <&&>
      yieldNumbered site "iter_" yield iter <&&>
      yield (.labelled site "body" (.block body))
  | .whileStmt site cond body =>
    yield (cond.labelledNode site "condition") <&&> yield (.labelled site "body" (.block body))
  | .varDecl d =>
    yieldIf (!d.value.isAbsent) yield (.expr d.value) <&&>
      yieldIf d.type.isSome yield (.labelled d.site "type" (.typeRef d.type))
  | .funcDecl h body =>
    yieldIf (h.hasBody body) yield (.block body) <&&>
      yieldTypedNames h.site yield h.params <&&>
      yieldIf h.result.isSome yield (.labelled h.site "return" (.typeRef h.result))
  | .structDecl d => yieldTypedNames d.site yield d.fields
  | .ret _ result => yieldIf (!result.isAbsent) yield (.expr result)
  | .typeRef _ | .branch _ _ => pure true
  | .file .missing | .block .missing | .elif .missing => throw .missingPart

/-- Keeps what it is handed, and goes on until that is enough. -/
def collecting (enough : List Node → Bool) (n : Node) : Visit (List Node) Bool := do
  modify (· ++ [n])
  return !enough (← get)

/-- The children that an iteration meets which is left as soon as it met enough. -/
def Node.collectChildren (enough : List Node → Bool) (n : Node) : Except Breach (List Node) :=
  match n.yieldChildren (collecting enough) [] with
  | (.ok _, found) => .ok found
  | (.error b, _) => .error b

end TreeLowering
