import TreeLowering.Lower.Definition
import TreeLowering.Lower.Emission

/-!
Statements and declarations in order. Nothing is lowered after a statement that ends its block; the
cursor is then nowhere.
-/
namespace TreeLowering.Lower

/-! ## Conditionals -/

/-- One arm of a conditional: tests the condition, runs the arm, and leaves the cursor where the
    condition fails. A named block is made for that place; without a name it is the join. Says
    whether the join can be reached. -/
def conditionalArm (c : Context) (done : Ir.Label) (cond : Expr) (arm : Lower Unit)
    (otherwise : Option String) : Lower Bool := do
  let v ← condition c cond
  let yes ← openBlock "if.then"
  let no ← match otherwise with
    | some name => openBlock name
    | none => pure done
  terminate (.condBr v yes no)
  moveTo yes
  arm
  let joined ← branchIfLive done
  moveTo no
  pure (joined || otherwise.isNone)

/-- The name of the block where an arm's condition fails: the next arm, else the final block, else
    none. -/
def otherwiseName (more : List Elif) (no : Block) : Option String :=
  if !more.isEmpty then some "if.elif"
  else if !no.isMissing then some "if.else"
  else none

/-- Puts the join after the arms, or removes it if nothing leads there. -/
def closeConditional (done : Ir.Label) (reached : Bool) : Lower Unit := do
  if reached then
    modifyBody fun b => b.moveToEnd done
    moveTo done
  else
    modifyBody fun b => b.dropBlock done
    moveNowhere

/-! ## Loops -/

/-- Runs a loop body from a block, with the loop's targets innermost; its end continues the loop. -/
def runLoop (loop : Loop) (start : Ir.Label) (step : Lower Unit) : Lower Unit := do
  modifyBody fun b => { b with loops := loop :: b.loops }
  moveTo start
  step
  discard (branchIfLive loop.next)
  modifyBody fun b => { b with loops := b.loops.tail }

/-- The `while` loop: `continue` tests the condition again. -/
def whileLoop (c : Context) (cond : Expr) (step : Lower Unit) : Lower Unit := do
  let test ← openBlock "while.cond"
  let start ← openBlock "while.body"
  let exit ← openBlock "while.done"
  terminate (.br test)
  moveTo test
  let v ← condition c cond
  terminate (.condBr v start exit)
  runLoop ⟨exit, test⟩ start step
  moveTo exit

/-- The `for` loop after its initial statements: `continue` runs the iteration statements. -/
def forLoop (c : Context) (cond : Expr) (iter step : Lower Unit) : Lower Unit := do
  let test ← openBlock "for.cond"
  let start ← openBlock "for.body"
  let next ← openBlock "for.iter"
  let exit ← openBlock "for.done"
  terminate (.br test)
  moveTo test
  if cond.isAbsent then terminate (.br start)
  else
    let v ← condition c cond
    terminate (.condBr v start exit)
  runLoop ⟨exit, next⟩ start step
  moveTo next
  iter
  discard (branchIfLive test)
  moveTo exit

/-! ## Jumps -/

/-- The jumps `break` and `continue`; any other token continues. -/
def jump (site : Site) (token : Token) : Lower Unit := do
  match (← get).body.loops with
  | [] => reject site.position (.outsideLoop (Token.text token))
  | loop :: _ =>
    terminate (.br (if Token.isBreak token then loop.exit else loop.next))
    moveNowhere

/-- A `return`, which must give a value exactly if the function returns one. -/
def leave (c : Context) (site : Site) (result : Expr) : Lower Unit := do
  let b := (← get).body
  match b.head with
  | none => reject site.position .returnOutsideFunction
  | some h =>
    let void := b.result.isMissing || c.analysis.store.isVoid b.result
    if result.isAbsent then
      if void then terminate (.ret none)
      else reject site.position (.missingReturnValue h.name)
    else if void then reject site.position (.unwantedReturnValue h.name)
    else
      let v ← valueAs c result b.result
      terminate (.ret (some v))
    moveNowhere

/-! ## Statements -/

/-- Rejects a node that is no statement. -/
def misplaced (n : Node) : Lower Unit :=
  match n.site? with
  | some s => reject s.position (.misplaced n.kind)
  | none => breach .missingPart

/-- Enters the types that a struct definition declares. -/
def enterStruct (c : Context) (d : StructDecl) : Lower Unit :=
  match c.analysis.recordedType? (some d.site) with
  | none | some .missing => pure ()
  | some t => discard (instructionType c t)

/-- Lowers all groups of declarations but the last: prototypes, constants, globals. -/
def emitLeading (c : Context) (b : EmissionOrder) : Lower Unit := do
  b.funcs.forM fun (h, body) => enterPrototype c h body
  b.consts.forM (defineVariable c)
  b.globals.forM (defineVariable c)

mutual

/-- Lowers a statement or declaration; labels are looked through. -/
def statement (c : Context) : Node → Lower Unit
  | .labelled _ _ x => statement c x
  | .expr e => whenLive (discard (valueOf c e))
  | .varDecl d => whenLive (defineVariable c d)
  | .funcDecl h body => whenLive do
    if ((← get).prototypes.lookup h.site.id).isNone then enterPrototype c h body
    fillBody c h body (blockStatements c body)
  | .structDecl d => whenLive (enterStruct c d)
  | .space _ name decls => whenLive do
    let b := emissionOrder c.analysis true decls
    report (.enteredSpace name b.size)
    emitLeading c b
    statementsWhere c (takesTurn c.analysis true) decls
  | .block b => whenLive (blockStatements c b)
  | .ifStmt _ cond yes elifs no => whenLive do
    if elifs.any Elif.isMissing then breach .missingPart
    let done ← openBlock "if.done"
    let first ← conditionalArm c done cond (blockStatements c yes) (otherwiseName elifs no)
    let later ← elifArms c done no elifs
    let last ←
      if no.isMissing then pure false
      else
        blockStatements c no
        branchIfLive done
    closeConditional done (first || later || last)
  | .forStmt _ init cond iter body => whenLive do
    statementsWhere c (fun _ => true) init
    whenLive (forLoop c cond (statementsWhere c (fun _ => true) iter) (blockStatements c body))
  | .whileStmt _ cond body => whenLive (whileLoop c cond (blockStatements c body))
  | .branch site token => whenLive (jump site token)
  | .ret site result => whenLive (leave c site result)
  | .typeRef t => whenLive (misplaced (.typeRef t))
  | .program site files => whenLive (misplaced (.program site files))
  | .file f => whenLive (misplaced (.file f))
  | .elif e => whenLive (misplaced (.elif e))

/-- Lowers the statements of a block. -/
def blockStatements (c : Context) : Block → Lower Unit
  | .missing => breach .missingPart
  | .mk _ stmts => statementsWhere c (fun _ => true) stmts

/-- Lowers in order the statements of a list that are to be kept. -/
def statementsWhere (c : Context) (keep : Node → Bool) : List Node → Lower Unit
  | [] => pure ()
  | n :: ns => do
    if keep n then statement c n
    statementsWhere c keep ns

/-- Lowers the `elif` arms of a conditional; says whether one of them can reach the join. -/
def elifArms (c : Context) (done : Ir.Label) (no : Block) : List Elif → Lower Bool
  | [] => pure false
  | .missing :: _ => breach .missingPart
  | .mk _ cond body :: rest => do
    let first ← conditionalArm c done cond (blockStatements c body) (otherwiseName rest no)
    let later ← elifArms c done no rest
    pure (first || later)

end

end TreeLowering.Lower
