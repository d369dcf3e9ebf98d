import TreeLowering.Ir.Constant

/-!
The text of a module. Results and parameters without a name are numbered function by function as the
functions are printed; a reference into a function that is printed later shows the number zero.
-/
namespace TreeLowering.Ir

/-! ## Mnemonics -/

/-- The name of an operation. -/
def Arith.text : Arith → String
  | .add => "add" | .sub => "sub" | .mul => "mul"
  | .udiv => "udiv" | .sdiv => "sdiv" | .urem => "urem" | .srem => "srem"
  | .shl => "shl" | .lshr => "lshr" | .ashr => "ashr"
  | .and => "and" | .or => "or" | .xor => "xor"
  | .fadd => "fadd" | .fsub => "fsub" | .fmul => "fmul" | .fdiv => "fdiv" | .frem => "frem"

/-- The name of an integer comparison. -/
def IntPred.text : IntPred → String
  | .eq => "eq" | .ne => "ne"
  | .ugt => "ugt" | .uge => "uge" | .ult => "ult" | .ule => "ule"
  | .sgt => "sgt" | .sge => "sge" | .slt => "slt" | .sle => "sle"

/-- The name of a floating-point comparison. -/
def FloatPred.text : FloatPred → String
  | .oeq => "oeq" | .une => "une" | .ogt => "ogt" | .olt => "olt" | .oge => "oge" | .ole => "ole"

/-- The name of a conversion. -/
def Conv.text : Conv → String
  | .trunc => "trunc" | .zext => "zext" | .sext => "sext"
  | .fptoui => "fptoui" | .fptosi => "fptosi" | .uitofp => "uitofp" | .sitofp => "sitofp"
  | .fptrunc => "fptrunc" | .fpext => "fpext"
  | .ptrtoint => "ptrtoint" | .inttoptr => "inttoptr" | .bitcast => "bitcast"

/-! ## Numbers for what has no name -/

/-- How many parameters without a name come before an index. -/
def unnamedBefore (params : List (String × Ty)) (index : Nat) : Nat :=
  ((params.take index).filter fun p => p.1 = "").length

/-- The identities of the instructions whose results get numbers, in the order of printing. -/
def Function.numberedLines (f : Function) : List Nat :=
  f.blocks.flatMap fun b =>
    (b.lines.filter fun l => !l.type.isVoid).map Line.id

/-- The numbers of results in a function, by instruction. -/
def Function.numbering (f : Function) : List (Nat × Nat) :=
  f.numberedLines.zipIdx (unnamedBefore f.params f.params.length)

/-- The identifiers of globals or functions; those without a name are numbered from `start`. -/
def globalIdents (start : Nat) : List String → List String
  | [] => []
  | name :: rest =>
    if name = "" then ("@" ++ toString start) :: globalIdents (start + 1) rest
    else ("@" ++ identText name) :: globalIdents start rest

/-- What printing a function of a module needs to know. -/
structure Context where
  types : Array TypeDef
  globals : Array String
  funcs : Array String
  params : Array (List (String × Ty))
  numbers : Array (List (Nat × Nat))
  /-- The function being printed. -/
  current : FuncId := 0

/-- The context for a module. -/
def Module.context (m : Module) : Context :=
  let names := m.globals.toList.map Global.name
  let unnamed := (names.filter fun name => name = "").length
  { types := m.types
    globals := (globalIdents 0 names).toArray
    funcs := (globalIdents unnamed (m.funcs.toList.map Function.name)).toArray
    params := m.funcs.map Function.params
    numbers := m.funcs.map Function.numbering }

namespace Context

/-- The written form of a type. -/
def type (c : Context) (t : Ty) : String := typeText c.types t

/-- The identifier of a result; functions after the current one have no numbers yet. -/
def result (c : Context) (fn : FuncId) (id : Nat) : String :=
  let number := if fn ≤ c.current then (c.numbers[fn]?.bind fun ns => ns.lookup id) else none
  "%" ++ toString (number.getD 0)

/-- The identifier of a parameter. -/
def param (c : Context) (fn : FuncId) (index : Nat) : String :=
  let params := (c.params[fn]?).getD []
  match params[index]? with
  | some (name, _) =>
    if name = "" then "%" ++ toString (unnamedBefore params index) else "%" ++ identText name
  | none => "%0"

/-- A value without its type. -/
def ident (c : Context) : Value → Except Breach String
  | .int w x => intText w x
  | .float k x => .ok (floatText k x)
  | .null _ => .ok "null"
  | .zero _ => .ok "zeroinitializer"
  | .chars bytes => .ok ("c" ++ quotedBytes bytes)
  | .firstChar g n =>
    let array := "[" ++ toString n ++ " x i8]"
    .ok ("getelementptr (" ++ array ++ ", " ++ array ++ "* " ++ (c.globals[g]?).getD "" ++
      ", i32 0, i32 0)")
  | .global g _ => .ok ((c.globals[g]?).getD "")
  | .func f _ _ => .ok ((c.funcs[f]?).getD "")
  | .param fn index _ => .ok (c.param fn index)
  | .computed fn id _ => .ok (c.result fn id)

/-- A value with its type. -/
def value (c : Context) (v : Value) : Except Breach String :=
  (c.ident v).map fun text => c.type v.type ++ " " ++ text

/-- A value with its type where the text goes on even if the value cannot be written: the breach is
    then shown in its place. -/
def shown (c : Context) (v : Value) : String := shownInMessage (c.value v)

/-- Two operands after the type of the first. The first is shown in any case, the second must be
    written. -/
def operands (c : Context) (x y : Value) : Except Breach String :=
  (c.ident y).map fun y' => c.shown x ++ ", " ++ y'

/-- A block as a target. -/
def label (l : Label) : String := "%" ++ identText l.name

/-- An instruction without the name of its result. Second operands, incoming values and arguments
    must be written; all other operands are shown in any case. -/
def inst (c : Context) : Inst → Except Breach String
  | .alloca t none => .ok ("alloca " ++ c.type t)
  | .alloca t (some n) => .ok ("alloca " ++ c.type t ++ ", " ++ c.shown n)
  | .load t p => .ok ("load " ++ c.type t ++ ", " ++ c.shown p)
  | .store v p => .ok ("store " ++ c.shown v ++ ", " ++ c.shown p)
  | .address t base indices =>
    .ok ("getelementptr " ++ c.type t ++ ", " ++
      String.intercalate ", " ((base :: indices).map c.shown))
  | .extractData v => .ok ("extractvalue " ++ c.shown v ++ ", 1")
  | .arith op x y => (c.operands x y).map fun xy => op.text ++ " " ++ xy
  | .fneg x => .ok ("fneg " ++ c.shown x)
  | .icmp pred x y => (c.operands x y).map fun xy => "icmp " ++ pred.text ++ " " ++ xy
  | .fcmp pred x y => (c.operands x y).map fun xy => "fcmp " ++ pred.text ++ " " ++ xy
  | .conv op x target => .ok (op.text ++ " " ++ c.shown x ++ " to " ++ c.type target)
  | .phi incoming => do
    let arms ← incoming.mapM fun (v, l) =>
      (c.ident v).map fun v' => "[ " ++ v' ++ ", " ++ label l ++ " ]"
    let type := (incoming.head?.map fun (v, _) => v.type).getD .void
    .ok ("phi " ++ c.type type ++ " " ++ String.intercalate ", " arms)
  | .call callee args => do
    let callee' ← c.ident callee
    let args' ← args.mapM c.value
    let result := (callee.type.signature?.map Prod.fst).getD .void
    .ok ("call " ++ c.type result ++ " " ++ callee' ++ "(" ++ String.intercalate ", " args' ++ ")")

/-- Whether an instruction names its result: a store never, a call unless its result is void. -/
def namesResult (l : Line) : Bool :=
  match l.inst with
  | .store _ _ => false
  | .call _ _ => !l.type.isVoid
  | _ => true

/-- An instruction on its line. -/
def line (c : Context) (l : Line) : Except Breach String :=
  (c.inst l.inst).map fun text =>
    if namesResult l then "\t" ++ c.result c.current l.id ++ " = " ++ text ++ "\n"
    else "\t" ++ text ++ "\n"

/-- A terminator. -/
def term (c : Context) : Term → String
  | .ret none => "ret void"
  | .ret (some v) => "ret " ++ c.shown v
  | .br l => "br label " ++ label l
  | .condBr cond yes no =>
    "br " ++ c.shown cond ++ ", label " ++ label yes ++ ", label " ++ label no
  | .unreachable => "unreachable"

/-- A block; one without a terminator cannot be printed. -/
def block (c : Context) (b : Block) : Except Breach String := do
  let lines ← b.lines.mapM c.line
  let term ← match b.term with
    | some t => .ok (c.term t)
    | none => .error .missingPart
  .ok (identText b.label.name ++ ":\n" ++ String.join lines ++ "\t" ++ term ++ "\n")

/-- The parameters of a function. -/
def paramList (c : Context) (fn : FuncId) (params : List (String × Ty)) : String :=
  String.intercalate ", "
    (params.zipIdx.map fun ((_, t), i) => c.type t ++ " " ++ c.param fn i)

/-- A function. -/
def function (c : Context) (fn : FuncId) (f : Function) : Except Breach String := do
  let c := { c with current := fn }
  let header := (if f.isExported then " dllexport " else " ") ++ c.type f.result ++ " " ++
    (c.funcs[fn]?).getD "" ++ "(" ++ c.paramList fn f.params ++ ")"
  match f.blocks with
  | [] => .ok ("declare" ++ header ++ "\n")
  | blocks =>
    let texts ← blocks.mapM c.block
    .ok ("define" ++ header ++ " \x7b\n" ++ String.intercalate "\n" texts ++ "\x7d\n")

/-- A global. -/
def globalLine (c : Context) (g : Global) (ident : String) : Except Breach String := do
  let init ← c.ident g.init
  .ok (ident ++ " = " ++ (if g.isPrivate then "private " else "") ++
    (if g.isImmutable then "constant " else "global ") ++ c.type g.content ++ " " ++ init ++ "\n")

/-- A type definition. -/
def typeLine (c : Context) (index : Nat) (d : TypeDef) : String :=
  c.type (.defined index d.name) ++ " = type " ++ c.type (.struct d.fields) ++ "\n"

end Context

/-- The line with the target of a module. -/
def tripleText (triple : String) : String :=
  if triple = "" then "" else "target triple = " ++ quotedBytes triple ++ "\n"

/-- Groups of text with an empty line between those that are not empty. -/
def separated (groups : List String) : String :=
  String.intercalate "\n" (groups.filter (· ≠ ""))

/-- The text of a module. -/
def Module.print (m : Module) : Except Breach String := do
  let c := m.context
  let types := m.types.toList.zipIdx.map fun (d, i) => c.typeLine i d
  let globals ← (m.globals.toList.zip c.globals.toList).mapM fun (g, ident) => c.globalLine g ident
  let funcs ← m.funcs.toList.zipIdx.mapM fun (f, i) => c.function i f
  .ok (separated [tripleText m.triple, String.join types, String.join globals,
    String.intercalate "\n" funcs])

end TreeLowering.Ir
