import TreeLowering.Number.Binary64
import TreeLowering.Tree.Node

/-!
Short renderings of single nodes, for dumps and diagnostics. A rendering does not include the
children of the node.
-/
namespace TreeLowering

/-- A type reference as written: the name, `[]` for an array, a star per pointer level. -/
def TypeRef.describe (t : TypeRef) : Except Breach Bytes :=
  if t.depth < 0 then .error .negativeDepth
  else
    let base := if t.isArray then t.name ++ "[]" else t.name
    .ok (utf8 (base ++ String.ofList (List.replicate t.depth.toNat '*')))

/-- The rendering of a slot for a type reference. -/
def describeTypeSlot : Option TypeRef → Except Breach Bytes
  | some t => t.describe
  | none => .error .missingPart

namespace Expr

/-- The rendering of an expression. -/
def describe : Expr → Except Breach Bytes
  | .absent => .error .emptySlot
  | .varRef _ name step =>
    match step with
    | .known .none => .ok name
    | .known .preInc => .ok (utf8 ("++" ++ name))
    | .known .preDec => .ok (utf8 ("--" ++ name))
    | .known .postInc => .ok (utf8 (name ++ "++"))
    | .known .postDec => .ok (utf8 (name ++ "--"))
    | .unknown code => .error (.describedTag code name)
  | .structLit _ name _ => .ok (utf8 (name ++ "\x7b \x7d"))
  | .call _ name _ => .ok (utf8 (name ++ "()"))
  | .arrayLit _ _ => .ok (utf8 "[]")
  | .arrayAlloc _ length _ => .ok (utf8 ("[" ++ toString length.toInt ++ "]"))
  | .selector _ _ field arrow => .ok (utf8 ((if arrow then "->" else ".") ++ field))
  | .index _ _ _ => .ok (utf8 "[]")
  | .assign _ _ _ => .ok (utf8 " = ")
  | .binary _ op _ _ => (BinaryOp.codedText op).map utf8
  | .unary _ op _ => (UnaryOp.codedText op).map utf8
  | .cast _ _ target => (describeTypeSlot target).map fun t => utf8 "(" ++ t ++ utf8 ")"
  | .intLit _ value => .ok (utf8 (toString value.toInt))
  | .floatLit _ bits => .ok (utf8 (Binary64.ofBits bits).fixed2)
  | .boolLit _ value => .ok (utf8 (if value then "true" else "false"))
  | .stringLit _ value => .ok value

/-- The kind of an expression; an empty slot has none. -/
def kind : Expr → String
  | .absent => "<nil>"
  | .varRef _ _ _ => "VarRef"
  | .structLit _ _ _ => "StructLit"
  | .call _ _ _ => "CallExpr"
  | .arrayLit _ _ => "ArrayLit"
  | .arrayAlloc _ _ _ => "ArrayAlloc"
  | .selector _ _ _ _ => "SelectorExpr"
  | .index _ _ _ => "IndexExpr"
  | .assign _ _ _ => "AssignExpr"
  | .binary _ _ _ _ => "BinaryExpr"
  | .unary _ _ _ => "UnaryExpr"
  | .cast _ _ _ => "CastExpr"
  | .intLit _ _ => "IntLit"
  | .floatLit _ _ => "FloatLit"
  | .boolLit _ _ => "BoolLit"
  | .stringLit _ _ => "StringLit"

end Expr

namespace Node

/-- The rendering of a node; a label adds nothing to it. -/
def describe : Node → Except Breach Bytes
  | .labelled _ _ x => x.describe
  | .expr e => e.describe
  | .typeRef t => describeTypeSlot t
  | .program _ _ => .ok (utf8 "program")
  | .file _ => .ok (utf8 "file")
  | .space _ name _ => .ok (utf8 ("mod " ++ name))
  | .block _ => .ok (utf8 "block")
  | .ifStmt _ _ _ _ _ => .ok (utf8 "if")
  | .elif _ => .ok (utf8 "elif")
  | .forStmt _ _ _ _ _ => .ok (utf8 "for")
  | .whileStmt _ _ _ => .ok (utf8 "while")
  | .varDecl d =>
    .ok (utf8 ((if d.token = .known .varWord then "var " else "let ") ++ d.name ++ " = "))
  | .funcDecl h _ => .ok (utf8 ((if h.isExternal then "extern " else "") ++ h.name ++ "(...)"))
  | .structDecl d => .ok (utf8 (d.name ++ " = struct \x7b \x7d"))
  | .branch _ token => .ok (utf8 (Token.text token))
  | .ret _ _ => .ok (utf8 "return")

/-- The kind of a node. -/
def kind : Node → String
  | .labelled _ _ _ => "Annotated"
  | .expr e => e.kind
  | .typeRef _ => "TypeRef"
  | .program _ _ => "Program"
  | .file _ => "File"
  | .space _ _ _ => "Namespace"
  | .block _ => "BlockStmt"
  | .ifStmt _ _ _ _ _ => "IfStmt"
  | .elif _ => "ElifClause"
  | .forStmt _ _ _ _ _ => "ForStmt"
  | .whileStmt _ _ _ => "WhileStmt"
  | .varDecl _ => "VarDecl"
  | .funcDecl _ _ => "FuncDecl"
  | .structDecl _ => "StructDecl"
  | .branch _ _ => "BranchStmt"
  | .ret _ _ => "ReturnStmt"

/-- What a dump shows of one node. -/
structure Line where
  label : Option String
  kind : String
  text : Bytes
  position : Position

/-- The line of a node: its label, the kind under the labels, its rendering, its position. -/
def line (n : Node) : Except Breach Line := do
  let text ← n.describe
  match n.position? with
  | some p => .ok ⟨n.label?, n.unwrap.kind, text, p⟩
  | none => .error .missingPart

end Node

end TreeLowering
