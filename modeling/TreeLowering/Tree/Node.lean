import TreeLowering.Source.Operator
import TreeLowering.Text.Bytes

/-!
The syntax tree.

Expressions are a type of their own (`Expr`); declarations and statements (`Node`) hold expressions
and blocks. A slot of the tree can be empty: `Expr.absent` where an expression is expected (it is
also the empty entry of a list of nodes), the `missing` constructors where a block, an `elif` arm or
a file is expected, and `none` where a type reference is. Labels are transparent wrappers that name
a child for display.
-/
namespace TreeLowering

/-- Identity of a node; two occurrences of one node share it. -/
abbrev NodeId := Nat

/-- Identity of a scope. -/
abbrev ScopeId := Nat

/-- Where a node stands. -/
structure Site where
  /-- The node's identity. -/
  id : NodeId
  /-- Position of the token the node was built from. -/
  position : Position := {}
  /-- Lexical scope the node was read in, if known. -/
  scope : Option ScopeId := none
deriving DecidableEq, Repr, Inhabited

/-- A type as written in source: a name, perhaps as an array, below some pointer levels. -/
structure TypeRef where
  site : Site
  name : String
  isArray : Bool := false
  depth : Int := 0
deriving DecidableEq, Repr, Inhabited

/-- Expressions. -/
inductive Expr where
  /-- The empty slot. -/
  | absent
  /-- A variable or function, perhaps stepped before or after it is read. -/
  | varRef (site : Site) (name : String) (step : Coded Step)
  /-- A struct value from its fields in order. -/
  | structLit (site : Site) (name : String) (args : List Expr)
  /-- A call of the function bound to a name. -/
  | call (site : Site) (name : String) (args : List Expr)
  /-- An array from its elements. -/
  | arrayLit (site : Site) (elems : List Expr)
  /-- An array of a given length with unspecified elements. -/
  | arrayAlloc (site : Site) (length : Int64) (elem : Option TypeRef)
  /-- A field: `x.field`, or `x->field` with the arrow. -/
  | selector (site : Site) (x : Expr) (field : String) (arrow : Bool)
  /-- An element: `x[index]`. -/
  | index (site : Site) (x index : Expr)
  /-- An assignment: `target = value`. -/
  | assign (site : Site) (target value : Expr)
  /-- An operator between two operands: `x op y`. -/
  | binary (site : Site) (op : Coded BinaryOp) (x y : Expr)
  /-- An operator before its operand: `op x`. -/
  | unary (site : Site) (op : Coded UnaryOp) (x : Expr)
  /-- A conversion: `(target) x`. -/
  | cast (site : Site) (x : Expr) (target : Option TypeRef)
  | intLit (site : Site) (value : Int64)
  /-- A double by its bits. -/
  | floatLit (site : Site) (bits : UInt64)
  | boolLit (site : Site) (value : Bool)
  /-- A string by its bytes, escapes resolved. -/
  | stringLit (site : Site) (value : Bytes)
deriving Inhabited

/-- A named slot with a type: a parameter or a struct field. -/
abbrev TypedName := String × Option TypeRef

/-- A variable definition. -/
structure VarDecl where
  site : Site
  /-- The word `let` or `var`, for display only. -/
  token : Token
  name : String
  /-- The declared type, if one was written. -/
  type : Option TypeRef := none
  /-- The initializer. -/
  value : Expr := .absent
deriving Inhabited

/-- A function definition without its body. -/
structure FuncHead where
  site : Site
  name : String
  /-- Name of the symbol if it is not `name`. -/
  externalName : String := ""
  params : List TypedName := []
  /-- The result type, if one was written. -/
  result : Option TypeRef := none
  isExternal : Bool := false
  /-- Only declares a signature; no symbol exists. -/
  isTypeDecl : Bool := false
  /-- Attributes written in source. -/
  attributes : List String := []
deriving Inhabited

/-- The name of the function's symbol. -/
def FuncHead.symbol (h : FuncHead) : String :=
  if h.externalName = "" then h.name else h.externalName

/-- A struct definition. -/
structure StructDecl where
  site : Site
  name : String
  fields : List TypedName := []
deriving Inhabited

mutual

/-- Declarations, statements and the roots of trees. -/
inductive Node where
  | expr (e : Expr)
  | typeRef (t : Option TypeRef)
  /-- A child under a name for display; all else is the child's. -/
  | labelled (site : Site) (label : String) (x : Node)
  | program (site : Site) (files : List File)
  | file (f : File)
  /-- A named group of declarations. -/
  | space (site : Site) (name : String) (decls : List Node)
  | varDecl (d : VarDecl)
  | funcDecl (head : FuncHead) (body : Block)
  | structDecl (d : StructDecl)
  | block (b : Block)
  | ifStmt (site : Site) (cond : Expr) (yes : Block) (elifs : List Elif) (no : Block)
  | elif (e : Elif)
  /-- The loop `for (init; cond; iter) body`; an absent condition loops forever. -/
  | forStmt (site : Site) (init : List Node) (cond : Expr) (iter : List Node) (body : Block)
  | whileStmt (site : Site) (cond : Expr) (body : Block)
  /-- A jump: `break` or `continue`. -/
  | branch (site : Site) (token : Token)
  | ret (site : Site) (result : Expr)

/-- A list of statements. -/
inductive Block where
  | missing
  | mk (site : Site) (stmts : List Node)

/-- One `elif` arm. -/
inductive Elif where
  | missing
  | mk (site : Site) (cond : Expr) (body : Block)

/-- The root of one source file. -/
inductive File where
  | missing
  | mk (site : Site) (decls : List Node)

end

instance : Inhabited Node := ⟨.expr .absent⟩
instance : Inhabited Block := ⟨.missing⟩
instance : Inhabited Elif := ⟨.missing⟩
instance : Inhabited File := ⟨.missing⟩

/-! ## Parts -/

/-- Whether the slot is empty. -/
def Expr.isAbsent : Expr → Bool
  | .absent => true
  | _ => false

/-- Where an expression stands; an empty slot stands nowhere. -/
def Expr.site? : Expr → Option Site
  | .absent => none
  | .varRef s _ _ | .structLit s _ _ | .call s _ _ | .arrayLit s _ | .arrayAlloc s _ _
  | .selector s _ _ _ | .index s _ _ | .assign s _ _ | .binary s _ _ _ | .unary s _ _
  | .cast s _ _ | .intLit s _ | .floatLit s _ | .boolLit s _ | .stringLit s _ => some s

/-- The statements of a block. -/
def Block.stmts : Block → List Node
  | .missing => []
  | .mk _ stmts => stmts

/-- Where a block stands. -/
def Block.site? : Block → Option Site
  | .missing => none
  | .mk s _ => some s

/-- Whether the slot for a block is empty. -/
def Block.isMissing : Block → Bool
  | .missing => true
  | .mk _ _ => false

/-- Where an arm stands. -/
def Elif.site? : Elif → Option Site
  | .missing => none
  | .mk s _ _ => some s

/-- Whether the slot for an arm is empty. -/
def Elif.isMissing : Elif → Bool
  | .missing => true
  | .mk _ _ _ => false

/-- The declarations of a file. -/
def File.decls : File → List Node
  | .missing => []
  | .mk _ decls => decls

/-- Where a file stands. -/
def File.site? : File → Option Site
  | .missing => none
  | .mk s _ => some s

/-- Whether a function has a body to lower. -/
def FuncHead.hasBody (h : FuncHead) (body : Block) : Bool := !h.isExternal && !body.isMissing

namespace Node

/-- The empty entry of a list of nodes. -/
abbrev absent : Node := .expr .absent

/-- Whether the node is the empty entry. -/
def isAbsent : Node → Bool
  | .expr e => e.isAbsent
  | _ => false

/-- The node under any labels. -/
def unwrap : Node → Node
  | .labelled _ _ x => x.unwrap
  | n => n

/-- The label of a labelled node. -/
def label? : Node → Option String
  | .labelled _ label _ => some label
  | _ => none

/-- The site of the node itself, labels included; empty slots have none. -/
def site? : Node → Option Site
  | .expr e => e.site?
  | .typeRef t => t.map TypeRef.site
  | .labelled s _ _ | .program s _ | .space s _ _ | .ifStmt s _ _ _ _ | .forStmt s _ _ _ _
  | .whileStmt s _ _ | .branch s _ | .ret s _ => some s
  | .file f => f.site?
  | .varDecl d => some d.site
  | .funcDecl h _ => some h.site
  | .structDecl d => some d.site
  | .block b => b.site?
  | .elif e => e.site?

/-- The position of a node; a label has the position of what it names. -/
def position? (n : Node) : Option Position := n.unwrap.site?.map Site.position

end Node

end TreeLowering
