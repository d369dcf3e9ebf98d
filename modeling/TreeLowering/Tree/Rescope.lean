import TreeLowering.Tree.Node

/-!
Moving a node to another scope.
-/
namespace TreeLowering

/-- Changes the site of an expression. -/
def Expr.mapSite (f : Site → Site) : Expr → Expr
  | .absent => .absent
  | .varRef s name step => .varRef (f s) name step
  | .structLit s name args => .structLit (f s) name args
  | .call s name args => .call (f s) name args
  | .arrayLit s elems => .arrayLit (f s) elems
  | .arrayAlloc s length elem => .arrayAlloc (f s) length elem
  | .selector s x field arrow => .selector (f s) x field arrow
  | .index s x i => .index (f s) x i
  | .assign s target value => .assign (f s) target value
  | .binary s op x y => .binary (f s) op x y
  | .unary s op x => .unary (f s) op x
  | .cast s x target => .cast (f s) x target
  | .intLit s value => .intLit (f s) value
  | .floatLit s bits => .floatLit (f s) bits
  | .boolLit s value => .boolLit (f s) value
  | .stringLit s value => .stringLit (f s) value

/-- Changes the sites of a node and of the labels around it; what lies below keeps its own. -/
def Node.mapSite (f : Site → Site) : Node → Node
  | .labelled s label x => .labelled (f s) label (x.mapSite f)
  | .expr e => .expr (e.mapSite f)
  | .typeRef t => .typeRef (t.map fun t => { t with site := f t.site })
  | .program s files => .program (f s) files
  | .file .missing => .file .missing
  | .file (.mk s decls) => .file (.mk (f s) decls)
  | .space s name decls => .space (f s) name decls
  | .varDecl d => .varDecl { d with site := f d.site }
  | .funcDecl h body => .funcDecl { h with site := f h.site } body
  | .structDecl d => .structDecl { d with site := f d.site }
  | .block .missing => .block .missing
  | .block (.mk s stmts) => .block (.mk (f s) stmts)
  | .ifStmt s cond yes elifs no => .ifStmt (f s) cond yes elifs no
  | .elif .missing => .elif .missing
  | .elif (.mk s cond body) => .elif (.mk (f s) cond body)
  | .forStmt s init cond iter body => .forStmt (f s) init cond iter body
  | .whileStmt s cond body => .whileStmt (f s) cond body
  | .branch s token => .branch (f s) token
  | .ret s result => .ret (f s) result

/-- Moves the node with an identity to a scope, where that is this node or one under its labels. -/
def Node.rescope (id : NodeId) (scope : Option ScopeId) (n : Node) : Node :=
  n.mapSite fun s => if s.id = id then { s with scope } else s

end TreeLowering
