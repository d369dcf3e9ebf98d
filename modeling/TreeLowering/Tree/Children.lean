import TreeLowering.Tree.Node

/-!
The children of a node in display order, some of them under a label.

A label weighs nothing and every child weighs less than its parent
(`Node.weight_lt_of_mem_children`), so following children ends.
-/
namespace TreeLowering

/-- The slot for an expression as a node. -/
def Expr.labelledNode (site : Site) (label : String) (e : Expr) : Node :=
  .labelled site label (.expr e)

/-- The children of an expression. -/
def Expr.children : Expr → List Node
  | .absent => []
  | .structLit _ _ args => args.map .expr
  | .call _ _ args => args.map .expr
  | .arrayLit site elems =>
    elems.zipIdx.map fun (e, i) => e.labelledNode site ("elem_" ++ toString i)
  | .arrayAlloc _ _ elem => [.typeRef elem]
  | .selector _ x _ _ => [.expr x]
  | .index site x i => [x.labelledNode site "array", i.labelledNode site "index"]
  | .assign site target value =>
    [target.labelledNode site "target", value.labelledNode site "expression"]
  | .binary _ _ x y => [.expr x, .expr y]
  | .unary _ _ x => [.expr x]
  | .cast _ x target => [.expr x, .typeRef target]
  | .varRef _ _ _ | .intLit _ _ | .floatLit _ _ | .boolLit _ _ | .stringLit _ _ => []

/-- The slots of a list of typed names, each under its name. -/
def typedNameNodes (site : Site) (names : List TypedName) : List Node :=
  names.map fun (name, type) => .labelled site name (.typeRef type)

/-- A list of nodes, each under a label with its number from one. -/
def numberedNodes (site : Site) (label : String) (nodes : List Node) : List Node :=
  nodes.zipIdx.map fun (n, i) => .labelled site (label ++ toString (i + 1)) n

/-- A written type under a label, nothing if none was written. -/
def typeNodes (site : Site) (label : String) : Option TypeRef → List Node
  | some t => [.labelled site label (.typeRef (some t))]
  | none => []

/-- The children of a node in display order. -/
def Node.children : Node → List Node
  | .labelled _ _ x => x.children
  | .expr e => e.children
  | .typeRef _ => []
  | .program _ files => files.map .file
  | .file f => f.decls
  | .space _ _ decls => decls
  | .block b => b.stmts
  | .ifStmt site cond yes elifs no =>
    [cond.labelledNode site "condition", .labelled site "then" (.block yes)] ++
      elifs.map (fun e => .labelled site "elif" (.elif e)) ++
      (if no.isMissing then [] else [.labelled site "else" (.block no)])
  | .elif .missing => []
  | .elif (.mk site cond body) => [cond.labelledNode site "condition", .block body]
  | .forStmt site init cond iter body =>
    numberedNodes site "init_" init ++
      (if cond.isAbsent then [] else [cond.labelledNode site "condition"]) ++
      numberedNodes site "iter_" iter ++ [.labelled site "body" (.block body)]
  | .whileStmt site cond body =>
    [cond.labelledNode site "condition", .labelled site "body" (.block body)]
  | .varDecl d =>
    (if d.value.isAbsent then [] else [.expr d.value]) ++ typeNodes d.site "type" d.type
  | .funcDecl h body =>
    (if h.hasBody body then [.block body] else []) ++ typedNameNodes h.site h.params ++
      typeNodes h.site "return" h.result
  | .structDecl d => typedNameNodes d.site d.fields
  | .branch _ _ => []
  | .ret _ result => if result.isAbsent then [] else [.expr result]

/-! ## Weights -/

mutual

/-- The number of nodes below and at an expression. -/
def Expr.weight : Expr → Nat
  | .absent => 1
  | .varRef _ _ _ | .intLit _ _ | .floatLit _ _ | .boolLit _ _ | .stringLit _ _ => 1
  | .structLit _ _ args => 1 + Expr.weights args
  | .call _ _ args => 1 + Expr.weights args
  | .arrayLit _ elems => 1 + Expr.weights elems
  | .arrayAlloc _ _ _ => 2
  | .selector _ x _ _ => 1 + x.weight
  | .index _ x i => 1 + x.weight + i.weight
  | .assign _ target value => 1 + target.weight + value.weight
  | .binary _ _ x y => 1 + x.weight + y.weight
  | .unary _ _ x => 1 + x.weight
  | .cast _ x _ => 2 + x.weight

/-- The weight of a list of expressions. -/
def Expr.weights : List Expr → Nat
  | [] => 0
  | e :: es => e.weight + Expr.weights es

end

mutual

/-- The number of nodes below and at a node; a label weighs nothing. -/
def Node.weight : Node → Nat
  | .labelled _ _ x => x.weight
  | .expr e => e.weight
  | .typeRef _ => 1
  | .program _ files => 1 + File.weights files
  | .file f => f.weight
  | .space _ _ decls => 1 + Node.weights decls
  | .block b => b.weight
  | .ifStmt _ cond yes elifs no =>
    1 + cond.weight + yes.weight + Elif.weights elifs + no.weight
  | .elif e => e.weight
  | .forStmt _ init cond iter body =>
    1 + Node.weights init + cond.weight + Node.weights iter + body.weight
  | .whileStmt _ cond body => 1 + cond.weight + body.weight
  | .varDecl d => 2 + d.value.weight
  | .funcDecl _ body => 2 + body.weight
  | .structDecl _ => 2
  | .branch _ _ => 1
  | .ret _ result => 1 + result.weight

/-- The weight of a block. -/
def Block.weight : Block → Nat
  | .missing => 1
  | .mk _ stmts => 1 + Node.weights stmts

/-- The weight of an arm. -/
def Elif.weight : Elif → Nat
  | .missing => 1
  | .mk _ cond body => 1 + cond.weight + body.weight

/-- The weight of a file. -/
def File.weight : File → Nat
  | .missing => 1
  | .mk _ decls => 1 + Node.weights decls

/-- The weight of a list of nodes. -/
def Node.weights : List Node → Nat
  | [] => 0
  | n :: ns => n.weight + Node.weights ns

/-- The weight of a list of arms. -/
def Elif.weights : List Elif → Nat
  | [] => 0
  | e :: es => e.weight + Elif.weights es

/-- The weight of a list of files. -/
def File.weights : List File → Nat
  | [] => 0
  | f :: fs => f.weight + File.weights fs

end

theorem Expr.weight_le_weights {e : Expr} {es : List Expr} (h : e ∈ es) :
    e.weight ≤ Expr.weights es := by
  induction es with
  | nil => cases h
  | cons x xs ih =>
    simp only [Expr.weights]
    rcases List.mem_cons.1 h with rfl | h
    · omega
    · have := ih h; omega

theorem Node.weight_le_weights {n : Node} {ns : List Node} (h : n ∈ ns) :
    n.weight ≤ Node.weights ns := by
  induction ns with
  | nil => cases h
  | cons x xs ih =>
    simp only [Node.weights]
    rcases List.mem_cons.1 h with rfl | h
    · omega
    · have := ih h; omega

theorem Elif.weight_le_weights {e : Elif} {es : List Elif} (h : e ∈ es) :
    e.weight ≤ Elif.weights es := by
  induction es with
  | nil => cases h
  | cons x xs ih =>
    simp only [Elif.weights]
    rcases List.mem_cons.1 h with rfl | h
    · omega
    · have := ih h; omega

theorem File.weight_le_weights {f : File} {fs : List File} (h : f ∈ fs) :
    f.weight ≤ File.weights fs := by
  induction fs with
  | nil => cases h
  | cons x xs ih =>
    simp only [File.weights]
    rcases List.mem_cons.1 h with rfl | h
    · omega
    · have := ih h; omega

theorem Expr.weight_pos (e : Expr) : 0 < e.weight := by
  cases e <;> simp only [Expr.weight] <;> omega

theorem Block.weight_pos (b : Block) : 0 < b.weight := by
  cases b <;> simp only [Block.weight] <;> omega

theorem weight_of_mem_typedNameNodes {site : Site} {names : List TypedName} {c : Node}
    (h : c ∈ typedNameNodes site names) : c.weight = 1 := by
  simp only [typedNameNodes, List.mem_map] at h
  obtain ⟨p, _, rfl⟩ := h
  simp [Node.weight]

theorem weight_of_mem_typeNodes {site : Site} {label : String} {t : Option TypeRef} {c : Node}
    (h : c ∈ typeNodes site label t) : c.weight = 1 := by
  cases t <;> simp [typeNodes] at h
  simp [h, Node.weight]

theorem weight_le_of_mem_numberedNodes {site : Site} {label : String} {nodes : List Node}
    {c : Node} (h : c ∈ numberedNodes site label nodes) : c.weight ≤ Node.weights nodes := by
  simp only [numberedNodes, List.mem_map] at h
  obtain ⟨p, hp, rfl⟩ := h
  simp only [Node.weight]
  exact Node.weight_le_weights (List.fst_mem_of_mem_zipIdx hp)

/-- Every child of an expression weighs less than the expression. -/
theorem Expr.weight_lt_of_mem_children {e : Expr} {c : Node} (h : c ∈ e.children) :
    c.weight < e.weight := by
  cases e with
  | structLit | call =>
    simp only [Expr.children, List.mem_map] at h
    obtain ⟨a, ha, rfl⟩ := h
    have := Expr.weight_le_weights ha
    simp only [Node.weight, Expr.weight]; omega
  | arrayLit site elems =>
    simp only [Expr.children, List.mem_map] at h
    obtain ⟨p, hp, rfl⟩ := h
    have := Expr.weight_le_weights (List.fst_mem_of_mem_zipIdx hp)
    simp only [Expr.labelledNode, Node.weight, Expr.weight]; omega
  | index | assign | binary | cast =>
    simp only [Expr.children, Expr.labelledNode, List.mem_cons, List.not_mem_nil, or_false] at h
    rcases h with rfl | rfl <;> simp only [Node.weight, Expr.weight] <;> omega
  | arrayAlloc | selector | unary =>
    simp only [Expr.children, List.mem_cons, List.not_mem_nil, or_false] at h
    subst h
    simp only [Node.weight, Expr.weight]; omega
  | _ => simp [Expr.children] at h

theorem Block.weights_stmts_lt (b : Block) : Node.weights b.stmts < b.weight := by
  cases b <;> simp only [Block.stmts, Block.weight, Node.weights] <;> omega

theorem File.weights_decls_lt (f : File) : Node.weights f.decls < f.weight := by
  cases f <;> simp only [File.decls, File.weight, Node.weights] <;> omega

/-- Every child of a node weighs less than the node. -/
theorem Node.weight_lt_of_mem_children {n c : Node} (h : c ∈ n.children) :
    c.weight < n.weight := by
  fun_induction Node.children n with
  | case1 _ _ x ih => simpa only [Node.weight] using ih h
  | case2 e => simpa only [Node.weight] using Expr.weight_lt_of_mem_children h
  | case3 => cases h
  | case4 _ files =>
    obtain ⟨f, hf, rfl⟩ := List.mem_map.1 h
    have := File.weight_le_weights hf
    simp only [Node.weight]; omega
  | case5 f =>
    have := Node.weight_le_weights h
    have := f.weights_decls_lt
    simp only [Node.weight]; omega
  | case6 =>
    have := Node.weight_le_weights h
    simp only [Node.weight]; omega
  | case7 b =>
    have := Node.weight_le_weights h
    have := b.weights_stmts_lt
    simp only [Node.weight]; omega
  | case8 site cond yes elifs no =>
    have hyes := yes.weight_pos
    have hcond := cond.weight_pos
    simp only [Expr.labelledNode, List.cons_append, List.nil_append, List.mem_cons,
      List.mem_append, List.mem_map] at h
    rcases h with rfl | rfl | ⟨e, he, rfl⟩ | h
    · simp only [Node.weight]; omega
    · simp only [Node.weight]; omega
    · have := Elif.weight_le_weights he
      simp only [Node.weight]; omega
    · split at h
      · cases h
      · rw [List.mem_singleton] at h
        subst h
        simp only [Node.weight]; omega
  | case9 => cases h
  | case10 site cond body =>
    have hcond := cond.weight_pos
    have hbody := body.weight_pos
    simp only [Expr.labelledNode, List.mem_cons, List.not_mem_nil, or_false] at h
    rcases h with rfl | rfl <;> simp only [Node.weight, Elif.weight] <;> omega
  | case11 site init cond iter body =>
    have hbody := body.weight_pos
    simp only [List.mem_append, List.mem_singleton] at h
    rcases h with ((h | h) | h) | rfl
    · have := weight_le_of_mem_numberedNodes h
      simp only [Node.weight]; omega
    · split at h
      · cases h
      · rw [List.mem_singleton] at h
        subst h
        simp only [Expr.labelledNode, Node.weight]; omega
    · have := weight_le_of_mem_numberedNodes h
      simp only [Node.weight]; omega
    · simp only [Node.weight]; omega
  | case12 site cond body =>
    have hcond := cond.weight_pos
    have hbody := body.weight_pos
    simp only [Expr.labelledNode, List.mem_cons, List.not_mem_nil, or_false] at h
    rcases h with rfl | rfl <;> simp only [Node.weight] <;> omega
  | case13 d =>
    rcases List.mem_append.1 h with h | h
    · split at h
      · cases h
      · rw [List.mem_singleton] at h
        subst h
        simp only [Node.weight]; omega
    · have := weight_of_mem_typeNodes h
      simp only [Node.weight]; omega
  | case14 head body =>
    simp only [List.mem_append] at h
    rcases h with (h | h) | h
    · split at h
      · rw [List.mem_singleton] at h
        subst h
        simp only [Node.weight]; omega
      · cases h
    · have := weight_of_mem_typedNameNodes h
      simp only [Node.weight]; omega
    · have := weight_of_mem_typeNodes h
      simp only [Node.weight]; omega
  | case15 d =>
    have := weight_of_mem_typedNameNodes h
    simp only [Node.weight]; omega
  | case16 => cases h
  | case17 => cases h
  | case18 _ result =>
    rw [List.mem_singleton] at h
    subst h
    simp only [Node.weight]; omega

end TreeLowering
