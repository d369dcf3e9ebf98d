import TreeLowering.Proofs.Capture

/-!
The parts of a tree: the node itself and all nodes inside it, at any depth.
-/
namespace TreeLowering

mutual

/-- A node and every node inside it. -/
def Node.parts : Node → List Node
  | .labelled site label x => .labelled site label x :: x.parts
  | .program site files => .program site files :: File.partsAll files
  | .file f => .file f :: f.parts
  | .space site name decls => .space site name decls :: Node.partsAll decls
  | .funcDecl h body => .funcDecl h body :: body.parts
  | .block b => .block b :: b.parts
  | .ifStmt site cond yes elifs no =>
    .ifStmt site cond yes elifs no :: (yes.parts ++ (Elif.partsAll elifs ++ no.parts))
  | .elif e => .elif e :: e.parts
  | .forStmt site init cond iter body =>
    .forStmt site init cond iter body ::
      (Node.partsAll init ++ (Node.partsAll iter ++ body.parts))
  | .whileStmt site cond body => .whileStmt site cond body :: body.parts
  | .expr e => [.expr e]
  | .typeRef t => [.typeRef t]
  | .varDecl d => [.varDecl d]
  | .structDecl d => [.structDecl d]
  | .branch site token => [.branch site token]
  | .ret site result => [.ret site result]

/-- The nodes inside a block. -/
def Block.parts : Block → List Node
  | .missing => []
  | .mk _ stmts => Node.partsAll stmts

/-- The nodes inside an arm. -/
def Elif.parts : Elif → List Node
  | .missing => []
  | .mk _ _ body => body.parts

/-- The nodes inside a file. -/
def File.parts : File → List Node
  | .missing => []
  | .mk _ decls => Node.partsAll decls

/-- The nodes of a list with every node inside them. -/
def Node.partsAll : List Node → List Node
  | [] => []
  | n :: ns => n.parts ++ Node.partsAll ns

/-- The nodes inside the arms of a list. -/
def Elif.partsAll : List Elif → List Node
  | [] => []
  | e :: es => e.parts ++ Elif.partsAll es

/-- The nodes inside the files of a list. -/
def File.partsAll : List File → List Node
  | [] => []
  | f :: fs => f.parts ++ File.partsAll fs

end

namespace Node

theorem self_mem_parts (n : Node) : n ∈ n.parts := by
  cases n <;> simp [parts]

theorem parts_subset_partsAll {n : Node} {ns : List Node} (h : n ∈ ns) :
    n.parts ⊆ partsAll ns := by
  induction ns with
  | nil => cases h
  | cons m ns ih =>
    unfold partsAll
    rcases List.mem_cons.mp h with rfl | h
    · exact List.subset_append_left _ _
    · exact List.subset_append_of_subset_right _ (ih h)

theorem unwrap_mem_parts (n : Node) : n.unwrap ∈ n.parts := by
  fun_induction unwrap n with
  | case1 _ _ x ih =>
    unfold parts
    exact List.mem_cons_of_mem _ ih
  | case2 n _ => exact self_mem_parts n

theorem unwrap_mem_partsAll {n : Node} {ns : List Node} (h : n ∈ ns) :
    n.unwrap ∈ partsAll ns :=
  parts_subset_partsAll h (unwrap_mem_parts n)

end Node

end TreeLowering
