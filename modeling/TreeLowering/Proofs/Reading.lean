import TreeLowering.Proofs.Growth
import TreeLowering.Proofs.Run

/-!
Which flow a tree stands for in a run. `Expr.ReadsCond` takes a condition apart at `&&`, `||` and
`!`; what is left are leaves, each with the code it is lowered to. `Node.Reads` takes statements
apart: a block is its statements in order up to one that diverts, a conditional is a choice with a
choice for each `elif` in its other branch, a loop is a loop.

The relations follow one run, from the state in which the lowering of a tree begins to the state in
which it ends. Every part begins where the part before it ended, or where control went on to from
there, and the code of a leaf is what was laid out between the states around it. So whatever flow a
tree is read as, the run has built that flow (`Reading.Built`).
-/
namespace TreeLowering

open Lower

/-- A step goes from `s` to `s'`, gives `a`, and lays out this code on its way. -/
def LaysCode {α : Type} (m : Lower α) (s : State) (a : α) (code : Code) (s' : State) : Prop :=
  m s = .ok a s' ∧ GrowsBy s.body code s'.body

/-- What comes first in a namespace: its entry is reported, and all groups of declarations but the
    last are lowered. -/
def Lower.enterSpace (c : Context) (name : String) (decls : List Node) : Lower Unit := do
  let b := emissionOrder c.analysis true decls
  report (.enteredSpace name b.size)
  emitLeading c b

/-! ## Conditions -/

/-- A condition that is not taken apart. -/
def Expr.ReadsLeaf (c : Context) (e : Expr) (s : State) (k : Cond) (s' : State) : Prop :=
  ∃ code v, k = .leaf code v ∧ LaysCode (condition c e) s v code s'

/-- The operands of a short-circuit operator join: after the left one ended in the state `left` and
    the right one, with its value, in the state `right`. -/
def State.Joins (left right : State) (isAnd : Bool) (value : Ir.Value) (join : Ir.Line)
    (s' : State) : Prop :=
  ∃ start finish, left.body.cursor = some start ∧ right.body.cursor = some finish ∧
    join = ⟨right.body.lineCount, Body.joined isAnd start finish value, .int 1⟩ ∧
    s' = right.setBody ((right.body.rejoin (left.body.joinLabel isAnd)).emit join.inst join.type)

/-- The condition that an expression stands for. -/
def Expr.ReadsCond (c : Context) : Expr → State → Cond → State → Prop
  | .binary site op x y, s, k, s' =>
    if BinaryOp.codedIsLogical op then
      ∃ isAnd kx ky join s₁ s₂, isAnd = decide (op = .known .condAnd) ∧
        k = .both isAnd kx ky join ∧ x.ReadsCond c s kx s₁ ∧
        y.ReadsCond c (s₁.setBody (s₁.body.fork isAnd (kx.value s.body.fn))) ky s₂ ∧
        s₁.Joins s₂ isAnd (ky.value s.body.fn) join s'
    else Expr.ReadsLeaf c (.binary site op x y) s k s'
  | .unary site op x, s, k, s' =>
    if op = .known .not then
      ∃ kx s₁, k = .not kx s₁.body.lineCount ∧ x.ReadsCond c s kx s₁ ∧
        s' = s₁.setBody (s₁.body.emit (.arith .xor (kx.value s.body.fn) .bitTrue) (.int 1))
    else Expr.ReadsLeaf c (.unary site op x) s k s'
  | e, s, k, s' => Expr.ReadsLeaf c e s k s'

/-- A condition with the branch after it. -/
def Expr.ReadsBranch (c : Context) (e : Expr) (yes no : Ir.Label) (s : State) (k : Cond)
    (s' : State) : Prop :=
  ∃ s₁, e.ReadsCond c s k s₁ ∧
    s' = s₁.setBody (s₁.body.finish (.condBr (k.value s.body.fn) yes no))

/-- The condition of a `for` loop with the branch after it; without one it never ends. -/
def Expr.ReadsTest (c : Context) (e : Expr) (start exit : Ir.Label) (s : State) :
    Option Cond → State → Prop
  | none, s' => e.isAbsent ∧ s' = s.setBody (s.body.finish (.br start))
  | some k, s' => !e.isAbsent ∧ e.ReadsBranch c start exit s k s'

/-! ## Statements -/

/-- What is said of the state before some statements, the flow that they stand for, and the state
    after them. -/
abbrev Reading := State → Flow → State → Prop

namespace Reading

/-- Nothing is done. -/
def skips : Reading := fun s f s' => f = .skip ∧ s' = s

/-- First one flow; then, unless that diverts, another. -/
def follows (first rest : Reading) : Reading := fun s f s' =>
  ∃ g s₁, first s g s₁ ∧
    if g.diverts then f = g ∧ s' = s₁ else ∃ h, f = .seq g h ∧ rest s₁ h s'

/-- The inside of a loop, from the block where it starts. -/
def inLoop (r : Reading) (loop : Loop) (start : Ir.Label) : Reading := fun s f s' =>
  ∃ s₁, r (s.setBody ((s.body.enterLoop loop).goto start)) f s₁ ∧
    s' = s₁.setBody (s₁.body.finish (.br loop.next)).exitLoop

/-- A `while` loop: its condition and its body. -/
def whileLoop (cond : Ir.Label → Ir.Label → State → Cond → State → Prop) (body : Reading) :
    Reading := fun s f s' =>
  ∃ k y s₁ s₂, f = .loop (some k) y .skip ∧
    cond s.body.whileStart s.body.whileExit (s.setBody s.body.whileTest) k s₁ ∧
    body.inLoop s.body.whileLoop s.body.whileStart s₁ y s₂ ∧
    s' = s₂.setBody (s₂.body.goto s.body.whileExit)

/-- A `for` loop: its test, its body, and what comes between the rounds. -/
def forLoop (test : Ir.Label → Ir.Label → State → Option Cond → State → Prop)
    (body next : Reading) : Reading := fun s f s' =>
  ∃ k y n s₁ s₂ s₃, f = .loop k y n ∧
    test s.body.forStart s.body.forExit (s.setBody s.body.forTest) k s₁ ∧
    body.inLoop s.body.forLoop s.body.forStart s₁ y s₂ ∧
    next (s₂.setBody (s₂.body.goto s.body.forNext)) n s₃ ∧
    s' = s₃.setBody ((s₃.body.finish (.br (s.body.nextLabel "for.cond"))).goto s.body.forExit)

end Reading

/-- On to an arm of a conditional: `otherwise` names the block where its condition fails, which else
    is the join. -/
def Body.armOr (b : Body) (done : Ir.Label) (otherwise : Option String) (cond : Ir.Value) : Body :=
  match otherwise with
  | some name => b.arm name cond
  | none => b.lastArm done cond

/-- The block where the condition of an arm fails. -/
def Body.failLabel (b : Body) (done : Ir.Label) (otherwise : Option String) : Ir.Label :=
  match otherwise with
  | some name => (b.addBlock "if.then").nextLabel name
  | none => done

/-- An arm of a conditional, and what comes where its condition fails. -/
def Reading.chooses (done : Ir.Label) (otherwise : Option String)
    (cond : State → Cond → State → Prop) (yes no : Reading) : Reading := fun s f s' =>
  ∃ k y n s₁ s₂, f = .choose k y n ∧ cond s k s₁ ∧
    yes (s₁.setBody (s₁.body.armOr done otherwise (k.value s.body.fn))) y s₂ ∧
    no (s₂.setBody ((s₂.body.finish (.br done)).goto (s₁.body.failLabel done otherwise))) n s'

/-- The final block of a conditional, which goes on to the join. -/
def Reading.final (done : Ir.Label) (r : Reading) : Reading := fun s f s' =>
  ∃ s₁, r s f s₁ ∧ s' = s₁.setBody (s₁.body.finish (.br done))

mutual

/-- The flow that a statement or declaration stands for. A function or a struct among statements
    is lowered, and does nothing when its turn comes. -/
def Node.Reads (c : Context) : Node → Reading
  | .labelled _ _ x => x.Reads c
  | .expr e => fun s f s' => ∃ code v, f = .code code ∧ LaysCode (valueOf c e) s v code s'
  | .varDecl d => fun s f s' => ∃ code, f = .code code ∧ LaysCode (defineVariable c d) s () code s'
  | .funcDecl h body => fun s f s' => f = .skip ∧ statement c (.funcDecl h body) s = .ok () s'
  | .structDecl d => fun s f s' => f = .skip ∧ statement c (.structDecl d) s = .ok () s'
  | .space _ name decls => fun s f s' =>
    ∃ code g s₁, f = .seq (.code code) g ∧ LaysCode (enterSpace c name decls) s () code s₁ ∧
      Node.ReadsAll c (takesTurn c.analysis true) decls s₁ g s'
  | .block b => b.Reads c
  | .ifStmt _ cond yes elifs no => fun s f s' =>
    -- The join is there if control comes to it, so if not all arms divert.
    let done := s.body.nextLabel "if.done"
    let final := if no.isMissing then .skips else .final done (no.Reads c)
    ∃ s₁, Reading.chooses done (otherwiseName elifs no) (cond.ReadsCond c) (yes.Reads c)
        (Elif.ReadsRest c done no final elifs) (s.setBody (s.body.addBlock "if.done")) f s₁ ∧
      s' = s₁.setBody (s₁.body.closeJoin done !f.diverts)
  | .forStmt _ init cond iter body =>
    .follows (Node.ReadsAll c (fun _ => true) init)
      (.forLoop (cond.ReadsTest c) (body.Reads c) (Node.ReadsAll c (fun _ => true) iter))
  | .whileStmt _ cond body => .whileLoop (cond.ReadsBranch c) (body.Reads c)
  | .branch _ token => fun s f s' =>
    let isBreak := Token.isBreak token
    f = .jump isBreak ∧ ∃ loop rest, s.body.loops = loop :: rest ∧
      s' = s.setBody (s.body.finish (.br (if isBreak then loop.exit else loop.next))).halt
  | .ret _ result => fun s f s' =>
    if result.isAbsent then f = .ret .nil none ∧ s' = s.setBody (s.body.finish (.ret none)).halt
    else ∃ code v s₁, f = .ret code (some v) ∧
      LaysCode (valueAs c result s.body.result) s v code s₁ ∧
      s' = s₁.setBody (s₁.body.finish (.ret (some v))).halt
  | .typeRef _ | .program _ _ | .file _ | .elif _ => fun _ _ _ => False

/-- The flow that a block stands for. -/
def Block.Reads (c : Context) : Block → Reading
  | .missing => fun _ _ _ => False
  | .mk _ stmts => Node.ReadsAll c (fun _ => true) stmts

/-- The flow that the kept statements of a list stand for, in order. -/
def Node.ReadsAll (c : Context) (keep : Node → Bool) : List Node → Reading
  | [] => .skips
  | n :: ns =>
    if keep n then .follows (n.Reads c) (Node.ReadsAll c keep ns) else Node.ReadsAll c keep ns

/-- The flow that the `elif` arms of a conditional stand for, with what comes after them; `no` is
    the final block. -/
def Elif.ReadsRest (c : Context) (done : Ir.Label) (no : Block) (final : Reading) :
    List Elif → Reading
  | [] => final
  | .missing :: _ => fun _ _ _ => False
  | .mk _ cond body :: rest =>
    .chooses done (otherwiseName rest no) (cond.ReadsCond c) (body.Reads c)
      (Elif.ReadsRest c done no final rest)

end

/-! ## What is read is built -/

section
variable (c : Context)

/-- A condition grows a body by its code. -/
theorem Expr.ReadsCond.grows : ∀ (e : Expr) {s s' : State} {k : Cond}, e.ReadsCond c s k s' →
    s.body.cursor.isSome → GrowsBy s.body (k.code s.body.fn) s'.body
  | .binary site op x y, s, s', k, h, hl => by
    unfold Expr.ReadsCond at h
    split at h
    · obtain ⟨isAnd, kx, ky, join, s₁, s₂, -, rfl, hx, hy, start, finish, hs, hf, rfl, rfl⟩ := h
      have gx := Expr.ReadsCond.grows x hx hl
      have gy := Expr.ReadsCond.grows y hy rfl
      -- Both operands are conditions of the same function.
      have hfn : (s₁.body.fork isAnd (kx.value s.body.fn)).fn = s.body.fn :=
        (Body.Kept.fork _ _ _).fn.trans gx.kept.fn
      rw [State.setBody_body, hfn] at gy
      exact .seq gx (.decide _ hs trivial gy hf trivial)
    · obtain ⟨code, v, rfl, -, hg⟩ := h
      exact hg
  | .unary site op x, s, s', k, h, hl => by
    unfold Expr.ReadsCond at h
    split at h
    · obtain ⟨kx, s₁, rfl, hx, rfl⟩ := h
      have gx := Expr.ReadsCond.grows x hx hl
      exact .seq gx (.line _ (gx.live hl) rfl rfl (by simp))
    · obtain ⟨code, v, rfl, -, hg⟩ := h
      exact hg
  | .absent, _, _, _, h, _ | .varRef _ _ _, _, _, _, h, _ | .structLit _ _ _, _, _, _, h, _
  | .call _ _ _, _, _, _, h, _ | .arrayLit _ _, _, _, _, h, _ | .arrayAlloc _ _ _, _, _, _, h, _
  | .selector _ _ _ _, _, _, _, h, _ | .index _ _ _, _, _, _, h, _ | .assign _ _ _, _, _, _, h, _
  | .cast _ _ _, _, _, _, h, _ | .intLit _ _, _, _, _, h, _ | .floatLit _ _, _, _, _, h, _
  | .boolLit _ _, _, _, _, h, _ | .stringLit _ _, _, _, _, h, _ => by
    unfold Expr.ReadsCond at h
    obtain ⟨code, v, rfl, -, hg⟩ := h
    exact hg

theorem Expr.ReadsTest.tests {e : Expr} {start exit : Ir.Label} {s s' : State} {k : Option Cond}
    (h : e.ReadsTest c start exit s k s') (hl : s.body.cursor.isSome) :
    Tests s.body k start exit s'.body := by
  cases k with
  | none =>
    obtain ⟨-, rfl⟩ := h
    exact .always hl
  | some k =>
    obtain ⟨-, s₁, hk, rfl⟩ := h
    exact .on hl (Expr.ReadsCond.grows c e hk hl)

end

/-- Whatever flow is read where there is a place for instructions, the run has built it. -/
def Reading.Built (k : Option Ir.Label) (r : Reading) : Prop :=
  ∀ s f s', r s f s' → s.body.cursor.isSome → Builds k s.body f (!f.diverts) s'.body

namespace Reading.Built

variable {first rest yes no body next r : Reading}

theorem skips : Built none skips := by
  rintro s f s' ⟨rfl, rfl⟩ hl
  exact .skip hl

theorem follows (h : Built none first) (h' : Built none rest) :
    Built none (.follows first rest) := by
  rintro s f s' ⟨g, s₁, hg, hf⟩ hl
  have b₁ := h s g s₁ hg hl
  cases hd : g.diverts with
  | true =>
    rw [if_pos hd] at hf
    obtain ⟨rfl, rfl⟩ := hf
    exact b₁
  | false =>
    rw [if_neg (by simp [hd])] at hf
    obtain ⟨x, rfl, hx⟩ := hf
    rw [hd] at b₁
    rw [Flow.diverts, hd]
    exact .seq b₁ (h' s₁ x s' hx b₁.cursor_isSome)

/-- The inside of a loop is built from the block where it starts. -/
theorem inLoop {loop : Loop} {start : Ir.Label} {s s' : State} {f : Flow} (h : Built none r)
    (hr : r.inLoop loop start s f s') :
    ∃ b, Builds none ((s.body.enterLoop loop).goto start) f (!f.diverts) b ∧
      s'.body = (b.finish (.br loop.next)).exitLoop := by
  obtain ⟨s₁, hf, rfl⟩ := hr
  exact ⟨s₁.body, h _ f s₁ hf rfl, rfl⟩

theorem whileLoop (c : Context) (e : Expr) (h : Built none body) :
    Built none (.whileLoop (e.ReadsBranch c) body) := by
  rintro s f s' ⟨k, y, _, s₂, rfl, ⟨s₁, hk, rfl⟩, hy, rfl⟩ hl
  have hg := Expr.ReadsCond.grows c e hk rfl
  obtain ⟨b, hb, hs⟩ := h.inLoop hy
  have hfn : s.body.whileTest.fn = s.body.fn := (Body.Kept.whileTest s.body).fn
  rw [State.setBody_body, hfn] at hg
  rw [State.setBody_body, State.setBody_body, hfn] at hb
  rw [State.setBody_body, hs]
  exact .whileLoop hl hg hb

theorem forLoop (c : Context) (e : Expr) (h : Built none body) (hn : Built none next) :
    Built none (.forLoop (e.ReadsTest c) body next) := by
  rintro s f s' ⟨k, y, n, s₁, s₂, s₃, rfl, hk, hy, hnext, rfl⟩ hl
  have ht := Expr.ReadsTest.tests c hk rfl
  obtain ⟨b, hb, hs⟩ := h.inLoop hy
  have hb' := hn _ n s₃ hnext rfl
  rw [State.setBody_body, hs] at hb'
  exact .forLoop hl ht hb hb'

section
variable {done : Ir.Label} (c : Context) (e : Expr)

theorem final (h : Built none r) : Built (some done) (.final done r) := by
  rintro s f s' ⟨s₁, hr, rfl⟩ hl
  exact .final (h s f s₁ hr hl)

/-- The last arm of a conditional without a final block. -/
theorem last (h : Built none yes) :
    Built (some done) (.chooses done none (e.ReadsCond c) yes .skips) := by
  rintro s f s' ⟨k, y, n, s₁, s₂, rfl, hk, hy, rfl, rfl⟩ hl
  have hb := h _ y s₂ hy rfl
  rw [Flow.diverts, Flow.diverts, Bool.and_false]
  exact .last hl (Expr.ReadsCond.grows c e hk hl) hb

/-- An arm before others, or before the final block. -/
theorem arm {otherwise : String} (h : Built none yes) (hn : Built (some done) no) :
    Built (some done) (.chooses done (some otherwise) (e.ReadsCond c) yes no) := by
  rintro s f s' ⟨k, y, n, s₁, s₂, rfl, hk, hy, hno⟩ hl
  have hb := h _ y s₂ hy rfl
  have hb' := hn _ n s' hno rfl
  rw [Flow.diverts, Bool.not_and]
  exact .arm otherwise hl (Expr.ReadsCond.grows c e hk hl) hb hb'

end

end Reading.Built

end TreeLowering
