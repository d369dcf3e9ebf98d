import TreeLowering.Proofs.Effects
import TreeLowering.Proofs.Lines

/-!
A walk over the statements of a unit.

A function owns the expressions of its statements, in the order in which they are lowered, and not
those of functions defined inside it. What comes after a statement that diverts is not lowered
(`statement_live`). `gathers` lists what a statement owns, for any list `g e` that an expression `e`
stands for.

`Walks c U g R` says what a labelled relation `R` makes of the single steps of control flow, of
expressions and of definitions among the nodes `U`. Then `R` relates the states before and after any
statement made of such nodes, labelled by what the statement gathers (`Walks.statement`).
-/
namespace TreeLowering

open Lower

/-! ## Statements that divert -/

mutual

/-- Whether control never gets past a statement: it jumps or returns on every way through it. -/
def Node.diverts (c : Context) : Node → Bool
  | .labelled _ _ x => x.diverts c
  | .block b => b.diverts c
  | .ifStmt _ _ yes elifs no =>
    yes.diverts c && (Elif.allDivert c elifs && (!no.isMissing && no.diverts c))
  | .space _ _ decls => Node.someDiverts c (takesTurn c.analysis true) decls
  | .forStmt _ init _ _ _ => Node.someDiverts c (fun _ => true) init
  | .branch _ _ | .ret _ _ => true
  | .expr _ | .typeRef _ | .program _ _ | .file _ | .varDecl _ | .funcDecl _ _ | .structDecl _
  | .elif _ | .whileStmt _ _ _ => false

/-- Whether control never gets past a block. -/
def Block.diverts (c : Context) : Block → Bool
  | .missing => false
  | .mk _ stmts => Node.someDiverts c (fun _ => true) stmts

/-- Whether control never gets past one of the statements that are kept. -/
def Node.someDiverts (c : Context) (keep : Node → Bool) : List Node → Bool
  | [] => false
  | n :: ns => keep n && n.diverts c || Node.someDiverts c keep ns

/-- Whether control never gets past any of the arms. -/
def Elif.allDivert (c : Context) : List Elif → Bool
  | [] => true
  | .missing :: es => Elif.allDivert c es
  | .mk _ _ body :: es => body.diverts c && Elif.allDivert c es

end

/-- The flows that a reading allows all divert, or none does. -/
def Reading.Diverts (r : Reading) (d : Bool) : Prop := ∀ s f s', r s f s' → f.diverts = d

namespace Reading.Diverts

variable {first rest yes no r : Reading} {d d' : Bool}

theorem skips : Reading.skips.Diverts false := by
  rintro s f s' ⟨rfl, -⟩
  rfl

theorem follows (h : first.Diverts d) (h' : rest.Diverts d') :
    (Reading.follows first rest).Diverts (d || d') := by
  rintro s f s' ⟨g, s₁, hg, hf⟩
  have hd := h s g s₁ hg
  split at hf
  · rename_i hdiv
    rw [hf.1, hd, ← hd, hdiv, Bool.true_or]
  · obtain ⟨g', rfl, hg'⟩ := hf
    rw [Flow.diverts, hd, h' s₁ g' s' hg']

theorem chooses {done : Ir.Label} {otherwise : Option String} {cond : State → Cond → State → Prop}
    (h : yes.Diverts d) (h' : no.Diverts d') :
    (Reading.chooses done otherwise cond yes no).Diverts (d && d') := by
  rintro s f s' ⟨k, y, n, s₁, s₂, rfl, -, hy, hn⟩
  rw [Flow.diverts, h _ y s₂ hy, h' _ n s' hn]

theorem whileLoop {cond : Ir.Label → Ir.Label → State → Cond → State → Prop} {body : Reading} :
    (Reading.whileLoop cond body).Diverts false := by
  rintro s f s' ⟨k, y, s₁, s₂, rfl, -⟩
  rfl

theorem forLoop {test : Ir.Label → Ir.Label → State → Option Cond → State → Prop}
    {body next : Reading} : (Reading.forLoop test body next).Diverts false := by
  rintro s f s' ⟨k, y, n, s₁, s₂, s₃, rfl, -⟩
  rfl

theorem final {done : Ir.Label} (h : r.Diverts d) : (Reading.final done r).Diverts d := by
  rintro s f s' ⟨s₁, hr, -⟩
  exact h s f s₁ hr

end Reading.Diverts

mutual

/-- The flow that a statement stands for diverts if the statement does. -/
theorem Node.Reads.diverts (c : Context) : ∀ n : Node, (n.Reads c).Diverts (n.diverts c)
  | .labelled _ _ x => by
    unfold Node.Reads Node.diverts
    exact Node.Reads.diverts c x
  | .expr _ => by
    unfold Node.Reads Node.diverts
    rintro s f s' ⟨code, v, rfl, -⟩
    rfl
  | .varDecl _ => by
    unfold Node.Reads Node.diverts
    rintro s f s' ⟨code, rfl, -⟩
    rfl
  | .funcDecl _ _ | .structDecl _ | .branch _ _ => by
    unfold Node.Reads Node.diverts
    rintro s f s' ⟨rfl, -⟩
    rfl
  | .space _ _ decls => by
    unfold Node.Reads Node.diverts
    rintro s f s' ⟨code, g, s₁, rfl, -, hg⟩
    rw [Flow.diverts, Node.ReadsAll.diverts c _ decls s₁ g s' hg]
    rfl
  | .block b => by
    unfold Node.Reads Node.diverts
    exact Block.Reads.diverts c b
  | .ifStmt _ cond yes elifs no => by
    have last (done : Ir.Label) :
        Reading.Diverts (if no.isMissing then .skips else .final done (no.Reads c))
          (!no.isMissing && no.diverts c) := by
      have block := Block.Reads.diverts c no
      cases no.isMissing with
      | true => exact .skips
      | false => exact .final block
    unfold Node.Reads Node.diverts
    rintro s f s' ⟨s₁, hf, -⟩
    exact Reading.Diverts.chooses (Block.Reads.diverts c yes)
      (Elif.ReadsRest.diverts c _ no (last _) elifs) _ f s₁ hf
  | .forStmt _ init cond iter body => by
    have first := Node.ReadsAll.diverts c (fun _ => true) init
    unfold Node.Reads Node.diverts
    rw [← Bool.or_false (Node.someDiverts c (fun _ => true) init)]
    exact .follows first .forLoop
  | .whileStmt _ cond body => by
    unfold Node.Reads Node.diverts
    exact .whileLoop
  | .ret _ result => by
    unfold Node.Reads Node.diverts
    intro s f s' h
    split at h
    · rw [h.1]
      rfl
    · obtain ⟨code, v, s₁, rfl, -⟩ := h
      rfl
  | .typeRef _ | .program _ _ | .file _ | .elif _ => by
    unfold Node.Reads
    exact fun _ _ _ h => h.elim

theorem Block.Reads.diverts (c : Context) : ∀ b : Block, (b.Reads c).Diverts (b.diverts c)
  | .missing => by
    unfold Block.Reads
    exact fun _ _ _ h => h.elim
  | .mk _ stmts => by
    unfold Block.Reads Block.diverts
    exact Node.ReadsAll.diverts c _ stmts

theorem Node.ReadsAll.diverts (c : Context) (keep : Node → Bool) :
    ∀ ns : List Node, (Node.ReadsAll c keep ns).Diverts (Node.someDiverts c keep ns)
  | [] => by
    unfold Node.ReadsAll Node.someDiverts
    exact .skips
  | n :: ns => by
    have first := Node.Reads.diverts c n
    have rest := Node.ReadsAll.diverts c keep ns
    unfold Node.ReadsAll Node.someDiverts
    cases keep n with
    | true => exact .follows first rest
    | false => exact rest

theorem Elif.ReadsRest.diverts (c : Context) (done : Ir.Label) (no : Block) {final : Reading}
    {d : Bool} (hl : final.Diverts d) :
    ∀ es : List Elif, (Elif.ReadsRest c done no final es).Diverts (Elif.allDivert c es && d)
  | [] => by
    unfold Elif.ReadsRest Elif.allDivert
    rwa [Bool.true_and]
  | .missing :: es => by
    unfold Elif.ReadsRest
    exact fun _ _ _ h => h.elim
  | .mk _ cond body :: es => by
    unfold Elif.ReadsRest Elif.allDivert
    rw [Bool.and_assoc]
    exact .chooses (Block.Reads.diverts c body) (Elif.ReadsRest.diverts c done no hl es)

end

/-- After a statement there is a place for instructions unless the statement diverts. -/
theorem Lower.statement_live {c : Context} {n : Node} {s s' : State} {u : Unit}
    (h : statement c n s = .ok u s') (hl : s.body.cursor.isSome) :
    s'.body.cursor.isSome = !n.diverts c := by
  obtain ⟨-, f, hf, hb⟩ := (realizes_statement c n).builds h hl
  rw [hb.cursor_isSome, Node.Reads.diverts c n s f s' hf]

theorem Lower.statementsWhere_live {c : Context} {keep : Node → Bool} {ns : List Node}
    {s s' : State} {u : Unit} (h : statementsWhere c keep ns s = .ok u s')
    (hl : s.body.cursor.isSome) : s'.body.cursor.isSome = !Node.someDiverts c keep ns := by
  obtain ⟨-, f, hf, hb⟩ := (realizes_statementsWhere c keep ns).builds h hl
  rw [hb.cursor_isSome, Node.ReadsAll.diverts c keep ns s f s' hf]

/-! ## What statements own -/

section
variable {ε : Type} (c : Context) (g : Expr → List ε)

/-- What the variables gather that come first among declarations. -/
def EmissionOrder.gathers (b : EmissionOrder) : List ε :=
  (b.consts.flatMap fun d => g d.value) ++ b.globals.flatMap fun d => g d.value

mutual

/-- What a statement gathers from its expressions, in the order of lowering. -/
def Node.gathers : Node → List ε
  | .labelled _ _ x => x.gathers
  | .expr e => g e
  | .varDecl d => g d.value
  | .space _ _ decls =>
    (emissionOrder c.analysis true decls).gathers g ++
      Node.gathersWhere (takesTurn c.analysis true) decls
  | .block b => b.gathers
  | .ifStmt _ cond yes elifs no =>
    g cond ++ yes.gathers ++ (Elif.gathersAll elifs ++ no.gathers)
  | .forStmt _ init cond iter body =>
    Node.gathersWhere (fun _ => true) init ++
      if Node.someDiverts c (fun _ => true) init then []
      else g cond ++ (body.gathers ++ Node.gathersWhere (fun _ => true) iter)
  | .whileStmt _ cond body => g cond ++ body.gathers
  | .ret _ e => g e
  | .funcDecl _ _ | .structDecl _ | .branch _ _ | .typeRef _ | .program _ _ | .file _
  | .elif _ => []

/-- What the statements of a block gather. -/
def Block.gathers : Block → List ε
  | .missing => []
  | .mk _ stmts => Node.gathersWhere (fun _ => true) stmts

/-- What the statements that are kept gather, up to the first that diverts. -/
def Node.gathersWhere (keep : Node → Bool) : List Node → List ε
  | [] => []
  | n :: ns =>
    if keep n then n.gathers ++ if n.diverts c then [] else Node.gathersWhere keep ns
    else Node.gathersWhere keep ns

/-- What the arms gather. -/
def Elif.gathersAll : List Elif → List ε
  | [] => []
  | .missing :: es => Elif.gathersAll es
  | .mk _ cond body :: es => g cond ++ body.gathers ++ Elif.gathersAll es

end

end

/-- The condition of an arm. -/
def Elif.condition? : Elif → Option Expr
  | .missing => none
  | .mk _ cond _ => some cond

/-- The conditions that a statement tests. -/
def Node.conditions : Node → List Expr
  | .ifStmt _ cond _ elifs _ => cond :: elifs.filterMap Elif.condition?
  | .forStmt _ _ cond _ _ | .whileStmt _ cond _ => [cond]
  | _ => []

/-! ## Steps of control flow -/

/-- What control flow does to the body: new blocks, branches on values that satisfy `Q`, another
    place for instructions, the loops around it, the end of a conditional. -/
inductive Body.Steers (Q : Ir.Value → Prop) (b : Body) : Body → Prop
  | addBlock (name : String) : b.Steers Q (b.addBlock name)
  | branch (t : Ir.Term) (h : t.successors ≠ []) (operands : ∀ v ∈ t.operands, Q v) :
    b.Steers Q (b.finish t)
  | goto (l : Ir.Label) : b.Steers Q (b.goto l)
  | halt : b.Steers Q b.halt
  | loops (loops : List Loop) : b.Steers Q { b with loops }
  | closeJoin (done : Ir.Label) (reached : Bool) : b.Steers Q (b.closeJoin done reached)

/-- What comes after the value of a condition: new blocks, then a branch on the value. -/
inductive Body.BranchesOn (v : Ir.Value) : Body → Body → Prop
  | addBlock {b b' : Body} (name : String) (h : BranchesOn v (b.addBlock name) b') :
    BranchesOn v b b'
  | branch {b : Body} (yes no : Ir.Label) : BranchesOn v b (b.finish (.condBr v yes no))

namespace Body.Steers

variable {Q : Ir.Value → Prop} {b b' : Body}

theorem any (h : b.Steers Q b') : b.Steers (fun _ => True) b' := by
  cases h with
  | addBlock name => exact .addBlock name
  | branch t ht _ => exact .branch t ht fun _ _ => trivial
  | goto l => exact .goto l
  | halt => exact .halt
  | loops loops => exact .loops loops
  | closeJoin done reached => exact .closeJoin done reached

/-- Control flow makes no instruction and ends blocks in branches only. -/
theorem all {I : Ir.Inst → Prop} {T : Ir.Term → Prop} (h : b.Steers Q b')
    (branches : ∀ t : Ir.Term, t.successors ≠ [] → (∀ v ∈ t.operands, Q v) → T t)
    (hb : b.All I T) : b'.All I T := by
  cases h with
  | addBlock name => exact hb.addBlock name
  | branch t ht ho => exact hb.finish (branches t ht ho)
  | goto | halt | loops => exact ⟨hb.vars, hb.blocks⟩
  | closeJoin done reached =>
    cases reached with
    | true => exact ⟨(hb.moveToEnd done).vars, (hb.moveToEnd done).blocks⟩
    | false => exact ⟨(hb.dropBlock done).vars, (hb.dropBlock done).blocks⟩

/-- Control flow stays in its function. -/
theorem owner (h : b.Steers Q b') : b'.fn = b.fn ∧ b'.head = b.head ∧ b'.result = b.result := by
  cases h with
  | branch t _ _ => exact ⟨(Kept.finish b t).fn, (Kept.finish b t).head, (Kept.finish b t).result⟩
  | closeJoin done reached =>
    have kept := Kept.closeJoin b done reached
    exact ⟨kept.fn, kept.head, kept.result⟩
  | addBlock | goto | halt | loops => exact ⟨rfl, rfl, rfl⟩

end Body.Steers

/-- What comes after a condition makes no instruction and ends one block, in a branch. -/
theorem Body.BranchesOn.all {I : Ir.Inst → Prop} {T : Ir.Term → Prop} {v : Ir.Value} {b b' : Body}
    (h : b.BranchesOn v b') (ht : ∀ yes no, T (.condBr v yes no)) (hb : b.All I T) :
    b'.All I T := by
  induction h with
  | addBlock name _ ih => exact ih (hb.addBlock name)
  | branch yes no => exact hb.finish (ht yes no)

namespace Lower

variable {ε α β : Type} {R : List ε → State → State → Prop} {l l' : List ε}

/-- A labelled relation where there is a place for instructions. -/
def Live (R : List ε → State → State → Prop) (l : List ε) (s s' : State) : Prop :=
  s.body.cursor.isSome → R l s s'

namespace Always

theorem live {m : Lower α} (h : Always (R l) m) : Always (Live R l) m :=
  fun s a s' hm _ => h s a s' hm

theorem whenLive_live {m : Lower Unit} (h : Always (Live R l) m) :
    Always (Live R l) (whenLive m) := by
  intro s u s' hm hl
  rcases whenLive_eq_ok.mp hm with ⟨-, hm⟩ | ⟨hdead, -⟩
  · exact h s u s' hm hl
  · rw [hdead] at hl
    cases hl

variable [Recording R]

theorem live_bind_quiet {m : Lower α} {f : α → Lower β} (hm : Always (Live R l) m)
    (hf : ∀ a, Always (Quiet R) (f a)) : Always (Live R l) (m >>= f) := by
  intro s b s' h hl
  obtain ⟨a, s₁, h₁, h₂⟩ := bind_eq_ok.mp h
  have both := Recording.trans (hm s a s₁ h₁ hl) (hf a s₁ b s' h₂)
  rwa [List.append_nil] at both

/-- A step after which there is a place for instructions, then one that needs it. -/
theorem append_into_live {m : Lower α} {f : α → Lower β} (hm : Always (R l) m)
    (hlive : ∀ s a s', m s = .ok a s' → s'.body.cursor.isSome)
    (hf : ∀ a, Always (Live R l') (f a)) : Always (R (l ++ l')) (m >>= f) := by
  intro s b s' h
  obtain ⟨a, s₁, h₁, h₂⟩ := bind_eq_ok.mp h
  exact Recording.trans (hm s a s₁ h₁) (hf a s₁ b s' h₂ (hlive s a s₁ h₁))

theorem append_live {m : Lower α} {f : α → Lower β} (hm : Always (Live R l) m)
    (hlive : ∀ s a s', s.body.cursor.isSome → m s = .ok a s' → s'.body.cursor.isSome)
    (hf : ∀ a, Always (Live R l') (f a)) : Always (Live R (l ++ l')) (m >>= f) := by
  intro s b s' h hl
  obtain ⟨a, s₁, h₁, h₂⟩ := bind_eq_ok.mp h
  exact Recording.trans (hm s a s₁ h₁ hl) (hf a s₁ b s' h₂ (hlive s a s₁ hl h₁))

theorem forM_flatMap {f : α → Lower PUnit} {k : α → List ε} {xs : List α}
    (hf : ∀ a ∈ xs, Always (R (k a)) (f a)) : Always (R (xs.flatMap k)) (xs.forM f) := by
  induction xs with
  | nil => exact .pure' (r := Quiet R) _
  | cons a xs ih =>
    rw [List.flatMap_cons]
    exact .append (hf a List.mem_cons_self) fun _ => ih fun b hb =>
      hf b (List.mem_cons_of_mem _ hb)

end Always

theorem conditionalArm_live {c : Context} {done : Ir.Label} {cond : Expr} {arm : Lower Unit}
    {otherwise : Option String} {s s' : State} {reached : Bool}
    (h : conditionalArm c done cond arm otherwise s = .ok reached s') :
    s'.body.cursor.isSome := by
  have rest : ∀ {v : Ir.Value} {yes no : Ir.Label} {s₁ : State}, (do
      terminate (.condBr v yes no)
      moveTo yes
      arm
      let joined ← branchIfLive done
      moveTo no
      pure (joined || otherwise.isNone) : Lower Bool) s₁ = .ok reached s' →
      s'.body.cursor.isSome := by
    intro v yes no s₁ h
    obtain ⟨_, s₂, -, h⟩ := bind_eq_ok.mp h
    obtain ⟨_, s₃, -, h⟩ := bind_eq_ok.mp h
    obtain ⟨_, s₄, -, h⟩ := bind_eq_ok.mp h
    obtain ⟨joined, s₅, -, h⟩ := bind_eq_ok.mp h
    cases h
    rfl
  unfold conditionalArm at h
  obtain ⟨v, s₁, -, h⟩ := bind_eq_ok.mp h
  obtain ⟨yes, s₂, -, h⟩ := bind_eq_ok.mp h
  cases otherwise with
  | some name =>
    obtain ⟨no, s₃, -, h⟩ := bind_eq_ok.mp h
    exact rest h
  | none => exact rest h

theorem elifArms_live {c : Context} {done : Ir.Label} {no : Block} {es : List Elif}
    {s s' : State} {reached : Bool} (hl : s.body.cursor.isSome)
    (h : elifArms c done no es s = .ok reached s') : s'.body.cursor.isSome := by
  induction es generalizing s reached with
  | nil =>
    unfold elifArms at h
    obtain ⟨-, rfl⟩ := pure_eq_ok.mp h
    exact hl
  | cons e es ih =>
    cases e with
    | missing =>
      unfold elifArms at h
      simp at h
    | mk site cond body =>
      unfold elifArms at h
      obtain ⟨first, s₁, h₁, h⟩ := bind_eq_ok.mp h
      obtain ⟨later, s₂, h₂, h⟩ := bind_eq_ok.mp h
      obtain ⟨-, rfl⟩ := pure_eq_ok.mp h
      exact ih (conditionalArm_live h₁) h₂

/-! ## Walks -/

/-- What a relation makes of a declaration; if it is a function, of its statements too. -/
structure Walked (c : Context) (g : Expr → List ε) (R : List ε → State → State → Prop)
    (n : Node) : Prop where
  statement : Always (Live R (n.gathers c g)) (statement c n)
  body : ∀ h body, n.unwrap = .funcDecl h body →
    Always (Live R (body.gathers c g)) (blockStatements c body)

/-- What a relation makes of a condition and of the branch on its value. -/
def Branched (c : Context) (R : List ε → State → State → Prop) (l : List ε) (e : Expr) : Prop :=
  ∀ s v s', condition c e s = .ok v s' → ∀ b, s'.body.BranchesOn v b → R l s (s'.setBody b)

/-- A relation that single steps keep, expressions and variables among the nodes `U`; `g` says what
    an expression stands for. -/
structure Steps (c : Context) (U : Node → Prop) (g : Expr → List ε)
    (R : List ε → State → State → Prop) : Prop where
  absent : g .absent = []
  steer : ∀ s b, s.body.Steers (fun _ => False) b → R [] s (s.setBody b)
  expression : ∀ e, U (.expr e) → Always (R (g e)) (valueOf c e)
  condition : ∀ n, U n → ∀ e ∈ n.conditions, Branched c R (g e) e
  leave : ∀ site e, U (.ret site e) → Always (R (g e)) (leave c site e)
  varDecl : ∀ d, U (.varDecl d) → Always (R (g d.value)) (defineVariable c d)
  structDecl : ∀ d, U (.structDecl d) → Always (Quiet R) (enterStruct c d)

/-- A relation that functions and namespaces among the nodes `U` keep, too. -/
structure Walks (c : Context) (U : Node → Prop) (g : Expr → List ε)
    (R : List ε → State → State → Prop) : Prop extends Steps c U g R where
  funcDecl : ∀ h body, U (.funcDecl h body) →
    Always (Live R (body.gathers c g)) (blockStatements c body) →
    Always (Quiet R) (statement c (.funcDecl h body))
  space : ∀ site name decls, U (.space site name decls) → (∀ m ∈ Node.partsAll decls, U m) →
    (∀ n ∈ decls, Walked c g R n) →
    Always (Live R (Node.gathers c g (.space site name decls)))
      (statement c (.space site name decls))

variable [Recording R] {c : Context} {g : Expr → List ε}

namespace Branched

variable {e : Expr}

/-- Where any branch is fine, what is left is the condition. -/
theorem of_always (hc : Always (R l) (condition c e))
    (steer : ∀ s b, s.body.Steers (fun _ => True) b → R [] s (s.setBody b)) :
    Branched c R l e := by
  intro s v s' h b hb
  have start := hc s v s' h
  clear h hc
  generalize hs : s'.body = b₀ at hb
  induction hb generalizing s' with
  | addBlock name _ ih =>
    subst hs
    have opened := Recording.trans start (steer s' _ (.addBlock name))
    rw [List.append_nil] at opened
    exact ih (s'.setBody (s'.body.addBlock name)) opened rfl
  | branch yes no =>
    subst hs
    have branched := Recording.trans start
      (steer s' _ (.branch (.condBr v yes no) (List.cons_ne_nil _ _) fun _ _ => trivial))
    rwa [List.append_nil] at branched

theorem bind {m : Unit → Lower α} (h : Branched c R l e) (yes no : Ir.Label)
    (hm : Always (R l') (m ())) : Always (R (l ++ l')) (do
      let v ← condition c e
      let u ← terminate (.condBr v yes no)
      m u) := by
  intro s a s' hs
  obtain ⟨v, s₁, h₁, hs⟩ := bind_eq_ok.mp hs
  obtain ⟨_, s₂, h₂, hs⟩ := bind_eq_ok.mp hs
  obtain ⟨-, rfl⟩ := terminate_eq_ok.mp h₂
  exact Recording.trans (h s v s₁ h₁ _ (.branch yes no)) (hm _ _ _ hs)

end Branched

/-- The statements of a list, one after the other, up to the first that diverts. -/
theorem walked_statementsWhere {ns : List Node} (h : ∀ n ∈ ns, Walked c g R n)
    (keep : Node → Bool) :
    Always (Live R (Node.gathersWhere c g keep ns)) (statementsWhere c keep ns) := by
  induction ns with
  | nil =>
    unfold statementsWhere Node.gathersWhere
    exact (Always.pure' (r := Quiet R) _).live
  | cons n ns ih =>
    have rest := ih fun m hm => h m (List.mem_cons_of_mem _ hm)
    intro s u s' hs hl
    unfold statementsWhere at hs
    unfold Node.gathersWhere
    split at hs
    · rename_i hk
      obtain ⟨_, s₁, h₁, h₂⟩ := bind_eq_ok.mp hs
      rw [if_pos hk]
      refine Recording.trans ((h n List.mem_cons_self).statement s _ s₁ h₁ hl) ?_
      have live := statement_live h₁ hl
      cases hd : n.diverts c with
      | false =>
        rw [hd] at live
        exact rest s₁ u s' h₂ live
      | true =>
        rw [hd] at live
        cases (realizes_statementsWhere c keep ns).dead s₁ u s' h₂ (by simpa using live)
        exact Recording.refl _
    · rename_i hk
      rw [if_neg hk]
      exact rest s u s' hs hl

variable {U : Node → Prop}

namespace Steps

variable (t : Steps c U g R)

include t

omit [Recording R] in
theorem modifyBody {f : Body → Body} (hf : ∀ b : Body, b.Steers (fun _ => False) (f b)) :
    Always (Quiet R) (Lower.modifyBody f) := .modify' fun s => t.steer s _ (hf s.body)

omit [Recording R] in
theorem moveTo (label : Ir.Label) : Always (Quiet R) (moveTo label) := t.modifyBody fun _ => .goto _

omit [Recording R] in
theorem moveNowhere : Always (Quiet R) moveNowhere := t.modifyBody fun _ => .halt

omit [Recording R] in
theorem openBlock (name : String) : Always (Quiet R) (openBlock name) := by
  intro s label s' h
  cases h
  exact t.steer s _ (.addBlock name)

omit [Recording R] in
theorem branch (label : Ir.Label) : Always (Quiet R) (terminate (.br label)) := by
  intro s u s' hr
  obtain ⟨-, rfl⟩ := terminate_eq_ok.mp hr
  exact t.steer s _ (.branch _ (List.cons_ne_nil _ _) nofun)

omit [Recording R] in
theorem branchIfLive (label : Ir.Label) : Always (Quiet R) (branchIfLive label) := by
  intro s r s' h
  obtain ⟨-, rfl⟩ := branchIfLive_eq_ok.mp h
  exact t.steer s _ (.branch _ (List.cons_ne_nil _ _) nofun)

/-- Where the cursor was moved there is a place for instructions. -/
theorem moveTo_bind {label : Ir.Label} {f : Unit → Lower α} (hf : Always (Live R l) (f ())) :
    Always (R l) (Lower.moveTo label >>= f) := by
  refine Always.append_into_live (l := []) (t.moveTo label) ?_ fun _ => hf
  intro s u s' h
  cases h
  rfl

theorem conditionalArm (done : Ir.Label) {cond : Expr} {arm : Lower Unit}
    (hc : Branched c R l cond) (ha : Always (Live R l') arm) (otherwise : Option String) :
    Always (R (l ++ l')) (conditionalArm c done cond arm otherwise) := by
  have rest : ∀ yes no, Always (R l') (do
      Lower.moveTo yes
      arm
      let joined ← Lower.branchIfLive done
      Lower.moveTo no
      pure (joined || otherwise.isNone)) := fun yes no => t.moveTo_bind
    (.live_bind_quiet ha fun _ => .bind' (t.branchIfLive _) fun _ =>
      .bind' (t.moveTo _) fun _ => .pure' _)
  intro s reached s' h
  unfold Lower.conditionalArm at h
  obtain ⟨v, s₁, h₁, h⟩ := bind_eq_ok.mp h
  obtain ⟨yes, s₂, h₂, h⟩ := bind_eq_ok.mp h
  cases h₂
  -- The block where the condition fails is a new one, or the end of the conditional.
  cases otherwise with
  | some name =>
    obtain ⟨no, s₃, h₃, h⟩ := bind_eq_ok.mp h
    cases h₃
    obtain ⟨_, s₄, h₄, h⟩ := bind_eq_ok.mp h
    obtain ⟨-, rfl⟩ := terminate_eq_ok.mp h₄
    exact Recording.trans (hc s v s₁ h₁ _ (.addBlock _ (.addBlock _ (.branch _ _))))
      (rest _ _ _ _ _ h)
  | none =>
    obtain ⟨no, s₃, h₃, h⟩ := bind_eq_ok.mp h
    cases h₃
    obtain ⟨_, s₄, h₄, h⟩ := bind_eq_ok.mp h
    obtain ⟨-, rfl⟩ := terminate_eq_ok.mp h₄
    exact Recording.trans (hc s v s₁ h₁ _ (.addBlock _ (.branch _ _))) (rest _ _ _ _ _ h)

omit [Recording R] in
theorem closeConditional (done : Ir.Label) (reached : Bool) :
    Always (Quiet R) (closeConditional done reached) := by
  intro s u s' h
  have hs : s' = s.setBody (s.body.closeJoin done reached) := by
    cases reached <;> cases h <;> rfl
  rw [hs]
  exact t.steer s _ (.closeJoin done reached)

theorem runLoop (loop : Loop) (start : Ir.Label) {step : Lower Unit}
    (hs : Always (Live R l) step) : Always (R l) (runLoop loop start step) :=
  .quiet_bind (t.modifyBody fun _ => .loops _) fun _ => t.moveTo_bind
    (.live_bind_quiet hs fun _ => .bind' (.discard' (t.branchIfLive _)) fun _ =>
      t.modifyBody fun _ => .loops _)

theorem whileLoop {cond : Expr} {step : Lower Unit} (hc : Branched c R l cond)
    (hs : Always (Live R l') step) : Always (R (l ++ l')) (whileLoop c cond step) := by
  refine .quiet_bind (t.openBlock _) fun _ => .quiet_bind (t.openBlock _) fun _ =>
    .quiet_bind (t.openBlock _) fun _ => .quiet_bind (t.branch _) fun _ =>
      .quiet_bind (t.moveTo _) fun _ => hc.bind _ _ ?_
  exact .bind_quiet (t.runLoop _ _ hs) fun _ => t.moveTo _

theorem forLoop {cond : Expr} {iter step : Lower Unit} {k : List ε}
    (hc : Branched c R (g cond) cond) (hs : Always (Live R l) step)
    (hi : Always (Live R k) iter) :
    Always (R (g cond ++ (l ++ k))) (forLoop c cond iter step) := by
  refine .quiet_bind (t.openBlock _) fun test => .quiet_bind (t.openBlock _) fun start =>
    .quiet_bind (t.openBlock _) fun next => .quiet_bind (t.openBlock _) fun exit =>
      .quiet_bind (t.branch _) fun _ => .quiet_bind (t.moveTo _) fun _ => ?_
  have rest : Always (R (l ++ k)) (do
      Lower.runLoop ⟨exit, next⟩ start step
      Lower.moveTo next
      iter
      discard (Lower.branchIfLive test)
      Lower.moveTo exit) :=
    .append (t.runLoop _ _ hs) fun _ => t.moveTo_bind (.live_bind_quiet hi fun _ =>
      .bind' (.discard' (t.branchIfLive _)) fun _ => t.moveTo _)
  split
  · rename_i ha
    have none : g cond = [] := by
      cases cond with
      | absent => exact t.absent
      | _ => cases ha
    rw [none]
    exact .quiet_bind (t.branch _) fun _ => rest
  · exact hc.bind _ _ rest

theorem jump (site : Site) (token : Token) : Always (Quiet R) (jump site token) := by
  refine .get_bind fun s => ?_
  split
  · exact .reject' _ _
  · exact .bind' (t.branch _) fun _ => t.moveNowhere

end Steps

namespace Walks

set_option linter.unusedSectionVars false in
mutual

/-- A statement, labelled by what it gathers. -/
theorem statement (t : Walks c U g R) :
    ∀ n : Node, (∀ m ∈ n.parts, U m) → Always (Live R (n.gathers c g)) (statement c n)
  | .labelled _ _ x, h => by
    unfold Node.parts at h
    unfold Lower.statement Node.gathers
    exact t.statement x (List.forall_mem_cons.mp h).2
  | .expr e, h => by
    unfold Lower.statement Node.gathers
    exact .whenLive_live (Always.discard' (t.expression e (h _ (Node.self_mem_parts _)))).live
  | .varDecl d, h => by
    unfold Lower.statement Node.gathers
    exact .whenLive_live (t.varDecl d (h _ (Node.self_mem_parts _))).live
  | .funcDecl head body, h => by
    unfold Node.parts at h
    obtain ⟨here, inside⟩ := List.forall_mem_cons.mp h
    unfold Node.gathers
    exact (t.funcDecl head body here (t.blockStatements body inside)).live
  | .structDecl d, h => by
    unfold Lower.statement Node.gathers
    exact .whenLive_live (t.structDecl d (h _ (Node.self_mem_parts _))).live
  | .space site name decls, h => by
    unfold Node.parts at h
    obtain ⟨here, inside⟩ := List.forall_mem_cons.mp h
    exact t.space site name decls here inside (t.eachStatement decls inside)
  | .block b, h => by
    unfold Node.parts at h
    unfold Lower.statement Node.gathers
    exact .whenLive_live (t.blockStatements b (List.forall_mem_cons.mp h).2)
  | .ifStmt site cond yes elifs no, h => by
    unfold Node.parts at h
    simp only [List.forall_mem_cons, List.forall_mem_append] at h
    obtain ⟨here, hyes, helifs, hno⟩ := h
    have tests := List.forall_mem_cons.mp (t.condition _ here)
    have arms := fun done => t.elifArms done no elifs helifs tests.2
    have last := t.blockStatements no hno
    unfold Lower.statement Node.gathers
    refine .whenLive_live (.ite' .breach_bind (Always.live ?_))
    refine .quiet_bind (t.openBlock _) fun done => ?_
    refine .append_into_live (t.conditionalArm done tests.1 (t.blockStatements yes hyes) _)
      (fun _ _ _ h => conditionalArm_live h) fun first => ?_
    refine .append_live (arms done) (fun _ _ _ hl h => elifArms_live hl h) fun later => ?_
    cases no with
    | missing => exact (Always.bind' (.pure' _) fun _ => t.closeConditional done _).live
    | mk _ stmts =>
      exact .live_bind_quiet last fun _ =>
        .bind' (t.branchIfLive _) fun _ => t.closeConditional done _
  | .forStmt site init cond iter body, h => by
    unfold Node.parts at h
    simp only [List.forall_mem_cons, List.forall_mem_append] at h
    obtain ⟨here, hinit, hiter, hbody⟩ := h
    have first := walked_statementsWhere (t.eachStatement init hinit) fun _ => true
    have loop := t.forLoop (t.condition _ here cond List.mem_cons_self)
      (t.blockStatements body hbody)
      (walked_statementsWhere (t.eachStatement iter hiter) fun _ => true)
    unfold Lower.statement Node.gathers
    refine .whenLive_live fun s u s' hs hl => ?_
    obtain ⟨_, s₁, h₁, h₂⟩ := bind_eq_ok.mp hs
    have live := statementsWhere_live h₁ hl
    refine Recording.trans (first s _ s₁ h₁ hl) ?_
    rcases whenLive_eq_ok.mp h₂ with ⟨hl₁, h₂⟩ | ⟨hdead, rfl⟩
    · rw [if_neg (by simpa [hl₁] using live)]
      exact loop s₁ u s' h₂
    · rw [if_pos (by simpa [hdead] using live)]
      exact Recording.refl _
  | .whileStmt site cond body, h => by
    unfold Node.parts at h
    obtain ⟨here, inside⟩ := List.forall_mem_cons.mp h
    unfold Lower.statement Node.gathers
    exact .whenLive_live (t.whileLoop (t.condition _ here cond List.mem_cons_self)
      (t.blockStatements body inside)).live
  | .branch site token, _ => by
    unfold Lower.statement Node.gathers
    exact .whenLive_live (t.jump site token).live
  | .ret site result, h => by
    unfold Lower.statement Node.gathers
    exact .whenLive_live (t.leave site result (h _ (Node.self_mem_parts _))).live
  | .typeRef _, _ | .program _ _, _ | .file _, _ | .elif _, _ => by
    unfold Lower.statement
    exact .whenLive_live (.misplaced _)

theorem blockStatements (t : Walks c U g R) :
    ∀ b : Block, (∀ m ∈ b.parts, U m) → Always (Live R (b.gathers c g)) (blockStatements c b)
  | .missing, _ => by
    unfold Lower.blockStatements
    exact .breach' _
  | .mk _ stmts, h => by
    unfold Block.parts at h
    unfold Lower.blockStatements Block.gathers
    exact walked_statementsWhere (t.eachStatement stmts h) _

theorem body_of_unwrap (t : Walks c U g R) :
    ∀ n : Node, (∀ m ∈ n.parts, U m) → ∀ h body, n.unwrap = .funcDecl h body →
      Always (Live R (body.gathers c g)) (Lower.blockStatements c body)
  | .labelled _ _ x, h, _, _, he => by
    unfold Node.parts at h
    exact t.body_of_unwrap x (List.forall_mem_cons.mp h).2 _ _ he
  | .funcDecl _ body, h, _, _, he => by
    unfold Node.parts at h
    have inner := t.blockStatements body (List.forall_mem_cons.mp h).2
    cases he
    exact inner
  | .expr _, _, _, _, he | .varDecl _, _, _, _, he | .structDecl _, _, _, _, he
  | .space _ _ _, _, _, _, he | .block _, _, _, _, he | .ifStmt _ _ _ _ _, _, _, _, he
  | .forStmt _ _ _ _ _, _, _, _, he | .whileStmt _ _ _, _, _, _, he | .branch _ _, _, _, _, he
  | .ret _ _, _, _, _, he | .typeRef _, _, _, _, he | .program _ _, _, _, _, he
  | .file _, _, _, _, he | .elif _, _, _, _, he => nomatch he

theorem eachStatement (t : Walks c U g R) :
    ∀ ns : List Node, (∀ m ∈ Node.partsAll ns, U m) → ∀ n ∈ ns, Walked c g R n
  | [], _, _, hn => nomatch hn
  | m :: ns, h, n, hn => by
    unfold Node.partsAll at h
    obtain ⟨here, later⟩ := List.forall_mem_append.mp h
    have first : Walked c g R m := ⟨t.statement m here, t.body_of_unwrap m here⟩
    rcases List.mem_cons.mp hn with rfl | hn
    · exact first
    · exact t.eachStatement ns later n hn

theorem elifArms (t : Walks c U g R) (done : Ir.Label) (no : Block) :
    ∀ es : List Elif, (∀ m ∈ Elif.partsAll es, U m) →
      (∀ e ∈ es.filterMap Elif.condition?, Branched c R (g e) e) →
      Always (Live R (Elif.gathersAll c g es)) (elifArms c done no es)
  | [], _, _ => by
    unfold Lower.elifArms Elif.gathersAll
    exact (Always.pure' (r := Quiet R) _).live
  | .missing :: _, _, _ => by
    unfold Lower.elifArms
    exact .breach' _
  | .mk _ cond body :: rest, h, tests => by
    unfold Elif.partsAll Elif.parts at h
    obtain ⟨here, later⟩ := List.forall_mem_append.mp h
    obtain ⟨test, tests⟩ := List.forall_mem_cons.mp tests
    unfold Lower.elifArms Elif.gathersAll
    refine Always.live (.append_into_live
      (t.conditionalArm done test (t.blockStatements body here) _)
      (fun _ _ _ h => conditionalArm_live h) fun _ => ?_)
    exact .live_bind_quiet (t.elifArms done no rest later tests) fun _ => .pure' _

end

end Walks

/-! ## Units -/

/-- What the top-level code of a unit gathers. -/
def gathersTop (c : Context) (g : Expr → List ε) (decls : List Node) : List ε :=
  (emissionOrder c.analysis false decls).gathers g ++
    Node.gathersWhere c g (takesTurn c.analysis false) decls

/-- A relation that prototypes and bodies of functions among the nodes `U` keep. -/
structure Introduces (c : Context) (U : Node → Prop) (g : Expr → List ε)
    (R : List ε → State → State → Prop) : Prop extends Steps c U g R where
  report : ∀ (s : State) trace, R [] s { s with trace }
  prototype : ∀ h body, U (.funcDecl h body) → Always (Quiet R) (enterPrototype c h body)
  fillBody : ∀ h body, U (.funcDecl h body) →
    Always (Live R (body.gathers c g)) (blockStatements c body) →
    Always (Quiet R) (fillBody c h body (blockStatements c body))

namespace Introduces

variable (t : Introduces c U g R)

include t

/-- The prototypes and variables that come first among declarations. -/
theorem emitLeading {inSpace : Bool} {decls : List Node} (hn : ∀ m ∈ Node.partsAll decls, U m) :
    Always (R ((emissionOrder c.analysis inSpace decls).gathers g))
      (emitLeading c (emissionOrder c.analysis inSpace decls)) := by
  have vars : ∀ d, d ∈ (emissionOrder c.analysis inSpace decls).consts ∨
      d ∈ (emissionOrder c.analysis inSpace decls).globals → U (.varDecl d) := by
    intro d hd
    obtain ⟨n, hm, he⟩ := mem_emissionOrder hd
    exact he ▸ hn _ (Node.unwrap_mem_partsAll hm)
  have functions : ∀ p ∈ (emissionOrder c.analysis inSpace decls).funcs, U (.funcDecl p.1 p.2) := by
    intro p hp
    obtain ⟨n, hm, he⟩ := mem_funcs_emissionOrder.mp hp
    exact he ▸ hn _ (Node.unwrap_mem_partsAll hm)
  exact .quiet_bind (.forM_mem fun p hp => t.prototype p.1 p.2 (functions p hp)) fun _ =>
    .append (.forM_flatMap fun d hd => t.varDecl d (vars d (.inl hd))) fun _ =>
      .forM_flatMap fun d hd => t.varDecl d (vars d (.inr hd))

/-- Declarations in order: those that come first, then the others in turn. -/
theorem declarations {inSpace : Bool} {decls : List Node} (hn : ∀ m ∈ Node.partsAll decls, U m)
    (hs : ∀ n ∈ decls, Walked c g R n) :
    Always (Live R ((emissionOrder c.analysis inSpace decls).gathers g ++
        Node.gathersWhere c g (takesTurn c.analysis inSpace) decls)) (do
      Lower.emitLeading c (emissionOrder c.analysis inSpace decls)
      statementsWhere c (takesTurn c.analysis inSpace) decls) := by
  refine .append_live (t.emitLeading hn).live ?_ fun _ => walked_statementsWhere hs _
  intro s u s' hl h
  obtain ⟨-, code, grows⟩ := lays_emitLeading c _ s u s' h
  exact grows.live hl

theorem walks : Walks c U g R where
  toSteps := t.toSteps
  funcDecl h body hn hb := by
    have fill := t.fillBody h body hn hb
    unfold statement
    refine .whenLive' (.get_bind fun s => .ite' ?_ fill)
    exact .bind' (t.prototype h body hn) fun _ => fill
  space site name decls _ hn hs := by
    unfold statement Node.gathers
    refine .whenLive_live fun s u s' h hl => ?_
    rw [report_bind_apply] at h
    have rest := t.declarations hn hs _ u s' h hl
    exact Recording.trans (l := []) (t.report s _) rest

end Introduces

/-- A relation that declarations keep, and that holds of what top-level code ends with. -/
structure Completes (c : Context) (U : Node → Prop) (g : Expr → List ε)
    (R : List ε → State → State → Prop) : Prop extends Introduces c U g R where
  runEntry : ∀ funcs, Always (Quiet R) (runEntry c funcs)
  finish : Always (Quiet R)
    (terminate (.ret (if c.config.isLibrary then some (.i32 Abi.librarySuccess) else none)))

/-- The top-level code of a unit. -/
theorem Completes.topLevel (t : Completes c U g R) {decls : List Node}
    (hn : ∀ m ∈ Node.partsAll decls, U m) :
    Always (Live R (gathersTop c g decls)) (topLevel c decls) := by
  unfold Lower.topLevel
  rw [← bind_assoc]
  refine .live_bind_quiet (t.declarations hn (t.walks.eachStatement decls hn)) fun _ => ?_
  exact .get_bind fun s => .ite' .reject_bind (.bind' (t.runEntry _) fun _ => t.finish)

end Lower

end TreeLowering
