import TreeLowering.Proofs.Finished
import TreeLowering.Proofs.Instructions

/-!
Lowering keeps the meaning of expressions on integers and truth values.

`Keeps` is what lowering an expression does: it succeeds, gives a value of the type of the
expression, and lays out code that computes what evaluation gives and stores what evaluation
changes. There is one lemma for each form, and the fragment is an induction over `Expr.Typed`. With
the layout of code in blocks (`Grows.comes`) this is a statement about runs of the finished function
(`valueOf_preserves`).

A constant carries its number into every type of its width, so the number may lie outside the range
of the type. Widening such a constant with a sign gives another value than widening the same value
with an instruction does (`valueOf_misreads_constant`), and `Expr.intact` excludes it.
-/
namespace TreeLowering

open Ir (Machine Frame Word)

namespace Lower

variable {α : Type} {c : Context} {vars : ObjectId → Prop} {s s' s₁ s₂ : State}
  {run run' : Effect} {k k' : Scalar} {v : Ir.Value} {fn : Ir.FuncId}

/-! ## Expressions -/

/-- What lowering an expression of some type leaves: a value of the type, and code that computes
    what evaluation gives. -/
structure Yields (c : Context) (fn : Ir.FuncId) (vars : ObjectId → Prop) (e : Expr) (k : Scalar)
    (s s' : State) (run : Effect) (v : Ir.Value) : Prop where
  shows : Shows fn s' k v
  constant : ∀ w x, v = .int w x → e.constant? c = some x
  runs : ∀ m held n held', Stores c fn vars s m held → e.eval c held = some (n, held') →
    ∃ m', run m = some m' ∧ m'.read fn v = some (k.word n) ∧ k.Holds n ∧
      Stores c fn vars s' m' held'

/-- Lowering keeps the meaning of the expression. -/
def Keeps (c : Context) (fn : Ir.FuncId) (vars : ObjectId → Prop) (e : Expr) (k : Scalar) : Prop :=
  ∀ s, Ready c fn vars s → Performs c fn s (valueOf c e) (Yields c fn vars e k s)

section Literals
variable {site : Site}

theorem keeps_intLit {n : Int64} (hkind : c.kindOf (.intLit site n) = some k)
    (hk : k.isWord = true) (hn : k.Holds n.toInt) : Keeps c fn vars (.intLit site n) k := by
  intro s ready
  rw [valueOf]
  unfold intConstant
  rw [typeOfExpr_eq hkind]
  refine .pure_bind' (.bind' (performs_instructionType ready.mapped hkind) ?_)
  rintro s₁ run a adv ⟨rfl, rfl⟩
  rw [scalarType_eq hk]
  refine .pure' ⟨Shows.int fn s₁ k _, ?_, ?_⟩
  · rintro w x ⟨⟩
    rfl
  · rintro m held _ _ hs ⟨⟩
    exact ⟨m, rfl, rfl, hn, adv.stores.mpr hs⟩

theorem keeps_boolLit (b : Bool) : Keeps c fn vars (.boolLit site b) .bool := by
  intro s ready
  rw [valueOf]
  have hb : boolConstant b = .int 1 (bitNumber b) := by cases b <;> rfl
  rw [hb]
  refine .pure' ⟨Shows.int fn s .bool _, ?_, ?_⟩
  · rintro w x ⟨⟩
    rfl
  · rintro m held _ _ hs ⟨⟩
    exact ⟨m, rfl, rfl, Scalar.holds_bitNumber b, hs⟩

end Literals

/-! ## Variables -/

section Variables
variable {site : Site} {name : String} {x : ObjectId} {id : Nat}

theorem variableAt_eq (hres : c.analysis.resolve name (some site) = some x) :
    variableAt c name site = pure x := by
  rw [variableAt, hres]

theorem Performs.boundTo_bind {R : State → Effect → α → Prop}
    {f : Ir.Value → Lower α} {place : Ir.Value} (hl : s.values.lookup x = some place)
    (hf : Performs c fn s (f place) R) : Performs c fn s (boundTo c x site >>= f) R := by
  have hb : (boundTo c x site >>= f) s = f place s := by
    unfold boundTo
    rw [bind_assoc, get_bind_apply, hl]
    rfl
  unfold Performs at *
  rwa [hb]

/-- The number that a step adds. -/
def StepKind.delta (kind : StepKind) : Int := if kind.up then 1 else -1

/-- A step is an addition, and gives the value of before or of after it. -/
theorem step_apply {step : Step} {kind : StepKind} (h : stepKind? step = some kind) (k : Scalar)
    (old : Int) :
    step.apply k old =
      (if kind.before then k.wrap (old + kind.delta) else old, k.wrap (old + kind.delta)) := by
  cases step <;> cases h <;> rfl

theorem step_apply_none {step : Step} (h : stepKind? step = none) (k : Scalar) (old : Int) :
    step.apply k old = (old, old) := by
  cases step <;> first | rfl | cases h

/-- What a variable holds is read. -/
theorem performs_load (ready : Ready c fn vars s) (hx : vars x)
    (hkx : c.kindOfVariable x = some k)
    (hl : s.values.lookup x = some (.computed fn id (.pointer (.int k.bits)))) :
    Performs c fn s (load (.int k.bits) (.computed fn id (.pointer (.int k.bits))))
      fun s' run v => Shows fn s' k v ∧ (∀ w y, v ≠ .int w y) ∧
        ∀ m held, Stores c fn vars s m held → Computes fn run v m (k.word (held x)) := by
  refine (performs_emit k ready rfl rfl fun _ => rfl).mono fun s' run v _ h => ?_
  refine ⟨h.shows, h.fresh, fun m held hs => ?_⟩
  exact h.runs m _ (Machine.result_load (hs x k id _ hx hkx hl).2)

/-- The new value of a stepped variable is computed and stored. -/
theorem performs_step {old : Ir.Value} (e : Expr) (ready : Ready c fn vars s)
    (hold : Shows fn s k old) (kind : StepKind) :
    Performs c fn s (do
      let new ← stepBy e site old kind.up
      store new (.computed fn id (.pointer (.int k.bits)))
      pure (if kind.before then new else old)) fun s' run v =>
        Shows fn s' k v ∧ (∀ w y, v = .int w y → old = .int w y) ∧
        ∀ m a, m.read fn old = some (k.word a) → m.cells id = some (k.word a) →
          ∃ m' : Machine, run m = some (m'.setCell id (k.word (k.wrap (a + kind.delta)))) ∧
            m'.cells = m.cells ∧
            m'.read fn v = some (k.word (if kind.before then k.wrap (a + kind.delta) else a)) := by
  refine .bind' (performs_stepBy e site ready hold.type kind.up) fun s₁ run₁ new adv₁ hnew => ?_
  refine .bind' (performs_store (adv₁.ready ready) hnew.shows.type) fun s₂ run₂ _ adv₂ hstore => ?_
  have add : ∀ m a, m.read fn old = some (k.word a) →
      Computes fn run₁ new m (k.word (k.wrap (a + kind.delta))) := by
    intro m a ha
    rw [Scalar.word_wrap]
    exact hnew.arith ha (Machine.read_int _ _) (congrArg some (Scalar.add_bitsOf k a kind.delta))
  have run : ∀ {m m' : Machine} {a}, m.cells id = some (k.word a) → run₁ m = some m' →
      m'.cells = m.cells → m'.read fn new = some (k.word (k.wrap (a + kind.delta))) →
      (run₁ m).bind (fun m => (run₂ m).bind some) =
        some (m'.setCell id (k.word (k.wrap (a + kind.delta)))) := by
    intro m m' a hcell hrun hcells hread
    have hcell' : m'.cells id = some (k.word a) := by rw [hcells, hcell]
    simp [hrun, hstore m' _ _ hread hcell' rfl]
  cases hbefore : kind.before with
  | true =>
    refine .pure' ⟨hnew.shows.mono adv₂, fun w y he => absurd he (hnew.fresh w y), ?_⟩
    intro m a ha hcell
    obtain ⟨m₁, hrun, hcells, hread⟩ := add m a ha
    exact ⟨m₁, run hcell hrun hcells hread, hcells, hread⟩
  | false =>
    refine .pure' ⟨(hold.mono adv₁).mono adv₂, fun w y he => he, ?_⟩
    intro m a ha hcell
    obtain ⟨m₁, hrun, hcells, hread⟩ := add m a ha
    refine ⟨m₁, run hcell hrun hcells hread, hcells, ?_⟩
    exact (adv₁.read hrun hold.made).trans ha

theorem keeps_varRef (hres : c.analysis.resolve name (some site) = some x) (hx : vars x)
    (hkx : c.kindOfVariable x = some k) (hk : k.isWord = true) (step : Step) :
    Keeps c fn vars (.varRef site name (.known step)) k := by
  intro s ready
  obtain ⟨id, hl⟩ := ready.slots x k hx hkx
  rw [scalarType_eq hk] at hl
  rw [valueOf]
  unfold readVariable
  rw [variableAt_eq hres]
  refine .pure_bind' (.boundTo_bind hl ?_)
  rw [if_neg (by simp [Ir.Value.isFunc])]
  refine .bind' (performs_instructionType ready.mapped hkx) ?_
  rintro s₁ run₁ t adv₁ ⟨rfl, rfl⟩
  have ready₁ := adv₁.ready ready
  rw [scalarType_eq hk]
  refine .bind' (performs_load ready₁ hx hkx (adv₁.values ▸ hl)) ?_
  rintro s₂ run₂ old adv₂ ⟨hold, hfresh, hload⟩
  have heval : ∀ held, (Expr.varRef site name (.known step)).eval c held =
      some ((step.apply k (held x)).1, Function.update held x (step.apply k (held x)).2) := by
    intro held
    simp [Expr.eval, hres, hkx]
  cases hkind : stepKind? step with
  | none =>
    simp only [hkind]
    refine .pure' ⟨hold, fun w y he => absurd he (hfresh w y), fun m held n held' hs he => ?_⟩
    rw [heval, step_apply_none hkind, Function.update_eq_self] at he
    cases he
    obtain ⟨m₂, hrun₂, hcells₂, hread₂⟩ := hload m held (adv₁.stores.mpr hs)
    refine ⟨m₂, by simp [hrun₂], hread₂, (hs x k id _ hx hkx hl).1, ?_⟩
    exact (adv₁.trans adv₂).stores.mpr (hs.congr hcells₂)
  | some kind =>
    simp only [hkind]
    refine (performs_step _ (adv₂.ready ready₁) hold kind).mono ?_
    rintro s₃ run₃ v adv₃ ⟨hv, hconst, hstep⟩
    refine ⟨hv, fun w y he => absurd (hconst w y he) (hfresh w y), fun m held n held' hs he => ?_⟩
    rw [heval, step_apply hkind] at he
    cases he
    obtain ⟨hn, hcell⟩ := hs x k id _ hx hkx hl
    obtain ⟨m₂, hrun₂, hcells₂, hread₂⟩ := hload m held (adv₁.stores.mpr hs)
    obtain ⟨m₃, hrun₃, hcells₃, hread₃⟩ := hstep m₂ _ hread₂ (hcells₂ ▸ hcell)
    refine ⟨m₃.setCell id (k.word (k.wrap (held x + kind.delta))), ?_, ?_, ?_, ?_⟩
    · simp [hrun₂, hrun₃]
    · rw [Machine.read_setCell, hread₃]
    · split
      · exact Scalar.wrap_wrap k _
      · exact hn
    · refine ((adv₁.trans adv₂).trans adv₃).stores.mpr ?_
      exact (hs.congr (hcells₃.trans hcells₂)).set ready hx hkx hl (Scalar.wrap_wrap k _)

theorem performs_variablePlace (ready : Ready c fn vars s)
    (hres : c.analysis.resolve name (some site) = some x) (hkx : c.kindOfVariable x = some k)
    (hk : k.isWord = true)
    (hl : s.values.lookup x = some (.computed fn id (.pointer (.int k.bits)))) :
    Performs c fn s (variablePlace c site name) fun _ run r =>
      run = some ∧ r = (.computed fn id (.pointer (.int k.bits)), .int k.bits) := by
  unfold variablePlace
  rw [variableAt_eq hres]
  refine .pure_bind' (.boundTo_bind hl ?_)
  rw [if_neg (by simp [Ir.Value.isFunc])]
  refine .bind' (performs_instructionType ready.mapped hkx) ?_
  rintro s₁ run a adv ⟨rfl, rfl⟩
  rw [scalarType_eq hk]
  exact .pure' ⟨rfl, rfl⟩

/-- A constant that gets wider lies in the range of its type. -/
theorem Yields.fits {e : Expr} (h : Yields c fn vars e k s s' run v) (hk : c.kindOf e = some k)
    (hw : e.widens c (some k') = true) :
    ∀ x, v = .int k.bits x → k.isSigned = true → k.bits < k'.bits → k.Holds x := by
  intro x hx hs hlt
  simpa [Expr.widens, hk, h.constant _ _ hx, hs, hlt] using hw

theorem keeps_assign {here : Site} {value : Expr}
    (ih : Keeps c fn vars value k') (hk' : c.kindOf value = some k') (hw' : k'.isWord = true)
    (hres : c.analysis.resolve name (some here) = some x) (hx : vars x)
    (hkx : c.kindOfVariable x = some k) (hk : k.isWord = true)
    (hkt : c.kindOf (.varRef here name (.known .none)) = some k)
    (hfit : value.widens c (some k) = true) :
    Keeps c fn vars (.assign site (.varRef here name (.known .none)) value) k := by
  intro s ready
  obtain ⟨id, hl⟩ := ready.slots x k hx hkx
  rw [scalarType_eq hk] at hl
  rw [valueOf, placeOf]
  refine .bind' (performs_variablePlace ready hres hkx hk hl) ?_
  rintro s₁ run₁ r adv₁ ⟨rfl, rfl⟩
  have ready₁ := adv₁.ready ready
  refine .bind' (ih s₁ ready₁) fun s₂ run₂ v adv₂ hv => ?_
  have ready₂ := adv₂.ready ready₁
  rw [isUnsignedAt_eq hk']
  refine .bind' (performs_convert ready₂ hw' hv.shows _ (hv.fits hk' hfit)) ?_
  rintro s₃ run₃ v' adv₃ ⟨hshow, hconst, hconv⟩
  refine .bind' (performs_store (adv₃.ready ready₂) hshow.type) fun s₄ run₄ _ adv₄ hstore => ?_
  refine .pure' ⟨hshow.mono adv₄, fun w y he => ?_, fun m held n held' hs he => ?_⟩
  · obtain ⟨rfl, hfold⟩ := hconst w y he
    simpa [Expr.constant?, hk', hkt, hfold] using hv.constant _ _ rfl
  · simp only [Expr.eval, hres, hkx, Option.bind_eq_bind, Option.bind_some,
      Option.bind_eq_some_iff] at he
    obtain ⟨⟨a, held₁⟩, ha, ⟨⟩⟩ := he
    obtain ⟨m₂, hrun₂, hread₂, hA, hs₂⟩ := hv.runs m held a held₁ (adv₁.stores.mpr hs) ha
    obtain ⟨m₃, hrun₃, hcells₃, hread₃⟩ := hconv m₂ a hread₂ hA
    have hl₂ : s₂.values.lookup x = some (.computed fn id (.pointer (.int k.bits))) := by
      rw [adv₂.values, adv₁.values, hl]
    have hcell : m₃.cells id = some (k.word (held₁ x)) := by
      rw [hcells₃, (hs₂ x k id _ hx hkx hl₂).2]
    refine ⟨m₃.setCell id (k.word (k.wrap a)), ?_, ?_, Scalar.wrap_wrap k a, ?_⟩
    · simp [hrun₂, hrun₃, hstore m₃ _ _ hread₃ hcell rfl]
    · rw [Machine.read_setCell, hread₃]
    · refine (adv₃.trans adv₄).stores.mpr ?_
      exact (hs₂.congr hcells₃).set ready₂ hx hkx hl₂ (Scalar.wrap_wrap k a)

end Variables

/-! ## Operators -/

section Operators
variable {site : Site} {x y : Expr} {op : BinaryOp}

theorem keeps_binary (hx : Keeps c fn vars x k) (hy : Keeps c fn vars y k')
    (hkx : c.kindOf x = some k) (hky : c.kindOf y = some k') (hk : k.isWord = true)
    (hk' : k'.isWord = true) (hop : op.isLogical = false)
    (hfit : y.widens c (some k) = true) :
    Keeps c fn vars (.binary site (.known op) x y) (op.resultKind k) := by
  intro s ready
  rw [valueOf]
  unfold binaryValue
  rw [if_neg (by simp [BinaryOp.codedIsLogical, Coded.get?, hop])]
  refine .bind' (hx s ready) fun s₁ run₁ xv adv₁ X => ?_
  have ready₁ := adv₁.ready ready
  rw [X.shows.type]
  refine .bind' (hy s₁ ready₁) fun s₂ run₂ yv adv₂ Y => ?_
  have ready₂ := adv₂.ready ready₁
  rw [isUnsignedAt_eq hkx, isUnsignedAt_eq hky]
  refine .bind' (performs_convert ready₂ hk' Y.shows _ (Y.fits hky hfit)) ?_
  rintro s₃ run₃ yv' adv₃ ⟨-, -, hconv⟩
  refine (performs_onIntegers (adv₃.ready ready₂) hop hk X.shows.type).mono ?_
  rintro s₄ run₄ v adv₄ ⟨hv, hfresh, hrun⟩
  refine ⟨hv, fun w n he => absurd he (hfresh w n), fun m held n held' hs he => ?_⟩
  rw [Expr.eval_binary _ _ _ _ hop, hkx] at he
  simp only [Option.bind_eq_bind, Option.bind_some, Option.bind_eq_some_iff] at he
  obtain ⟨⟨a, held₁⟩, ha, ⟨b, held₂⟩, hb, r, hr, ⟨⟩⟩ := he
  obtain ⟨m₁, hrun₁, hread₁, hA, hs₁⟩ := X.runs m held a held₁ hs ha
  obtain ⟨m₂, hrun₂, hread₂, hB, hs₂⟩ := Y.runs m₁ held₁ b _ hs₁ hb
  obtain ⟨m₃, hrun₃, hcells₃, hread₃⟩ := hconv m₂ b hread₂ hB
  -- The right operand leaves the left one as it is.
  have hleft : m₃.read fn xv = some (k.word a) := by
    rw [adv₃.read hrun₃ (X.shows.mono adv₂).made, adv₂.read hrun₂ X.shows.made, hread₁]
  obtain ⟨hR, m₄, hrun₄, hcells₄, hread₄⟩ :=
    hrun m₃ a _ _ hleft hread₃ hA (Scalar.wrap_wrap k b) hr
  refine ⟨m₄, by simp [hrun₁, hrun₂, hrun₃, hrun₄], hread₄, hR, ?_⟩
  exact (adv₃.trans adv₄).stores.mpr (hs₂.congr (hcells₄.trans hcells₃))

/-- What an instruction computes from the value of an operand is the value of an expression. -/
theorem Yields.then {e : Expr} {inst : Ir.Inst} {xv : Ir.Value}
    (X : Yields c fn vars x k s s₁ run xv) (adv : Advance c fn s₁ s₂ run')
    (h : Computed fn k' inst s₂ run' v)
    (he : ∀ held n held', e.eval c held = some (n, held') → ∃ a, x.eval c held = some (a, held') ∧
      k'.Holds n ∧ ∀ m : Machine, m.read fn xv = some (k.word a) →
        m.result fn none inst = some (k'.word n)) :
    Yields c fn vars e k' s s₂ (fun m => (run m).bind run') v := by
  refine ⟨h.shows, fun w n hv => absurd hv (h.fresh w n), fun m held n held' hs hn => ?_⟩
  obtain ⟨a, ha, hN, hinst⟩ := he held n held' hn
  obtain ⟨m₁, hrun₁, hread₁, -, hs₁⟩ := X.runs m held a held' hs ha
  obtain ⟨m₂, hrun₂, hcells₂, hread₂⟩ := h.runs m₁ _ (hinst m₁ hread₁)
  exact ⟨m₂, by simp [hrun₁, hrun₂], hread₂, hN, adv.stores.mpr (hs₁.congr hcells₂)⟩

theorem keeps_plus (hx : Keeps c fn vars x k) :
    Keeps c fn vars (.unary site (.known .plus) x) k := by
  intro s ready
  rw [valueOf]
  unfold unaryValue
  refine (hx s ready).mono fun s' run v _ X => ⟨X.shows, X.constant, ?_⟩
  intro m held n held' hs he
  rw [Expr.eval] at he
  exact X.runs m held n held' hs he

theorem keeps_neg (hx : Keeps c fn vars x k) (hkx : c.kindOf x = some k) :
    Keeps c fn vars (.unary site (.known .neg) x) k := by
  intro s ready
  rw [valueOf]
  unfold unaryValue
  refine .bind' (hx s ready) fun s₁ run₁ xv adv₁ X => ?_
  rw [X.shows.type]
  refine (performs_emit k (adv₁.ready ready) rfl rfl fun _ => rfl).mono fun s₂ run₂ v adv₂ hv => ?_
  refine X.then adv₂ hv fun held n held' he => ?_
  simp only [Expr.eval, hkx, Option.bind_eq_bind, Option.bind_some, Option.bind_eq_some_iff] at he
  obtain ⟨⟨a, held₁⟩, ha, ⟨⟩⟩ := he
  refine ⟨a, ha, Scalar.wrap_wrap k _, fun m hm => ?_⟩
  rw [Machine.result_arith (Machine.read_int _ _) hm, Ir.Arith.apply, Scalar.sub_bitsOf,
    Int.zero_sub, Scalar.word_wrap]
  rfl

theorem keeps_complement (hx : Keeps c fn vars x k) (hkx : c.kindOf x = some k) :
    Keeps c fn vars (.unary site (.known .complement) x) k := by
  intro s ready
  rw [valueOf]
  unfold unaryValue
  refine .bind' (hx s ready) fun s₁ run₁ xv adv₁ X => ?_
  rw [X.shows.type]
  refine (performs_emit k (adv₁.ready ready) rfl rfl fun _ => rfl).mono fun s₂ run₂ v adv₂ hv => ?_
  refine X.then adv₂ hv fun held n held' he => ?_
  simp only [Expr.eval, hkx, Option.bind_eq_bind, Option.bind_some, Option.bind_eq_some_iff] at he
  obtain ⟨⟨a, held₁⟩, ha, ⟨⟩⟩ := he
  refine ⟨a, ha, Scalar.wrap_wrap k _, fun m hm => ?_⟩
  rw [Machine.result_arith hm (Machine.read_int _ _), Ir.Arith.apply, Scalar.complement_bitsOf,
    Scalar.word_wrap]
  rfl

end Operators

/-! ## Tests -/

/-- What testing an expression leaves: whether it is zero, and what its code does. -/
structure Decides (c : Context) (fn : Ir.FuncId) (vars : ObjectId → Prop) (e : Expr) (k : Scalar)
    (s s' : State) (run : Effect) (v : Ir.Value) : Prop where
  shows : Shows fn s' .bool v
  constant : ∀ w x, v = .int w x → e.constant? c = some x ∧ k = .bool
  runs : ∀ m held n held', Stores c fn vars s m held → e.eval c held = some (n, held') →
    ∃ m', run m = some m' ∧ m'.read fn v = some (Scalar.bool.word (bitNumber (n ≠ 0))) ∧
      Stores c fn vars s' m' held'

theorem Keeps.decides {e : Expr} (h : Keeps c fn vars e k) (hk : k.isWord = true)
    (ready : Ready c fn vars s) :
    Performs c fn s (valueOf c e >>= truth e) (Decides c fn vars e k s) := by
  refine .bind' (h s ready) fun s₁ run₁ v adv₁ V => ?_
  refine (performs_truth e (adv₁.ready ready) hk V.shows).mono ?_
  rintro s₂ run₂ v' adv₂ ⟨hshow, hconst, hrun⟩
  refine ⟨hshow, fun w x he => ?_, fun m held n held' hs hn => ?_⟩
  · obtain ⟨rfl, rfl⟩ := hconst w x he
    exact ⟨V.constant _ _ rfl, rfl⟩
  · obtain ⟨m₁, hrun₁, hread₁, hN, hs₁⟩ := V.runs m held n held' hs hn
    obtain ⟨m₂, hrun₂, hcells₂, hread₂⟩ := hrun m₁ n hread₁ hN
    exact ⟨m₂, by simp [hrun₁, hrun₂], hread₂, adv₂.stores.mpr (hs₁.congr hcells₂)⟩

section Tests
variable {site : Site} {x y : Expr} {op : BinaryOp}

theorem keeps_not (hx : Keeps c fn vars x k) (hk : k.isWord = true) :
    Keeps c fn vars (.unary site (.known .not) x) .bool := by
  intro s ready
  rw [valueOf]
  unfold unaryValue
  simp only
  rw [← bind_assoc]
  refine .bind' (hx.decides hk ready) fun s₁ run₁ t adv₁ T => ?_
  refine (performs_emit .bool (adv₁.ready ready) rfl rfl fun _ => rfl).mono
    fun s₂ run₂ v adv₂ hv => ?_
  refine ⟨hv.shows, fun w n he => absurd he (hv.fresh w n), fun m held n held' hs he => ?_⟩
  simp only [Expr.eval, Option.bind_eq_bind, Option.bind_eq_some_iff] at he
  obtain ⟨⟨a, held₁⟩, ha, ⟨⟩⟩ := he
  obtain ⟨m₁, hrun₁, hread₁, hs₁⟩ := T.runs m held a _ hs ha
  have hflip : Ir.Arith.xor.apply (Scalar.bool.bitsOf (bitNumber (a ≠ 0))) (Scalar.bool.bitsOf 1) =
      some (Scalar.bool.bitsOf (bitNumber (a = 0))) := by
    by_cases hz : a = 0 <;> simp only [hz, ne_eq] <;> rfl
  obtain ⟨m₂, hrun₂, hcells₂, hread₂⟩ := hv.arith hread₁ (Machine.read_int 1 1) hflip
  exact ⟨m₂, by simp [hrun₁, hrun₂], hread₂, Scalar.holds_bitNumber _,
    adv₂.stores.mpr (hs₁.congr hcells₂)⟩

theorem keeps_cast {r : TypeRef} (hx : Keeps c fn vars x k) (hkx : c.kindOf x = some k)
    (hk : k.isWord = true) (hr : c.kindOfRef r = some k') (hk' : k'.isWord = true)
    (hfit : x.widens c (some k') = true) : Keeps c fn vars (.cast site x (some r)) k' := by
  intro s ready
  rw [valueOf]
  unfold castValue
  rw [typeOfRef_eq hr]
  refine .pure_bind' ?_
  have hstore : c.analysis.store.scalar? (c.analysis.typeOfRef r) = some k' := hr
  by_cases hbool : k' = .bool
  · subst hbool
    simp only [Store.isBoolean, hstore, Option.any_some, Scalar.isBoolean, decide_true, if_true]
    refine (hx.decides hk ready).mono fun s₁ run₁ v adv₁ T => ?_
    refine ⟨T.shows, fun w n he => ?_, fun m held n held' hs he => ?_⟩
    · obtain ⟨hn, rfl⟩ := T.constant w n he
      exact Expr.constant?_cast site hkx hr rfl hn
    · obtain ⟨a, ha, rfl⟩ := Expr.eval_cast hr he
      obtain ⟨m₁, hrun₁, hread₁, hs₁⟩ := T.runs m held a held' hs ha
      exact ⟨m₁, hrun₁, hread₁, Scalar.holds_bitNumber _, hs₁⟩
  · have hbool' : k'.isBoolean = false := decide_eq_false hbool
    simp only [Store.isBoolean, hstore, Option.any_some, hbool', Bool.false_eq_true, if_false]
    refine .bind' (hx s ready) fun s₁ run₁ v adv₁ X => ?_
    have ready₁ := adv₁.ready ready
    unfold convertTo
    refine .bind' (performs_instructionType ready₁.mapped hstore) ?_
    rintro s₂ run₂ t adv₂ ⟨rfl, rfl⟩
    rw [scalarType_eq hk', isUnsignedAt_eq hkx]
    refine (performs_convert (adv₂.ready ready₁) hk (X.shows.mono adv₂) _ (X.fits hkx hfit)).mono ?_
    rintro s₃ run₃ v' adv₃ ⟨hshow, hfold, hconv⟩
    refine ⟨hshow, fun w n he => ?_, fun m held n held' hs he => ?_⟩
    · obtain ⟨rfl, hf⟩ := hfold w n he
      exact Expr.constant?_cast site hkx hr hf (X.constant _ _ rfl)
    · obtain ⟨a, ha, rfl⟩ := Expr.eval_cast hr he
      obtain ⟨m₁, hrun₁, hread₁, hA, hs₁⟩ := X.runs m held a held' hs ha
      obtain ⟨m₃, hrun₃, hcells₃, hread₃⟩ := hconv m₁ a hread₁ hA
      have hcast : k'.cast a = k'.wrap a := by simp [Scalar.cast, hbool']
      rw [hcast]
      exact ⟨m₃, by simp [hrun₁, hrun₃], hread₃, Scalar.wrap_wrap k' a,
        (adv₂.trans adv₃).stores.mpr (hs₁.congr hcells₃)⟩

/-- A short-circuit operator succeeds if its operands do. -/
theorem shortCircuit_ok {isAnd : Bool} {left right : Lower Ir.Value} {xt yt : Ir.Value}
    {start finish : Ir.Label} (hx : (left >>= truth x) s = .ok xt s₁)
    (hs : s₁.body.cursor = some start)
    (hy : (right >>= truth y) (s₁.setBody (s₁.body.fork isAnd xt)) = .ok yt s₂)
    (hf : s₂.body.cursor = some finish) :
    shortCircuit isAnd x y left right s = .ok (.computed s₂.body.fn s₂.body.lineCount (.int 1))
      (s₂.setBody ((s₂.body.rejoin (s₁.body.joinLabel isAnd)).emit
        (Body.joined isAnd start finish yt) (.int 1))) := by
  obtain ⟨yv, s₃, hyv, hyt⟩ := bind_eq_ok.mp hy
  unfold shortCircuit
  rw [← bind_assoc, bind_eq_ok]
  refine ⟨xt, s₁, hx, ?_⟩
  simp only [bind_eq_ok, cursor_eq_ok, openBlock_bind_apply, terminate_eq_ok,
    moveTo_bind_apply, emit, emitAt_cursor_eq_ok]
  refine ⟨start, s₁, ⟨hs, rfl⟩, (), _, ⟨?_, rfl⟩, yv, s₃, hyv, yt, s₂, hyt, finish, s₂, ⟨hf, rfl⟩,
    (), _, ⟨?_, rfl⟩, ?_, ?_, rfl⟩
  · simp [hs]
  · simp [hf]
  · rfl
  · simp [Body.goto]

theorem Ready.fork (ready : Ready c fn vars s) (isAnd : Bool) (v : Ir.Value) :
    Ready c fn vars (s.setBody (s.body.fork isAnd v)) :=
  ⟨(Body.Kept.fork _ _ _).fn.trans ready.here, rfl, ready.mapped, ready.slots, ready.apart⟩

theorem keeps_logical (hx : Keeps c fn vars x k) (hy : Keeps c fn vars y k')
    (hk : k.isWord = true) (hk' : k'.isWord = true) (hop : op.isLogical = true) :
    Keeps c fn vars (.binary site (.known op) x y) .bool := by
  intro s ready
  rw [valueOf]
  unfold binaryValue
  rw [if_pos (by simp [BinaryOp.codedIsLogical, Coded.get?, hop])]
  have hand : decide (Coded.known op = .known .condAnd) = decide (op = .condAnd) := by simp
  rw [hand]
  have heval := Expr.eval_logical c site x y hop
  generalize hisAnd : decide (op = .condAnd) = isAnd at heval ⊢
  obtain ⟨xt, s₁, run₁, hxt, adv₁, X⟩ := hx.decides hk ready
  have ready₁ := adv₁.ready ready
  obtain ⟨yt, s₂, run₂, hyt, adv₂, Y⟩ := hy.decides hk' (ready₁.fork isAnd xt)
  obtain ⟨start, hstart⟩ := Option.isSome_iff_exists.mp ready₁.live
  have ready₂ := adv₂.ready (ready₁.fork isAnd xt)
  obtain ⟨finish, hfinish⟩ := Option.isSome_iff_exists.mp ready₂.live
  obtain ⟨code₁, g₁, rfl⟩ := adv₁.code
  obtain ⟨code₂, g₂, rfl⟩ := adv₂.code
  refine ⟨_, _, _, shortCircuit_ok hxt hstart hyt hfinish,
    ⟨⟨_, .seq g₁ (.decide isAnd hstart trivial g₂ hfinish trivial), rfl⟩,
      adv₂.values.trans adv₁.values, adv₂.mapped ∘ adv₁.mapped⟩, ?_⟩
  rw [ready₂.here]
  refine ⟨⟨rfl, fun id t he => ?_⟩, fun w n he => Ir.Value.noConfusion he, ?_⟩
  · rw [← (Ir.Value.computed.inj he).2.1]
    simp [Body.rejoin, Body.emit, Body.goto, Body.addLine]
  intro m held n held' hs he
  rw [heval] at he
  simp only [Option.bind_eq_bind, Option.bind_eq_some_iff] at he
  obtain ⟨⟨a, held₁⟩, ha, he⟩ := he
  obtain ⟨m₁, hrun₁, hread₁, hs₁⟩ := X.runs m held a held₁ hs ha
  have htrue : ∀ b, (Scalar.bool.word (bitNumber b)).isTrue = b := fun b => by
    rw [Scalar.word_bool, Word.isTrue_ofBool]
  split at he
  · -- The right operand is evaluated, in its own block.
    rename_i hopen
    simp only [Option.bind_eq_some_iff] at he
    obtain ⟨⟨b, held₂⟩, hb, ⟨⟩⟩ := he
    obtain ⟨m₂, hrun₂, hread₂, hs₂⟩ := Y.runs m₁ held₁ b _ hs₁ hb
    refine ⟨m₂.setResult s₂.body.lineCount (Scalar.bool.word (bitNumber (b ≠ 0))), ?_,
      Machine.read_setResult_self _ _ _, Scalar.holds_bitNumber _, hs₂.congr rfl⟩
    rw [Code.exec, hrun₁]
    exact Code.exec_decide_open hread₁ ((htrue _).trans hopen) hrun₂ hread₂
  · rename_i hdecided
    cases he
    refine ⟨m₁.setResult s₂.body.lineCount (Word.ofBool !isAnd), ?_, ?_,
      Scalar.holds_bitNumber _, ?_⟩
    · rw [Code.exec, hrun₁]
      exact Code.exec_decide_decided hread₁ (by rwa [htrue])
    · rw [Machine.read_setResult_self, Scalar.word_bool, ← hisAnd]
      simp
    · have hs₁' : Stores c fn vars (s₁.setBody (s₁.body.fork isAnd xt)) m₁ held₁ := hs₁
      exact (adv₂.stores.mpr hs₁').congr rfl

end Tests

/-! ## Expressions of the fragment -/

/-- Lowering keeps the meaning of every expression on integers and truth values. -/
theorem keeps_valueOf {e : Expr} (h : e.Typed c vars k) (hint : e.intact c = true) :
    Keeps c fn vars e k := by
  induction h with
  | intLit hkind hk hn => exact keeps_intLit hkind hk hn
  | boolLit => exact keeps_boolLit _
  | varRef hres hx hkx hk => exact keeps_varRef hres hx hkx hk _
  | assign ht hv _ _ _ ih =>
    simp only [Expr.intact, ht.kind, Bool.and_eq_true] at hint
    cases ht with
    | varRef hres hx hkx hk _ hkt =>
      exact keeps_assign (ih hint.1) hv.kind hv.isWord hres hx hkx hk hkt hint.2
  | binary hx hy _ hop _ ihx ihy =>
    simp only [Expr.intact, BinaryOp.codedIsLogical, Coded.get?, Option.any_some, hop, hx.kind,
      Bool.false_or, Bool.and_eq_true] at hint
    obtain ⟨⟨hix, hiy⟩, hfit⟩ := hint
    exact keeps_binary (ihx hix) (ihy hiy) hx.kind hy.kind hx.isWord hy.isWord hop hfit
  | logical hx hy hop _ ihx ihy =>
    simp only [Expr.intact, Bool.and_eq_true] at hint
    exact keeps_logical (ihx hint.1.1) (ihy hint.1.2) hx.isWord hy.isWord hop
  | plus _ _ ih => exact keeps_plus (ih hint)
  | neg hx _ ih => exact keeps_neg (ih hint) hx.kind
  | not hx _ ih => exact keeps_not (ih hint) hx.isWord
  | complement hx _ _ ih => exact keeps_complement (ih hint) hx.kind
  | cast hx hr hk' _ ih =>
    simp only [Expr.intact, Option.bind_some, hr, Bool.and_eq_true] at hint
    exact keeps_cast (ih hint.1) hx.kind hx.isWord hr hk' hint.2

end Lower

open Lower in
/-- Lowering an expression on integers and truth values succeeds. Wherever its blocks end up, a run
    that comes to the place before it, and finds in the stack slots what the variables hold, comes
    to the place after it; there the value is what evaluation gives, and the stack slots hold what
    the variables hold then. -/
theorem valueOf_preserves (c : Context) (fn : Ir.FuncId) (vars : ObjectId → Prop) (e : Expr)
    (k : Scalar) (s : State) (pending : List Ir.Label) (typed : e.Typed c vars k)
    (intact : e.intact c = true) (ready : Ready c fn vars s) (shaped : Shaped pending s.body) :
    ∃ v s', valueOf c e s = .ok v s' ∧ Ready c fn vars s' ∧ Shaped pending s'.body ∧
      ∀ blocks, Held s'.body blocks none → ∀ f : Frame, Stands blocks s.body f.point →
        ∀ held n held', Stores c fn vars s f.machine held → e.eval c held = some (n, held') →
          k.Holds n ∧ ∃ g : Frame, f.Reaches fn blocks g ∧ Stands blocks s'.body g.point ∧
            g.machine.read fn v = some (k.word n) ∧ Stores c fn vars s' g.machine held' := by
  obtain ⟨v, s', run, hok, adv, hv⟩ := keeps_valueOf typed intact s ready
  obtain ⟨code, g, rfl⟩ := adv.code
  refine ⟨v, s', hok, adv.ready ready, (g.shaped shaped).1, ?_⟩
  intro blocks hF f hf held n held' hs he
  obtain ⟨m', hrun, hread, hn, hs'⟩ := hv.runs f.machine held n held' hs he
  obtain ⟨f', hreach, hstands, rfl⟩ := g.comes shaped hF hf hrun
  exact ⟨hn, f', hreach, hstands, hread, hs'⟩

/-- A `u8` named `x` and an `i32` named `y`. -/
def wrapContext : Context where
  analysis :=
    { store :=
        { objects := #[{ name := "x", type := .scalar .u8, kind := .variable {} },
            { name := "y", type := .scalar .i32, kind := .variable {} }] }
      facts :=
        { types := [(some 1, .scalar .bool), (some 2, .scalar .bool), (some 3, .scalar .u8),
            (some 4, .scalar .u8), (some 5, .scalar .bool), (some 6, .scalar .i32),
            (some 7, .scalar .i32), (some 8, .scalar .u8), (some 9, .scalar .i32)]
          definitions := [(some 3, 0), (some 7, 1), (some 8, 0)] } }
  config := {}

/-- The test `x++ == 255 && (y = x) == 0`. -/
def wrapTest : Expr :=
  .binary { id := 1 } (.known .condAnd)
    (.binary { id := 2 } (.known .eql) (.varRef { id := 3 } "x" (.known .postInc))
      (.intLit { id := 4 } 255))
    (.binary { id := 5 } (.known .eql)
      (.assign { id := 6 } (.varRef { id := 7 } "y" (.known .none))
        (.varRef { id := 8 } "x" (.known .none)))
      (.intLit { id := 9 } 0))

/-- The variables have stack slots, and the function is still empty. -/
def wrapState : State where
  values := [(0, .computed 0 0 (.pointer (.int 8))), (1, .computed 0 1 (.pointer (.int 32)))]
  body := (Body.addVarsLine { fn := 0 } (.alloca (.int 8) none) (.pointer (.int 8))).addVarsLine
    (.alloca (.int 32) none) (.pointer (.int 32))

/-- The variable `x` holds 255 and `y` holds 7. -/
def wrapMachine : Machine where
  results _ := none
  cells id := [Scalar.u8.word 255, Scalar.i32.word 7][id]?

theorem wrapTest_typed : wrapTest.Typed wrapContext (· < 2) .bool := by
  have x₁ : Expr.Typed wrapContext (· < 2) (.varRef { id := 3 } "x" (.known .postInc)) .u8 :=
    .varRef (v := 0) rfl (by decide) rfl rfl (by decide) rfl
  have x₂ : Expr.Typed wrapContext (· < 2) (.varRef { id := 8 } "x" (.known .none)) .u8 :=
    .varRef (v := 0) rfl (by decide) rfl rfl (by decide) rfl
  have y : Expr.Typed wrapContext (· < 2) (.varRef { id := 7 } "y" (.known .none)) .i32 :=
    .varRef (v := 1) rfl (by decide) rfl rfl (by decide) rfl
  have top : Expr.Typed wrapContext (· < 2) (.intLit { id := 4 } 255) .u8 :=
    .intLit rfl rfl (by decide)
  have zero : Expr.Typed wrapContext (· < 2) (.intLit { id := 9 } 0) .i32 :=
    .intLit rfl rfl (by decide)
  exact .logical (.binary x₁ top (by decide) rfl rfl)
    (.binary (.assign y x₂ (by decide) rfl) zero (by decide) rfl rfl) rfl rfl

open Lower in
theorem wrapState_ready : Ready wrapContext 0 (· < 2) wrapState := by
  refine ⟨rfl, rfl, fun _ _ _ h => (nomatch h), ?_, ?_⟩
  · intro v k hv hk
    match v with
    | 0 => cases hk; exact ⟨0, rfl⟩
    | 1 => cases hk; exact ⟨1, rfl⟩
  · intro v v' id t t' hv hv' h h'
    match v, v' with
    | 0, 0 | 1, 1 => rfl
    | 0, 1 => cases h; cases h'
    | 1, 0 => cases h; cases h'

theorem wrapState_shaped : Shaped [] wrapState.body := by
  have grows : GrowsBy { fn := 0 } (.seq .nil .nil) wrapState.body :=
    .seq (.vars _ rfl fun _ _ => trivial) (.vars _ rfl fun _ _ => trivial)
  exact (grows.shaped (shaped_start 0 none .missing)).1

open Lower in
theorem valueOf_preserves_wrapTest : ∃ v s' final,
    valueOf wrapContext wrapTest wrapState = .ok v s' ∧
    Ir.findBlock (s'.body.finish (.ret none)).blocks 1 = some final ∧ ∃ g : Frame,
      Frame.Reaches 0 (s'.body.finish (.ret none)).blocks
        ⟨entryLabel, none, final.lines, final.term, wrapMachine⟩ g ∧
      g.machine.read 0 v = some (Scalar.bool.word 1) ∧
      g.machine.cells 0 = some (Scalar.u8.word 0) ∧
      g.machine.cells 1 = some (Scalar.i32.word 0) := by
  refine ⟨_, _, _, rfl, rfl, ?_⟩
  obtain ⟨v, s', hok, -, shaped, hruns⟩ := valueOf_preserves wrapContext 0 (· < 2) wrapTest .bool
    wrapState [] wrapTest_typed rfl wrapState_ready wrapState_shaped
  cases hok
  have hstores : Stores wrapContext 0 (· < 2) wrapState wrapMachine
      fun v => if v = 0 then 255 else 7 := by
    intro v k id t hv hk hl
    match v with
    | 0 => cases hk; cases hl; exact ⟨rfl, rfl⟩
    | 1 => cases hk; cases hl; exact ⟨rfl, rfl⟩
  obtain ⟨-, g, hreach, -, hread, hcells⟩ := hruns _ (.finish shaped _) ⟨_, _, _, _, wrapMachine⟩
    ⟨entryLabel, { label := entryLabel }, _, rfl, rfl, rfl, rfl, rfl, rfl⟩ _ 1 _ hstores rfl
  exact ⟨g, hreach, hread, (hcells 0 .u8 0 _ (by decide) rfl rfl).2,
    (hcells 1 .i32 1 _ (by decide) rfl rfl).2⟩

/-- Types for `(i32)(i8)255`, whose number is a `u8`. -/
def widenContext : Context where
  analysis :=
    { store := {}
      facts :=
        { types := [(some 1, .scalar .i32), (some 2, .scalar .i8), (some 3, .scalar .u8),
            (some 4, .scalar .i32), (some 5, .scalar .i8)] } }
  config := {}

def widenCast : Expr :=
  .cast { id := 1 } (.cast { id := 2 } (.intLit { id := 3 } 255)
    (some { site := { id := 5 }, name := "i8" })) (some { site := { id := 4 }, name := "i32" })

open Lower in
theorem valueOf_misreads_constant :
    widenCast.Typed widenContext (fun _ => False) .i32 ∧
    Ready widenContext 0 (fun _ => False) {} ∧ Shaped [] ({} : State).body ∧
    (∀ held, widenCast.eval widenContext held = some (-1, held)) ∧
    ∃ v s', valueOf widenContext widenCast {} = .ok v s' ∧
      ∀ m : Machine, m.read 0 v ≠ some (Scalar.i32.word (-1)) := by
  refine ⟨?_, ?_, shaped_start 0 none .missing, fun held => rfl, _, _, rfl, fun m => ?_⟩
  · exact .cast (.cast (.intLit rfl rfl (by decide)) rfl rfl rfl) rfl rfl rfl
  · exact ⟨rfl, rfl, fun _ _ _ h => (nomatch h), fun _ _ h => h.elim, fun _ _ _ _ _ h => h.elim⟩
  · intro h
    have : (Word.mk 32 255#32) = Scalar.i32.word (-1) := Option.some.inj h
    revert this
    decide

end TreeLowering
