import Mathlib.Data.List.Forall2
import TreeLowering.Proofs.Finished
import TreeLowering.Proofs.Storage

/-!
The calls of an expression.

Lowering an expression makes one call for each call in it, arguments before their call and operands
from left to right, and passes on what the arguments were lowered to (`calls_in_order`).
Instructions are numbered in the order in which they are made, and code that is laid out in a body
appends its instructions to the blocks, each to one block, under rising numbers (`Grows.appends`).
`CallsFor` follows the calls among them along an expression. The only other calls that an expression
makes stand among the stack slots and copy string data (`OnlyCopies`).
-/
namespace TreeLowering

/-! ## Instructions of code -/

/-- The instructions of code, in the order in which they are made. -/
def Code.lines : Code → List Ir.Line
  | .nil => []
  | .line l => [l]
  | .seq first second => first.lines ++ second.lines
  | .decide _ _ right _ join => right.lines ++ [join]

/-- The labels of a body tell its blocks apart, and its cursor is at one of them. So it is whenever
    a body is in shape (`Standing.of_shaped`). -/
structure Body.Standing (b : Body) : Prop where
  labelled : Labelled b
  cursor : ∀ l, b.cursor = some l → l ∈ b.labels

/-- The instructions are added to the blocks of a body, under new and rising numbers. -/
structure Body.Appends (b : Body) (made : List Ir.Line) (b' : Body) : Prop where
  lines : b'.lines.Perm (b.lines ++ made)
  rising : made.Pairwise fun x y => x.id < y.id
  new : ∀ line ∈ made, b.lineCount ≤ line.id ∧ line.id < b'.lineCount
  count : b.lineCount ≤ b'.lineCount

namespace Body

variable {b b₁ b₂ : Body} {made made' : List Ir.Line}

@[simp] theorem fork_labels (b : Body) (isAnd : Bool) (left : Ir.Value) :
    (b.fork isAnd left).labels = b.labels ++ [b.rightLabel isAnd, b.joinLabel isAnd] := by
  simp [fork, rightLabel, joinLabel]

@[simp] theorem rejoin_labels (b : Body) (done : Ir.Label) : (b.rejoin done).labels = b.labels := by
  simp [rejoin]

namespace Standing

/-- A body in shape stands. -/
theorem of_shaped {pending : List Ir.Label} (hs : Shaped pending b) (hl : Labelled b) :
    b.Standing := by
  refine ⟨hl, fun l hc => ?_⟩
  obtain ⟨-, block, hb, rfl, -⟩ := hs.cursor l hc
  exact List.mem_map_of_mem (Ir.findBlock_mem hb)

theorem emit (h : b.Standing) (inst : Ir.Inst) (type : Ir.Ty) : (b.emit inst type).Standing :=
  ⟨h.labelled.emit inst type, by simpa using h.cursor⟩

theorem fork (h : b.Standing) (isAnd : Bool) (left : Ir.Value) : (b.fork isAnd left).Standing := by
  refine ⟨(((h.labelled.addBlock _).addBlock _).finish _).goto _, fun l hl => ?_⟩
  obtain rfl : b.rightLabel isAnd = l := Option.some.inj hl
  simp

theorem rejoin (h : b.Standing) {done : Ir.Label} (hd : done ∈ b.labels) :
    (b.rejoin done).Standing := by
  refine ⟨(h.labelled.finish _).goto _, fun l hl => ?_⟩
  obtain rfl : done = l := Option.some.inj hl
  simpa using hd

end Standing

namespace Appends

theorem of_lines_eq (hl : b₁.lines = b.lines) (hc : b.lineCount ≤ b₁.lineCount) :
    b.Appends [] b₁ :=
  ⟨by rw [hl, List.append_nil], .nil, by simp, hc⟩

theorem trans (h₁ : b.Appends made b₁) (h₂ : b₁.Appends made' b₂) :
    b.Appends (made ++ made') b₂ := by
  refine ⟨?_, ?_, ?_, Nat.le_trans h₁.count h₂.count⟩
  · rw [← List.append_assoc]
    exact h₂.lines.trans (h₁.lines.append_right _)
  · refine List.pairwise_append.mpr ⟨h₁.rising, h₂.rising, fun x hx y hy => ?_⟩
    exact Nat.lt_of_lt_of_le (h₁.new x hx).2 (h₂.new y hy).1
  · intro line hm
    have := h₁.count
    have := h₂.count
    rcases List.mem_append.mp hm with hm | hm
    · have := h₁.new line hm
      omega
    · have := h₂.new line hm
      omega

/-- An instruction is added to the block of the cursor only. -/
theorem emit (hs : b.Standing) (hc : b.cursor.isSome) (inst : Ir.Inst) (type : Ir.Ty) :
    b.Appends [⟨b.lineCount, inst, type⟩] (b.emit inst type) := by
  obtain ⟨l, hl⟩ := Option.isSome_iff_exists.mp hc
  have he : b.emit inst type = b.addLine l inst type := by simp [Body.emit, hl]
  have nodup : (b.blocks.map fun block => block.label.id).Nodup := by
    simpa [labels, Function.comp_def] using hs.labelled.nodup
  have here : l.id ∈ b.blocks.map fun block => block.label.id := by
    simpa [labels] using List.mem_map_of_mem (f := Ir.Label.id) (hs.cursor l hl)
  have added := Ir.lines_append l ⟨b.lineCount, inst, type⟩ nodup
  rw [if_pos here] at added
  rw [he]
  refine ⟨added.trans (List.perm_append_singleton _ _).symm, List.pairwise_singleton _ _, ?_,
    Nat.le_succ _⟩
  intro line hm
  rw [List.mem_singleton.mp hm]
  exact ⟨Nat.le_refl _, Nat.lt_succ_self _⟩

end Appends

end Body

section
variable {Q : Ir.Value → Prop} {b b' : Body} {code : Code}

theorem Grows.labels_subset (h : Grows Q b code b') : b.labels ⊆ b'.labels := by
  induction h with
  | nil => exact List.Subset.refl _
  | seq _ _ ih₁ ih₂ => exact List.Subset.trans ih₁ ih₂
  | vars _ _ _ => exact List.Subset.refl _
  | line _ _ _ _ _ => simp
  | decide _ _ _ _ _ _ ih =>
    rw [Body.fork_labels] at ih
    simpa using List.Subset.trans (List.subset_append_left _ _) ih

/-- Code appends its instructions, in their order. -/
theorem Grows.appends (h : Grows Q b code b') (hs : b.Standing) :
    b.Appends code.lines b' ∧ b'.Standing := by
  induction h with
  | nil => exact ⟨.of_lines_eq rfl (Nat.le_refl _), hs⟩
  | seq _ _ ih₁ ih₂ =>
    obtain ⟨a₁, s₁⟩ := ih₁ hs
    obtain ⟨a₂, s₂⟩ := ih₂ s₁
    exact ⟨a₁.trans a₂, s₂⟩
  | vars type _ _ =>
    exact ⟨.of_lines_eq rfl (Nat.le_succ _), hs.labelled.of_labels_eq rfl (Nat.le_refl _),
      hs.cursor⟩
  | line type hc _ _ _ =>
    exact ⟨.emit hs hc _ _, hs.emit _ _⟩
  | @decide b b₁ _ x y start finish isAnd _ _ hr _ _ ih =>
    obtain ⟨right, s₁⟩ := ih (hs.fork isAnd x)
    -- The block where the operands join was made with the block of the right one.
    have joins : (b₁.rejoin (b.joinLabel isAnd)).Standing :=
      s₁.rejoin (hr.labels_subset (by simp))
    have first : b.Appends [] (b.fork isAnd x) :=
      .of_lines_eq (by simp [Body.fork]) (Body.Kept.fork b isAnd x).lineCount
    have last : b₁.Appends [] (b₁.rejoin (b.joinLabel isAnd)) :=
      .of_lines_eq (by simp [Body.rejoin]) (Body.Kept.rejoin b₁ _).lineCount
    have join := Body.Appends.emit joins rfl (Body.joined isAnd start finish y) (.int 1)
    have count : (b₁.rejoin (b.joinLabel isAnd)).lineCount = b₁.lineCount := by
      simp [Body.rejoin, Body.goto]
    rw [count] at join
    exact ⟨first.trans (right.trans (last.trans join)), joins.emit _ _⟩

/-- Instructions among the stack slots are no instructions of code. -/
theorem Grows.addVarsLines (lines : List Ir.Line)
    (ids : lines.map Ir.Line.id = List.range' b.lineCount lines.length)
    (plain : ∀ line ∈ lines, line.inst.isPhi = false) :
    ∃ code, GrowsBy b code (b.addVarsLines lines) ∧ code.lines = [] := by
  induction lines generalizing b with
  | nil => exact ⟨.nil, by simpa [Body.addVarsLines] using Grows.nil b, rfl⟩
  | cons line lines ih =>
    simp only [List.map_cons, List.length_cons, List.range'_succ, List.cons.injEq] at ids
    obtain ⟨code, hg, hl⟩ := ih (b := b.addVarsLine line.inst line.type) ids.2
      fun line' hm => plain line' (List.mem_cons_of_mem _ hm)
    refine ⟨.seq .nil code, ?_, hl⟩
    have hline : (⟨b.lineCount, line.inst, line.type⟩ : Ir.Line) = line := by rw [← ids.1]
    rw [Body.addVarsLine_eq, hline, Body.addVarsLines_addVarsLines] at hg
    have first : GrowsBy b .nil (b.addVarsLine line.inst line.type) :=
      .vars line.type (plain line List.mem_cons_self) fun _ _ => trivial
    rw [Body.addVarsLine_eq, hline] at first
    exact .seq first hg

end

/-! ## Calls of an expression -/

/-- A call in the source. -/
structure Call where
  site : Site
  name : String
  args : List Expr

mutual

/-- The calls of an expression, arguments before their call and operands from left to right. -/
def Expr.calls : Expr → List Call
  | .call site name args => Expr.callsAll args ++ [⟨site, name, args⟩]
  | .structLit _ _ args | .arrayLit _ args => Expr.callsAll args
  | .selector _ x _ _ | .unary _ _ x | .cast _ x _ => x.calls
  | .index _ x y | .assign _ x y | .binary _ _ x y => x.calls ++ y.calls
  | .absent | .varRef _ _ _ | .arrayAlloc _ _ _ | .intLit _ _ | .floatLit _ _ | .boolLit _ _
  | .stringLit _ _ => []

/-- The calls of some expressions. -/
def Expr.callsAll : List Expr → List Call
  | [] => []
  | e :: es => e.calls ++ Expr.callsAll es

end

theorem Expr.calls_leftToRight : Lower.LeftToRight Expr.calls Expr.callsAll := by
  constructor <;> intros <;> simp [Expr.calls, Expr.callsAll]

/-- What a call of a variable calls: the function that it is bound to, or what an instruction loads
    from its place. -/
inductive CalleeOf (fn : Ir.FuncId) (made : List Ir.Line) (place : Ir.Value) : Ir.Value → Prop
  | function : place.isFunc = true → CalleeOf fn made place place
  | loaded {load : Ir.Line} : place.isFunc = false → load ∈ made →
    load.inst = .load load.type place → CalleeOf fn made place (.computed fn load.id load.type)

/-- The values are what the arguments of a call were lowered to on the way from `s` to `s'`: from
    the state `before` on the callee was found and then the arguments were lowered, by the
    instructions right before the one that calls. -/
def Call.Passes (c : Context) (s s' : State) (made : List Ir.Line) (call : Call) (line : Ir.Line)
    (callee : Ir.Value) (args : List Ir.Value) : Prop :=
  ∃ before found after params code, Calm s before ∧ before.body.fn = s.body.fn ∧
    Lower.callTarget c call.site call.name call.args.length before = .ok (callee, params) found ∧
    Lower.arguments c params call.args found = .ok args after ∧ Calm after s' ∧
    GrowsBy before.body code after.body ∧ line.id = after.body.lineCount ∧
    code.lines ++ [line] <:+: made

/-- The instruction calls the variable that the call names, with the arguments of the call. -/
def Call.LoweredTo (c : Context) (s s' : State) (made : List Ir.Line) (call : Call)
    (line : Ir.Line) : Prop :=
  ∃ v place callee args, c.analysis.resolve call.name (some call.site) = some v ∧
    s.values.lookup v = some place ∧ CalleeOf s.body.fn made place callee ∧
    line.inst = .call callee args ∧ args.length = call.args.length ∧
    call.Passes c s s' made line callee args

theorem CalleeOf.mono {fn : Ir.FuncId} {made made' : List Ir.Line} {place callee : Ir.Value}
    (h : CalleeOf fn made place callee) (hm : made ⊆ made') : CalleeOf fn made' place callee := by
  cases h with
  | function hf => exact .function hf
  | loaded hf hl hi => exact .loaded hf (hm hl) hi

section
variable {c : Context} {s s₁ s₂ s' : State} {made made' : List Ir.Line} {call : Call}
  {line : Ir.Line} (first : Calm s s₁) (hfn : s₁.body.fn = s.body.fn) (last : Calm s₂ s')
  (hm : made <:+: made')
include first hfn last hm

theorem Call.Passes.mono {callee : Ir.Value} {args : List Ir.Value}
    (h : call.Passes c s₁ s₂ made line callee args) : call.Passes c s s' made' line callee args := by
  obtain ⟨before, found, after, params, code, calm, hfn', htarget, hargs, calm', hg, hid, hin⟩ := h
  exact ⟨before, found, after, params, code, first.trans calm, hfn'.trans hfn, htarget, hargs,
    calm'.trans last, hg, hid, hin.trans hm⟩

/-- What was lowered on a part of the way was lowered on the whole of it. -/
theorem Call.LoweredTo.mono (h : call.LoweredTo c s₁ s₂ made line) :
    call.LoweredTo c s s' made' line := by
  obtain ⟨v, place, callee, args, hres, hl, hc, hi, hlen, passes⟩ := h
  exact ⟨v, place, callee, args, hres, first.values ▸ hl, hfn ▸ hc.mono hm.subset, hi, hlen,
    passes.mono first hfn last hm⟩

end

/-- The calls among some instructions. -/
def Ir.callsIn (lines : List Ir.Line) : List Ir.Line := lines.filter fun line => line.inst.isCall

theorem Ir.callsIn_append (xs ys : List Ir.Line) :
    Ir.callsIn (xs ++ ys) = Ir.callsIn xs ++ Ir.callsIn ys := List.filter_append _ _

/-- The body grows by code whose calls are the given ones, in this order. -/
structure CallsFor (c : Context) (calls : List Call) (s s' : State) : Prop where
  calm : Calm s s'
  code : ∃ code, GrowsBy s.body code s'.body ∧
    List.Forall₂ (Call.LoweredTo c s s' code.lines) calls (Ir.callsIn code.lines)

namespace CallsFor

variable {c : Context} {calls calls' : List Call} {s s' s₁ s₂ : State}

/-- Code without calls. -/
theorem none {code : Code} (calm : Calm s s') (hg : GrowsBy s.body code s'.body)
    (hc : Ir.callsIn code.lines = []) : CallsFor c [] s s' :=
  ⟨calm, code, hg, hc ▸ .nil⟩

theorem of_still (h : Lower.Still s s') : CallsFor c [] s s' :=
  .none h.2 (by rw [h.1]; exact .nil _) rfl

theorem trans (h₁ : CallsFor c calls s s₁) (h₂ : CallsFor c calls' s₁ s₂) :
    CallsFor c (calls ++ calls') s s₂ := by
  obtain ⟨code₁, g₁, f₁⟩ := h₁.code
  obtain ⟨code₂, g₂, f₂⟩ := h₂.code
  refine ⟨h₁.calm.trans h₂.calm, .seq code₁ code₂, .seq g₁ g₂, ?_⟩
  rw [Code.lines, Ir.callsIn_append]
  refine List.rel_append (f₁.imp fun _ _ h => ?_) (f₂.imp fun _ _ h => ?_)
  · exact h.mono (.refl s) rfl h₂.calm (List.prefix_append _ _).isInfix
  · exact h.mono h₁.calm g₁.kept.fn (.refl s₂) (List.suffix_append _ _).isInfix

end CallsFor

namespace Lower

variable {c : Context} {s s' : State}

instance : Recording (CallsFor c) where
  refl s := .none (.refl s) (.nil _) rfl
  trans := CallsFor.trans

theorem callsFor_emit {inst : Ir.Inst} (type : Ir.Ty) (h : inst.isOperation = true) :
    Always (Quiet (CallsFor c)) (emit inst type) := by
  intro s v s' hr
  obtain ⟨hc, -, rfl⟩ := emitAt_cursor_eq_ok.mp hr
  simp only [Ir.Inst.isOperation, Bool.not_eq_true', Bool.or_eq_false_iff] at h
  obtain ⟨⟨ha, hp⟩, hcall⟩ := h
  exact .none (.setBody _ _) (.line type hc hp ha fun _ _ => trivial)
    (by simp [Code.lines, Ir.callsIn, hcall])

/-- The buffer of a literal is neither a join nor a call. -/
theorem buffer_plain {here : Bool} {g : Ir.GlobalId} {length : Nat} {buffer : Ir.Inst} {p q : Prop}
    (h : if here then buffer = Ir.stackBuffer length ∧ p
      else buffer = Ir.staticBuffer g length ∧ q) :
    buffer.isPhi = false ∧ buffer.isCall = false := by
  split at h <;> rw [h.1] <;> exact ⟨rfl, rfl⟩

theorem callsFor_stringValue (site : Site) (content : Bytes) :
    Always (Quiet (CallsFor c)) (stringValue c site content) := by
  intro s v s' h
  have calm : Calm s s' := (emits_stringValue (p := .free s.body.fn) c site content s v s' h rfl
    (Policy.free_covers _ _)).2.1
  obtain ⟨copy, g, buffer, _, _, _, _, _, hbuffer, -, -, -, rfl⟩ := stringValue_eq_ok h
  obtain ⟨code, hg, hl⟩ := Grows.addVarsLines (b := s.body)
    (Ir.copyLines s.body.fn s.body.lineCount copy g buffer content.length) rfl
    (by simpa [Ir.copyLines, Ir.Inst.isPhi] using (buffer_plain hbuffer).1)
  exact .none calm hg (by rw [hl]; rfl)

theorem callsFor_shortCircuit (isAnd : Bool) (x y : Expr) {left right : Lower Ir.Value}
    {calls calls' : List Call} (hl : Always (CallsFor c calls) (left >>= truth x))
    (hr : Always (CallsFor c calls') (right >>= truth y)) :
    Always (CallsFor c (calls ++ calls')) (shortCircuit isAnd x y left right) := by
  intro s v s' h
  obtain ⟨xt, s₁, start, yt, s₂, finish, hx, hs, hy, hf, -, rfl⟩ := shortCircuit_eq_ok h
  have first := hl _ _ _ hx
  have second := hr _ _ _ hy
  obtain ⟨code, hg, hcalls⟩ := second.code
  have calm : Calm s₁ (s₁.setBody (s₁.body.fork isAnd xt)) := .setBody _ _
  refine first.trans ⟨(calm.trans second.calm).trans (.setBody _ _), _,
    .decide isAnd hs trivial hg hf trivial, ?_⟩
  -- The join is no call, so the calls are those of the right operand.
  rw [Code.lines, Ir.callsIn_append]
  refine (List.append_nil (Ir.callsIn code.lines)).symm ▸ ?_
  exact hcalls.imp fun _ _ h =>
    h.mono calm (Body.Kept.fork _ isAnd xt).fn (.setBody _ _) (List.prefix_append _ _).isInfix

/-- As many values as expressions. -/
theorem arguments_length : ∀ (es : List Expr) {params : List (Ir.Ty × Bool)} {s s' : State}
    {vs : List Ir.Value}, arguments c params es s = .ok vs s' → vs.length = es.length
  | [], _, _, _, _, h => by
    unfold arguments at h
    rw [← (pure_eq_ok.mp h).1]
    rfl
  | e :: es, [], _, _, _, h => by
    unfold arguments at h
    obtain ⟨_, _, -, h⟩ := bind_eq_ok.mp h
    obtain ⟨vs, _, hvs, h⟩ := bind_eq_ok.mp h
    rw [← (pure_eq_ok.mp h).1, List.length_cons, arguments_length es hvs, List.length_cons]
  | e :: es, _ :: _, _, _, _, h => by
    unfold arguments at h
    obtain ⟨_, _, -, h⟩ := bind_eq_ok.mp h
    obtain ⟨_, _, -, h⟩ := bind_eq_ok.mp h
    obtain ⟨vs, _, hvs, h⟩ := bind_eq_ok.mp h
    rw [← (pure_eq_ok.mp h).1, List.length_cons, arguments_length es hvs, List.length_cons]

/-- A callee is found without a call. -/
theorem callTarget_eq_ok {site : Site} {name : String} {given : Nat}
    {target : Ir.Value × List (Ir.Ty × Bool)} (h : callTarget c site name given s = .ok target s') :
    ∃ v place code, c.analysis.resolve name (some site) = some v ∧
      s.values.lookup v = some place ∧ Calm s s' ∧ GrowsBy s.body code s'.body ∧
      Ir.callsIn code.lines = [] ∧ CalleeOf s.body.fn code.lines place target.1 := by
  obtain ⟨v, place, hres, hl, h⟩ := named_eq_ok h
  refine ⟨v, place, ?_⟩
  cases hf : place.isFunc with
  | true =>
    simp only [hf, if_true, pure_bind] at h
    obtain ⟨rfl, hcallee, -⟩ := calleeParams_eq_ok h
    refine ⟨.nil, hres, hl, .refl _, .nil _, rfl, ?_⟩
    rw [hcallee]
    exact .function hf
  | false =>
    simp only [hf, Bool.false_eq_true, if_false] at h
    obtain ⟨type, s₁, ht, h⟩ := bind_eq_ok.mp h
    obtain ⟨callee, s₂, hload, h⟩ := bind_eq_ok.mp h
    obtain ⟨hbody, calm⟩ := steady_instructionType c _ _ _ _ ht
    obtain ⟨hc, rfl, rfl⟩ := emitAt_cursor_eq_ok.mp hload
    obtain ⟨rfl, hcallee, -⟩ := calleeParams_eq_ok h
    refine ⟨.line ⟨s₁.body.lineCount, .load type place, type⟩, hres, hl,
      calm.trans (.setBody _ _), ?_, rfl, ?_⟩
    · rw [← hbody]
      exact .line type hc rfl rfl fun _ _ => trivial
    · rw [hcallee, ← hbody]
      exact .loaded hf List.mem_cons_self rfl

theorem callsFor_call (site : Site) (name : String) (args : List Expr)
    (hargs : ∀ params, Always (CallsFor c (Expr.callsAll args)) (arguments c params args)) :
    Always (CallsFor c (Expr.calls (.call site name args))) (valueOf c (.call site name args)) := by
  intro s r s' h
  unfold valueOf at h
  obtain ⟨target, s₁, h₁, h⟩ := bind_eq_ok.mp h
  obtain ⟨vs, s₂, h₂, h₃⟩ := bind_eq_ok.mp h
  obtain ⟨v, place, code₁, hres, hl, calm₁, g₁, none₁, hcallee⟩ := callTarget_eq_ok h₁
  have operands := hargs _ _ _ _ h₂
  obtain ⟨hc, -, rfl⟩ := emitAt_cursor_eq_ok.mp h₃
  obtain ⟨code₂, g₂, calls₂⟩ := operands.code
  refine ⟨(calm₁.trans operands.calm).trans (.setBody _ _), .seq (.seq code₁ code₂) _,
    .seq (.seq g₁ g₂) (.line _ hc rfl rfl fun _ _ => trivial), ?_⟩
  simp only [Code.lines, Ir.callsIn_append, none₁, List.nil_append, Expr.calls]
  refine List.rel_append (calls₂.imp fun _ _ h => ?_) (.cons ?_ .nil)
  · exact h.mono calm₁ g₁.kept.fn (.setBody _ _) (List.infix_append _ _ _)
  · refine ⟨v, place, target.1, vs, hres, hl, hcallee.mono ?_, rfl, arguments_length args h₂,
      s, s₁, s₂, target.2, .seq code₁ code₂, .refl s, rfl, h₁, h₂, .setBody _ _, .seq g₁ g₂, rfl,
      List.infix_rfl⟩
    exact List.Subset.trans (List.subset_append_left _ _) (List.subset_append_left _ _)

theorem composes_callsFor (c : Context) :
    Composes c Expr.calls Expr.callsAll (CallsFor c) := by
  have operates : Operates c (Quiet (CallsFor c)) :=
    { emit := fun _ type h => callsFor_emit type h
      slot := fun type count s v s' h => by
        obtain ⟨-, rfl⟩ := emitAt_vars_eq_ok.mp h
        exact .none (.setBody _ _) (.vars _ rfl fun _ _ => trivial) rfl
      buffer := fun content => (steady_addGlobal _ content).mono .of_still
      instructionType := fun type => (steady_instructionType c type).mono .of_still }
  exact
    { operates with
      order := Expr.calls_leftToRight
      string := callsFor_stringValue
      shortCircuit := fun isAnd x y _ _ _ _ hl hr => callsFor_shortCircuit isAnd x y
        (.bind_quiet hl fun _ => operates.truth _ _) (.bind_quiet hr fun _ => operates.truth _ _)
      call := callsFor_call }

end Lower

/-! ## Calls among the stack slots -/

/-- The calls among new stack slots only copy string data. -/
structure OnlyCopies (s s' : State) : Prop where
  memcpy : ∀ id, s.memcpy = some id → s'.memcpy = some id
  slots : ∃ lines, s'.body.vars = s.body.vars ++ lines ∧ ∀ line ∈ Ir.callsIn lines,
    ∃ copy args, s'.memcpy = some copy ∧ line.inst = .call (Ir.copyFunction.value copy) args

theorem OnlyCopies.of_bypasses {s s' : State} (h : Bypasses s s') : OnlyCopies s s' := by
  obtain ⟨lines, hv, laid⟩ := h.body.vars
  refine ⟨fun id hid => h.memcpy ▸ hid, lines, hv, fun line hm => ?_⟩
  obtain ⟨hm, hc⟩ := List.mem_filter.mp hm
  have := laid.plain (fun _ _ => False.elim) line hm
  cases hi : line.inst <;> simp_all [Ir.Inst.isPlain, Ir.Inst.isCall]

/-- The instructions for a string call nothing else than the copy intrinsic. -/
theorem Ir.copyLines_calls {fn n : Nat} {copy : Ir.FuncId} {data : Ir.GlobalId} {buffer : Ir.Inst}
    {length : Nat} (h : buffer.isCall = false) :
    ∀ line ∈ Ir.callsIn (Ir.copyLines fn n copy data buffer length),
      ∃ args, line.inst = .call (Ir.copyFunction.value copy) args := by
  intro line hm
  obtain ⟨hm, hc⟩ := List.mem_filter.mp hm
  simp only [Ir.copyLines, List.mem_cons, List.not_mem_nil, or_false] at hm
  rcases hm with rfl | rfl | rfl | rfl | rfl | rfl | rfl | rfl
  case inr.inl => simp [h] at hc
  case inr.inr.inl => exact ⟨_, rfl⟩
  all_goals cases hc

namespace Lower

instance : Lasting OnlyCopies where
  refl s := ⟨fun _ h => h, [], by simp, by simp [Ir.callsIn]⟩
  trans h₁ h₂ := by
    obtain ⟨lines₁, v₁, c₁⟩ := h₁.slots
    obtain ⟨lines₂, v₂, c₂⟩ := h₂.slots
    refine ⟨fun id hid => h₂.memcpy id (h₁.memcpy id hid), lines₁ ++ lines₂, ?_, ?_⟩
    · rw [v₂, v₁, List.append_assoc]
    · intro line hm
      rw [Ir.callsIn_append, List.mem_append] at hm
      rcases hm with hm | hm
      · obtain ⟨copy, args, hcopy, hi⟩ := c₁ line hm
        exact ⟨copy, args, h₂.memcpy copy hcopy, hi⟩
      · exact c₂ line hm

theorem onlyCopies_stringValue (c : Context) (site : Site) (content : Bytes) :
    Always OnlyCopies (stringValue c site content) := by
  intro s v s' h
  obtain ⟨copy, g, buffer, b, b', s₀, s₁, s₂, hbuffer, hcopy, hdata, -, rfl⟩ := stringValue_eq_ok h
  have same : s₀.memcpy = s.memcpy := by
    split at hbuffer
    · rw [hbuffer.2]
      rfl
    · obtain ⟨-, -, -, rfl⟩ := addGlobal_eq_ok hbuffer.2
      rfl
  have known : s₁.memcpy = some copy ∧ ∀ id, s.memcpy = some id → id = copy := by
    rw [← same]
    obtain ⟨id, hid, ⟨hm, rfl⟩ | ⟨hm, -, rfl⟩⟩ := copyIntrinsic_eq_ok hcopy
    · cases hid
      exact ⟨hm, fun id hid => Option.some.inj (hid.symm.trans hm)⟩
    · cases hid
      exact ⟨rfl, fun id hid => nomatch hid.symm.trans hm⟩
  have kept : s₂.memcpy = s₁.memcpy := by
    obtain ⟨_, -, ⟨-, rfl⟩ | ⟨-, -, _, _, -, rfl⟩⟩ := internedData_eq_ok hdata <;> rfl
  refine ⟨fun id hid => ?_, _, rfl, fun line hm => ?_⟩
  · rw [known.2 id hid, ← known.1]
    exact kept
  · obtain ⟨args, hi⟩ := Ir.copyLines_calls (buffer_plain hbuffer).2 line hm
    exact ⟨copy, args, kept.trans known.1, hi⟩

theorem records_onlyCopies (c : Context) : Records c fun _ => OnlyCopies :=
  { (touches_bypasses c).mono .of_bypasses with string := onlyCopies_stringValue c }

end Lower

open Lower

/-- An expression is lowered for its value, for its place, or for its place or else a fresh slot. -/
inductive Lowers (c : Context) (e : Expr) (s s' : State) : Prop
  | value {v : Ir.Value} : valueOf c e s = .ok v s' → Lowers c e s s'
  | place {p : Ir.Value × Ir.Ty} : placeOf c e s = .ok p s' → Lowers c e s s'
  | slot {p : Ir.Value} :
    addressOrSlot c e (valueOf c e) (placeOf c e) s = .ok p s' → Lowers c e s s'

theorem Lowers.of_composes {ε : Type} {c : Context} {g : Expr → List ε} {gs : List Expr → List ε}
    {R : List ε → State → State → Prop} [Recording R] {e : Expr} {s s' : State}
    (h : Lowers c e s s') (t : Composes c g gs R) : R (g e) s s' := by
  cases h with
  | value h => exact t.valueOf e _ _ _ h
  | place h => exact t.placeOf e _ _ _ h
  | slot h => exact t.addressOrSlot e (t.valueOf e) (t.placeOf e) _ _ _ h

/-- The calls that are made for an expression, in the order in which they are made, are those of the
    expression, with the arguments of each. All others copy string data. The body stands again,
    ready for the next one. -/
theorem calls_in_order (c : Context) (e : Expr) (s s' : State) (standing : s.body.Standing)
    (h : Lowers c e s s') :
    ∃ made, s.body.Appends made s'.body ∧
      List.Forall₂ (Call.LoweredTo c s s' made) e.calls (Ir.callsIn made) ∧ OnlyCopies s s' ∧
      s'.body.Standing := by
  obtain ⟨code, grows, calls⟩ := (h.of_composes (composes_callsFor c)).code
  obtain ⟨appends, again⟩ := grows.appends standing
  have copies : OnlyCopies s s' := h.of_composes (records_onlyCopies c).composes
  exact ⟨code.lines, appends, calls, copies, again⟩

/-- A function `f`, and a variable `p` that holds one. -/
def callbackContext : Context where
  analysis :=
    { store :=
        { scopes := #[{}, { parent := some 0, bindings := [("f", 0), ("p", 1)] }]
          objects := #[
            { name := "f", type := .func [("x", .scalar .bool)] (.scalar .bool) false,
              kind := .variable {} },
            { name := "p", type := .func [("x", .scalar .bool)] (.scalar .bool) false,
              kind := .variable {} }] }
      facts := {} }
  config := {}

def callbackState : State where
  values := [(0, .func 1 (.int 1) [.int 1]), (1, .global 0 (.pointer (.func (.int 1) [.int 1])))]

/-- The expression `p(f(true)) && f(p(false))`. -/
def callbackTest : Expr :=
  let site : Site := { id := 0, scope := some 1 }
  .binary site (.known .condAnd)
    (.call site "p" [.call site "f" [.boolLit site true]])
    (.call site "f" [.call site "p" [.boolLit site false]])

theorem calls_in_order_callbackTest :
    callbackTest.calls.map Call.name = ["f", "p", "p", "f"] ∧
      ∃ v s' made, valueOf callbackContext callbackTest callbackState = .ok v s' ∧
        callbackState.body.Appends made s'.body ∧
        List.Forall₂ (Call.LoweredTo callbackContext callbackState s' made) callbackTest.calls
          (Ir.callsIn made) := by
  have ends : ∃ v s', valueOf callbackContext callbackTest callbackState = .ok v s' := by
    have ok : (match valueOf callbackContext callbackTest callbackState with
      | .ok _ _ => true
      | .error _ _ => false) = true := by decide +kernel
    split at ok
    · exact ⟨_, _, ‹_›⟩
    · cases ok
  obtain ⟨v, s', h⟩ := ends
  have standing : callbackState.body.Standing :=
    .of_shaped (shaped_start 0 none .missing) (labelled_start 0 none .missing)
  obtain ⟨made, appends, calls, -⟩ := calls_in_order _ _ _ _ standing (.value h)
  exact ⟨by decide +kernel, v, s', made, h, appends, calls⟩

end TreeLowering
