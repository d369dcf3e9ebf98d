import Mathlib.Logic.Function.Basic
import Mathlib.Logic.Relation
import TreeLowering.Proofs.Arithmetic
import TreeLowering.Proofs.Simulation

/-!
A machine for the integers of a function.

A machine holds the results of the instructions of a function and what its stack slots hold. An
instruction that is undefined on its operands, and one that is not about integers, has no result,
and the machine stops. `Ir.Frame.Reaches` runs finished blocks. `Code.exec` runs code without
blocks, and where the code was laid out the blocks do what the code does (`Grows.comes`).
-/
namespace TreeLowering

namespace Ir

/-- An integer with its width. -/
structure Word where
  width : Nat
  bits : BitVec width
deriving DecidableEq

namespace Word

/-- The word of a truth value. -/
def ofBool (b : Bool) : Word := ⟨1, BitVec.ofBool b⟩

/-- Whether a word is not zero. -/
def isTrue (x : Word) : Bool := x.bits ≠ 0

/-- Computes with two words, which must have one width. -/
def both {α : Type} (x y : Word) (f : (w : Nat) → BitVec w → BitVec w → Option α) : Option α :=
  if h : y.width = x.width then f x.width x.bits (y.bits.cast h) else none

@[simp] theorem both_mk {α : Type} {w : Nat} (x y : BitVec w)
    (f : (w : Nat) → BitVec w → BitVec w → Option α) :
    both ⟨w, x⟩ ⟨w, y⟩ f = f w x y := by
  simp [both]

@[simp] theorem isTrue_ofBool (b : Bool) : (ofBool b).isTrue = b := by
  cases b <;> rfl

end Word

/-- The stack slot of a function that a place is, by the identity of its instruction. -/
def Value.slot? (fn : FuncId) : Value → Option Nat
  | .computed f id (.pointer _) => if f = fn then some id else none
  | _ => none

/-- What a function under execution has computed and stored. -/
structure Machine where
  /-- The results of instructions, by identity. -/
  results : Nat → Option Word
  /-- What the stack slots hold, by the identity of their instructions. -/
  cells : Nat → Option Word

namespace Machine

variable (m : Machine) (fn : FuncId)

/-- Remembers a result. -/
def setResult (id : Nat) (x : Word) : Machine :=
  { m with results := Function.update m.results id (some x) }

/-- Stores into a stack slot. -/
def setCell (id : Nat) (x : Word) : Machine :=
  { m with cells := Function.update m.cells id (some x) }

/-- The integer that a value is. -/
def read : Value → Option Word
  | .int w x => some ⟨w, BitVec.ofInt w x⟩
  | .computed f id _ => if f = fn then m.results id else none
  | _ => none

/-- The result of an instruction in a block that was entered from `source`. -/
def result (source : Option Label) : Inst → Option Word
  | .load (.int w) place => do
    let id ← place.slot? fn
    let x ← m.cells id
    if x.width = w then some x else none
  | .arith op x y => do
    let a ← m.read fn x
    let b ← m.read fn y
    a.both b fun w x y => (op.apply x y).map (Word.mk w)
  | .icmp pred x y => do
    let a ← m.read fn x
    let b ← m.read fn y
    a.both b fun _ x y => some (Word.ofBool (pred.holds x y))
  | .conv op x (.int w) => do
    let a ← m.read fn x
    (op.apply a.bits w).map (Word.mk w)
  | .phi incoming => do
    let e ← incoming.find? fun e => source = some e.2
    m.read fn e.1
  | _ => none

/-- Executes an instruction in a block that was entered from `source`. -/
def exec (source : Option Label) (l : Line) : Option Machine :=
  match l.inst with
  | .store value place => do
    let x ← m.read fn value
    let id ← place.slot? fn
    let old ← m.cells id
    if old.width = x.width then some (m.setCell id x) else none
  | inst => (m.result fn source inst).map (m.setResult l.id)

section
variable {m fn} {source : Option Label}

@[simp] theorem read_int (w : Nat) (x : Int) : m.read fn (.int w x) = some ⟨w, BitVec.ofInt w x⟩ :=
  rfl

@[simp] theorem read_setResult_self (id : Nat) (x : Word) (t : Ty) :
    (m.setResult id x).read fn (.computed fn id t) = some x := by
  simp [read, setResult]

@[simp] theorem read_setCell (id : Nat) (x : Word) (v : Value) :
    (m.setCell id x).read fn v = m.read fn v := by
  cases v <;> rfl

/-- A value is the same where the results are that it may be. -/
theorem read_congr {m' : Machine} {v : Value}
    (h : ∀ id t, v = .computed fn id t → m'.results id = m.results id) :
    m'.read fn v = m.read fn v := by
  cases v with
  | computed f id t =>
    by_cases hf : f = fn
    · simp only [read, if_pos hf]
      exact h id t (by rw [hf])
    · simp only [read, if_neg hf]
  | _ => rfl

theorem result_load {w id : Nat} {a : BitVec w} {t : Ty} (hc : m.cells id = some ⟨w, a⟩) :
    m.result fn source (.load (.int w) (.computed fn id (.pointer t))) = some ⟨w, a⟩ := by
  simp [result, Value.slot?, hc]

section
variable {w : Nat} {x y : Value} {a b : BitVec w} (hx : m.read fn x = some ⟨w, a⟩)
  (hy : m.read fn y = some ⟨w, b⟩)
include hx

theorem result_conv (op : Conv) (w' : Nat) :
    m.result fn source (.conv op x (.int w')) = (op.apply a w').map (Word.mk w') := by
  simp [result, hx]

include hy

theorem result_arith (op : Arith) :
    m.result fn source (.arith op x y) = (op.apply a b).map (Word.mk w) := by
  simp [result, hx, hy]

theorem result_icmp (pred : IntPred) :
    m.result fn source (.icmp pred x y) = some (Word.ofBool (pred.holds a b)) := by
  simp [result, hx, hy]

end

/-- Only joins depend on where the block was entered from. -/
theorem exec_source {l : Line} (h : l.inst.isPhi = false) :
    m.exec fn source l = m.exec fn none l := by
  obtain ⟨id, inst, type⟩ := l
  cases inst with
  | phi incoming => cases h
  | load type _ | conv _ _ type => cases type <;> rfl
  | _ => rfl

/-- An instruction leaves the other results as they are. -/
theorem exec_results {m' : Machine} {l : Line} (h : m.exec fn source l = some m') {id : Nat}
    (hid : id ≠ l.id) : m'.results id = m.results id := by
  unfold exec at h
  split at h
  · simp only [Option.bind_eq_bind, Option.bind_eq_some_iff, Option.ite_none_right_eq_some] at h
    obtain ⟨x, -, slot, -, old, -, -, ⟨⟩⟩ := h
    rfl
  · obtain ⟨x, -, rfl⟩ := Option.map_eq_some_iff.mp h
    exact Function.update_of_ne hid _ _

/-- A join of two operands, entered where the left one decided. -/
theorem exec_joined_start (id : Nat) (isAnd : Bool) (start finish : Label) (y : Value) :
    m.exec fn (some start) ⟨id, Body.joined isAnd start finish y, .int 1⟩ =
      some (m.setResult id (Word.ofBool !isAnd)) := by
  have hread : m.read fn (Body.decided isAnd) = some (Word.ofBool !isAnd) := by
    cases isAnd <;> rfl
  simp [exec, Body.joined, result, hread]

/-- The same, entered after the right one. -/
theorem exec_joined_finish (id : Nat) (isAnd : Bool) {start finish : Label} {y : Value} {w : Word}
    (hne : start ≠ finish) (hy : m.read fn y = some w) :
    m.exec fn (some finish) ⟨id, Body.joined isAnd start finish y, .int 1⟩ =
      some (m.setResult id w) := by
  simp [exec, Body.joined, result, hne.symm, hy]

end

end Machine

/-! ## Blocks -/

/-- A place in a run of blocks: what is left of a block, where it was entered from, and the
    machine. -/
structure Frame where
  label : Label
  source : Option Label
  rest : List Line
  term : Option Term
  machine : Machine

namespace Frame

/-- The place of a frame, without what was executed before. -/
def point (f : Frame) : Point := ⟨f.label, f.source, f.rest, f.term, []⟩

/-- Goes on to a block. -/
def enter (f : Frame) (block : Block) : Frame :=
  ⟨block.label, some f.label, block.lines, block.term, f.machine⟩

section
variable (fn : FuncId) (blocks : List Block)

/-- Where the terminator leads. -/
def target (f : Frame) : Option Label :=
  match f.term with
  | some (.br l) => some l
  | some (.condBr v yes no) => (f.machine.read fn v).map fun x => if x.isTrue then yes else no
  | _ => none

/-- Executes an instruction, or goes on to the next block. -/
def step (f : Frame) : Option Frame :=
  match f.rest with
  | l :: rest =>
    (f.machine.exec fn f.source l).map fun machine => { f with rest, machine }
  | [] => (f.target fn).bind fun l => (findBlock blocks l.id).map f.enter

/-- A run of blocks comes from one frame to another. -/
def Reaches : Frame → Frame → Prop :=
  Relation.ReflTransGen fun f g => f.step fn blocks = some g

end

end Frame

end Ir

/-! ## Code -/

open Ir (Machine Frame Word)

/-- Runs code. -/
def Code.exec (fn : Ir.FuncId) : Code → Machine → Option Machine
  | .nil, m => some m
  | .line l, m => m.exec fn none l
  | .seq c d, m => (c.exec fn m).bind (d.exec fn)
  | .decide isAnd left right last join, m => do
    let x ← m.read fn left
    if x.isTrue = isAnd then
      let m' ← right.exec fn m
      let y ← m'.read fn last
      some (m'.setResult join.id y)
    else some (m.setResult join.id (Word.ofBool !isAnd))

section
variable {fn : Ir.FuncId} {isAnd : Bool} {left last : Ir.Value} {right : Code} {join : Ir.Line}
  {m m' : Machine} {x y : Word}

/-- The left operand does not decide. -/
theorem Code.exec_decide_open (hx : m.read fn left = some x) (h : x.isTrue = isAnd)
    (hr : right.exec fn m = some m') (hy : m'.read fn last = some y) :
    (Code.decide isAnd left right last join).exec fn m = some (m'.setResult join.id y) := by
  simp [Code.exec, hx, h, hr, hy]

/-- The left operand decides. -/
theorem Code.exec_decide_decided (hx : m.read fn left = some x) (h : x.isTrue ≠ isAnd) :
    (Code.decide isAnd left right last join).exec fn m =
      some (m.setResult join.id (Word.ofBool !isAnd)) := by
  simp [Code.exec, hx, h]

end

/-- Code leaves alone the results that were there before it was laid out. -/
theorem Grows.exec_results {Q : Ir.Value → Prop} {fn : Ir.FuncId} {b b' : Body} {c : Code}
    (h : Grows Q b c b') : ∀ {m m' : Machine}, c.exec fn m = some m' →
    ∀ id, id < b.lineCount → m'.results id = m.results id := by
  induction h with
  | nil b =>
    rintro m m' ⟨⟩ id _
    rfl
  | seq h₁ _ ih₁ ih₂ =>
    intro m m' h id hid
    obtain ⟨m₁, e₁, e₂⟩ := Option.bind_eq_some_iff.mp h
    have hle := h₁.kept.lineCount
    rw [ih₂ e₂ id (by omega), ih₁ e₁ id hid]
  | vars type _ _ =>
    rintro m m' ⟨⟩ id _
    rfl
  | line type _ _ _ _ =>
    intro m m' h id hid
    exact Machine.exec_results h (Nat.ne_of_lt hid)
  | @decide b b₁ right x y start finish isAnd _ _ hr _ _ ih =>
    intro m m' h id hid
    have hfork : (b.fork isAnd x).lineCount = b.lineCount := by
      simp [Body.fork, Body.goto, Body.addBlock]
    have hle : b.lineCount ≤ b₁.lineCount := hfork ▸ hr.kept.lineCount
    have hne : id ≠ b₁.lineCount := by omega
    simp only [Code.exec, Option.bind_eq_bind, Option.bind_eq_some_iff] at h
    obtain ⟨w, -, h⟩ := h
    split at h
    · simp only [Option.bind_eq_some_iff] at h
      obtain ⟨m₁, e₁, w', -, ⟨⟩⟩ := h
      exact (Function.update_of_ne hne _ _).trans (ih e₁ id (by omega))
    · cases h
      exact Function.update_of_ne hne _ _

/-! ## Code in blocks -/

/-- A run comes to a place of a body with a machine. -/
def Comes (fn : Ir.FuncId) (blocks : List Ir.Block) (f : Frame) (b : Body) (m : Machine) : Prop :=
  ∃ g, f.Reaches fn blocks g ∧ Stands blocks b g.point ∧ g.machine = m

section
variable {fn : Ir.FuncId} {blocks : List Ir.Block} {f g : Frame} {b b' : Body} {m m' : Machine}
  {l : Ir.Label}

theorem Comes.here (h : Stands blocks b f.point) : Comes fn blocks f b f.machine :=
  ⟨f, .refl, h, rfl⟩

theorem Comes.after (h : f.Reaches fn blocks g) (h' : Comes fn blocks g b m) :
    Comes fn blocks f b m := by
  obtain ⟨k, hk, rest⟩ := h'
  exact ⟨k, h.trans hk, rest⟩

theorem Comes.bind (h : Comes fn blocks f b m)
    (h' : ∀ g, Stands blocks b g.point → g.machine = m → Comes fn blocks g b' m') :
    Comes fn blocks f b' m' := by
  obtain ⟨g, hg, hs, hm⟩ := h
  exact (h' g hs hm).after hg

/-- Where an instruction was added, it comes next. -/
theorem Stands.next {p : Ir.Point} {inst : Ir.Inst} {type : Ir.Ty} (h : Stands blocks b p)
    (hF : Held (b.emit inst type) blocks none) :
    ∃ rest, p.rest = ⟨b.lineCount, inst, type⟩ :: rest ∧
      Stands blocks (b.emit inst type) { p with rest } := by
  obtain ⟨l, block, final, hc, hb, hfinal, hl, hlines, hterm⟩ := h
  have hb' : (b.emit inst type).block? l.id =
      some { block with lines := block.lines ++ [⟨b.lineCount, inst, type⟩] } := by
    rw [Body.block?_emit hc, hb]
    simp
  obtain ⟨final', hfinal', -, ⟨rest, hprefix⟩, -⟩ := hF.cursor l _ (by simpa using hc) hb'
  cases hfinal.symm.trans hfinal'
  refine ⟨rest, ?_, l, _, final, by simpa using hc, hb', hfinal, hl, hprefix.symm, hterm⟩
  rw [hlines, List.append_assoc] at hprefix
  exact (List.append_cancel_left hprefix).symm

/-- Where an instruction was added, the run executes it next. -/
theorem Stands.comes_emit {inst : Ir.Inst} {type : Ir.Ty} (h : Stands blocks b f.point)
    (hF : Held (b.emit inst type) blocks none)
    (hm : f.machine.exec fn f.source ⟨b.lineCount, inst, type⟩ = some m) :
    Comes fn blocks f (b.emit inst type) m := by
  obtain ⟨rest, hrest, hs⟩ := h.next hF
  have hrest : f.rest = ⟨b.lineCount, inst, type⟩ :: rest := hrest
  refine ⟨{ f with rest, machine := m }, .single ?_, hs, rfl⟩
  unfold Frame.step
  rw [hrest]
  simp only [hm, Option.map_some]

/-- Where a pending block was entered, so does the run. -/
theorem enters_block (hrest : f.rest = []) (htarget : f.target fn = some l)
    (hF : Held b blocks none) (hc : b.cursor = some l)
    (hb : b.block? l.id = some { label := l }) :
    ∃ g, f.Reaches fn blocks g ∧ Stands blocks b g.point ∧ g.machine = f.machine ∧
      g.source = some f.label := by
  obtain ⟨final, hfinal, hl, -, -⟩ := hF.cursor l _ hc hb
  refine ⟨f.enter final, .single ?_, ⟨l, _, final, hc, hb, hfinal, hl, rfl, rfl⟩, rfl, rfl⟩
  unfold Frame.step
  rw [hrest]
  simp only [htarget, Option.bind_some, hfinal, Option.map_some]

theorem target_decision (b : Body) (isAnd : Bool) {x : Ir.Value} {w : Word}
    (hx : f.machine.read fn x = some w) (h : f.term = some (b.decision isAnd x)) :
    f.target fn =
      some (if w.isTrue = isAnd then b.rightLabel isAnd else b.joinLabel isAnd) := by
  unfold Frame.target
  rw [h]
  cases isAnd <;> cases hw : w.isTrue <;> simp [Body.decision, hx, hw]

end

/-- Finished blocks do what the code does that was added. -/
theorem Grows.comes {Q : Ir.Value → Prop} {fn : Ir.FuncId} {blocks : List Ir.Block} {b b' : Body}
    {c : Code} (h : Grows Q b c b') :
    ∀ {P : List Ir.Label}, Shaped P b → Held b' blocks none → ∀ {f : Frame} {m : Machine},
      Stands blocks b f.point → c.exec fn f.machine = some m → Comes fn blocks f b' m := by
  induction h with
  | nil b =>
    rintro P _ _ f m hf ⟨⟩
    exact .here hf
  | seq h₁ h₂ ih₁ ih₂ =>
    intro P hs hF f m hf hm
    have s₁ := (h₁.shaped hs).1
    obtain ⟨m₁, e₁, e₂⟩ := Option.bind_eq_some_iff.mp hm
    refine (ih₁ hs ((h₂.leads s₁).trans hF) hf e₁).bind fun g hg hm₁ => ?_
    exact ih₂ s₁ hF hg (hm₁.symm ▸ e₂)
  | vars type _ _ =>
    rintro P _ _ f m hf ⟨⟩
    exact .here hf
  | @line b inst type _ hphi _ _ =>
    intro P _ hF f m hf hm
    exact hf.comes_emit hF ((Machine.exec_source hphi).trans hm)
  | @decide b b₁ right x y start finish isAnd hc _ hr hf _ ih =>
    intro P hs hF f m hst hm
    have s₀ := hs.fork isAnd x
    have s₁ := (hr.shaped s₀).1
    have hjoin : Held (b₁.rejoin (b.joinLabel isAnd)) blocks none :=
      (Held.emit s₁.rejoin.1 _ _).trans hF
    have hright : Held b₁ blocks none := .of_finish s₁ (hjoin.halt rfl)
    have hfork : Held (b.fork isAnd x) blocks none := (hr.leads s₀).trans hright
    -- The join, entered from either operand.
    have join : ∀ {f : Frame} {m : Machine}, f.rest = [] →
        f.target fn = some (b.joinLabel isAnd) →
        f.machine.exec fn (some f.label)
          ⟨b₁.lineCount, Body.joined isAnd start finish y, .int 1⟩ = some m →
        Comes fn blocks f ((b₁.rejoin (b.joinLabel isAnd)).emit
          (Body.joined isAnd start finish y) (.int 1)) m := by
      intro f m hrest htarget hm
      obtain ⟨g, hg, hgs, hgm, hsource⟩ :=
        enters_block hrest htarget hjoin rfl s₁.rejoin.2
      refine (hgs.comes_emit hF ?_).after hg
      rw [hgm, hsource, Body.rejoin_lineCount]
      exact hm
    obtain ⟨hrest, hterm⟩ := Stands.finish ((hst.addBlock _).addBlock _) (hfork.halt rfl)
    have hlabel : f.label = start := hst.label hc
    simp only [Code.exec, Option.bind_eq_bind, Option.bind_eq_some_iff] at hm
    obtain ⟨w, hw, hm⟩ := hm
    have htarget := target_decision b isAnd hw hterm
    split at hm
    · -- The left operand does not decide.
      rw [if_pos ‹_›] at htarget
      simp only [Option.bind_eq_some_iff] at hm
      obtain ⟨m₁, e₁, w', hw', ⟨⟩⟩ := hm
      have hempty := ((hs.addBlock ((if isAnd then "and" else "or") ++ ".rhs")).addBlock
        ((if isAnd then "and" else "or") ++ ".done")).empty_finish
        (List.mem_cons_of_mem _ List.mem_cons_self) (b.decision isAnd x)
      obtain ⟨g, hg, hgs, hgm, -⟩ := enters_block hrest htarget hfork rfl hempty
      refine ((ih s₀ hright hgs (hgm.symm ▸ e₁)).bind fun g' hgs' hgm' => ?_).after hg
      obtain ⟨hrest', hterm'⟩ := hgs'.finish (hjoin.halt rfl)
      have hlabel' : g'.label = finish := hgs'.label hf
      refine join hrest' (by rw [Frame.target, show g'.term = _ from hterm']) ?_
      rw [hgm', hlabel']
      exact Machine.exec_joined_finish _ _ (hs.start_ne_finish hc hr hf) hw'
    · rw [if_neg ‹_›] at htarget
      cases hm
      refine join hrest htarget ?_
      rw [hlabel]
      exact Machine.exec_joined_start _ _ _ _ _

end TreeLowering
