import TreeLowering.Proofs.Machine
import TreeLowering.Proofs.Rounding
import TreeLowering.Proofs.Run

/-!
What values denote: integers of a width, finite floating-point numbers, and addresses.

A `Valuation` says what the values of a function denote that are no constants; the constants denote
what their text is read as. `Valuation.outcome` is the meaning of the instructions that conversions,
tests and steps of pointers are lowered to. On integers it is what the machine computes
(`outcome_of_result`); beyond them it knows the floating-point numbers that integers become, and
addresses, where an index is extended with its sign to the width of an address.
-/
namespace TreeLowering

namespace Ir

/-- What a value denotes. -/
inductive Datum where
  /-- An integer of some width. -/
  | word (x : Word)
  /-- A finite floating-point number, by its sign and what it is without. -/
  | real (negative : Bool) (magnitude : ℚ)
  /-- An address. -/
  | address (a : BitVec 64)
deriving DecidableEq

namespace Datum

/-- The integer that a value denotes. -/
def word? : Datum → Option Word
  | .word x => some x
  | _ => none

/-- The address that a value denotes. -/
def address? : Datum → Option (BitVec 64)
  | .address a => some a
  | _ => none

/-- Whether an integer or an address is not zero. -/
def isTrue : Datum → Bool
  | .word x => x.isTrue
  | .real _ magnitude => magnitude ≠ 0
  | .address a => a ≠ 0

/-- The last bit of an integer or an address. -/
def lastBit : Datum → Bool
  | .word x => x.bits.getLsbD 0
  | .real _ _ => false
  | .address a => a.getLsbD 0

/-- What a conversion to a type gives, as far as it starts from an integer or an address. -/
def convert (op : Conv) (target : Ty) : Datum → Option Datum
  | .word x =>
    match op, target with
    | .sitofp, .float k =>
      some (.real (x.bits.toInt < 0) (k.format.nearest x.bits.toInt.natAbs))
    | .uitofp, .float k => some (.real false (k.format.nearest x.bits.toNat))
    | .inttoptr, .pointer _ => some (.address (x.bits.setWidth 64))
    | op, .int w => (op.apply x.bits w).map fun bits => .word ⟨w, bits⟩
    | _, _ => none
  | .address a =>
    match op, target with
    | .ptrtoint, .int w => some (.word ⟨w, a.setWidth w⟩)
    | .bitcast, .pointer _ => some (.address a)
    | _, _ => none
  | .real _ _ => none

end Datum

/-- What the values of a function denote. -/
structure Valuation where
  /-- How many bytes lie between two elements of a type. -/
  stride : Ty → Nat
  /-- What a value denotes that is no constant. -/
  known : Value → Option Datum

namespace Valuation

variable (ν : Valuation)

/-- What a value denotes. -/
def read : Value → Option Datum
  | .int w x => some (.word ⟨w, BitVec.ofInt w x⟩)
  | .float k c => (k.reads c).map fun r => .real r.1 r.2
  | .null _ => some (.address 0)
  | v => ν.known v

/-- What an instruction gives. -/
def outcome : Inst → Option Datum
  | .arith op x y => do
    let a ← (← ν.read x).word?
    let b ← (← ν.read y).word?
    a.both b fun w x y => (op.apply x y).map fun bits => .word ⟨w, bits⟩
  | .icmp pred x y => do
    match ← ν.read x, ← ν.read y with
    | .word a, .word b => a.both b fun _ x y => some (.word (.ofBool (pred.holds x y)))
    | .address a, .address b => some (.word (.ofBool (pred.holds a b)))
    | _, _ => none
  | .conv op x target => do (← ν.read x).convert op target
  | .address elem base [index] => do
    let a ← (← ν.read base).address?
    let i ← (← ν.read index).word?
    some (.address (a + i.bits.signExtend 64 * BitVec.ofNat 64 (ν.stride elem)))
  | _ => none

/-- The result of an instruction is what the instruction gives. -/
def Obeys (v : Value) (inst : Inst) : Prop := ν.read v = ν.outcome inst

section
variable {ν} {x y base index : Value}

@[simp] theorem read_int (w : Nat) (n : Int) :
    ν.read (.int w n) = some (.word ⟨w, BitVec.ofInt w n⟩) := rfl

@[simp] theorem read_null (t : Ty) : ν.read (.null t) = some (.address 0) := rfl

theorem outcome_arith {w : Nat} {a b : BitVec w} (hx : ν.read x = some (.word ⟨w, a⟩))
    (hy : ν.read y = some (.word ⟨w, b⟩)) (op : Arith) :
    ν.outcome (.arith op x y) = (op.apply a b).map fun bits => .word ⟨w, bits⟩ := by
  simp [outcome, hx, hy, Datum.word?]

theorem outcome_icmp {w : Nat} {a b : BitVec w} (hx : ν.read x = some (.word ⟨w, a⟩))
    (hy : ν.read y = some (.word ⟨w, b⟩)) (pred : IntPred) :
    ν.outcome (.icmp pred x y) = some (.word (.ofBool (pred.holds a b))) := by
  simp [outcome, hx, hy]

theorem outcome_icmp_address {a b : BitVec 64} (hx : ν.read x = some (.address a))
    (hy : ν.read y = some (.address b)) (pred : IntPred) :
    ν.outcome (.icmp pred x y) = some (.word (.ofBool (pred.holds a b))) := by
  simp [outcome, hx, hy]

theorem outcome_conv {d : Datum} (hx : ν.read x = some d) (op : Conv) (target : Ty) :
    ν.outcome (.conv op x target) = d.convert op target := by
  simp [outcome, hx]

theorem outcome_address {a : BitVec 64} {i : Word} (hb : ν.read base = some (.address a))
    (hi : ν.read index = some (.word i)) (elem : Ty) :
    ν.outcome (.address elem base [index]) =
      some (.address (a + i.bits.signExtend 64 * BitVec.ofNat 64 (ν.stride elem))) := by
  simp [outcome, hb, hi, Datum.word?, Datum.address?]

/-- What a machine computes from integers is what the instruction gives, where the valuation says
    of each value what the machine does. -/
theorem outcome_of_result {m : Machine} {fn : FuncId} {inst : Inst} {w : Word}
    (hread : ∀ v x, m.read fn v = some x → ν.read v = some (.word x))
    (hop : inst.isOperation = true) (hload : ∀ t place, inst ≠ .load t place)
    (h : m.result fn none inst = some w) : ν.outcome inst = some (.word w) := by
  cases inst with
  | arith op x y =>
    simp only [Machine.result, Option.bind_eq_bind, Option.bind_eq_some_iff] at h
    obtain ⟨⟨w, a⟩, hx, ⟨w', b⟩, hy, h⟩ := h
    unfold Word.both at h
    split at h
    · rename_i hw
      cases hw
      obtain ⟨bits, hbits, rfl⟩ := Option.map_eq_some_iff.mp h
      rw [outcome_arith (hread _ _ hx) (hread _ _ hy)]
      exact Option.map_eq_some_iff.mpr ⟨bits, hbits, rfl⟩
    · cases h
  | icmp pred x y =>
    simp only [Machine.result, Option.bind_eq_bind, Option.bind_eq_some_iff] at h
    obtain ⟨⟨w, a⟩, hx, ⟨w', b⟩, hy, h⟩ := h
    unfold Word.both at h
    split at h
    · rename_i hw
      cases hw
      cases h
      exact outcome_icmp (hread _ _ hx) (hread _ _ hy) pred
    · cases h
  | conv op x target =>
    cases target with
    | int w =>
      simp only [Machine.result, Option.bind_eq_bind, Option.bind_eq_some_iff] at h
      obtain ⟨⟨w', a⟩, hx, h⟩ := h
      obtain ⟨bits, hbits, rfl⟩ := Option.map_eq_some_iff.mp h
      rw [outcome_conv (hread _ _ hx)]
      cases op <;> first | exact Option.map_eq_some_iff.mpr ⟨bits, hbits, rfl⟩ | cases hbits
    | _ => cases h
  | load t place => exact absurd rfl (hload t place)
  | _ => first | cases h | cases hop

end

end Valuation

end Ir

namespace Lower

/-! ## Emitted instructions -/

/-- The body `b'` is `b` with one more instruction, and `v` is its result. -/
structure Emitted (b : Body) (inst : Ir.Inst) (v : Ir.Value) (b' : Body) : Prop where
  live : b.cursor.isSome
  result : v = .computed b.fn b.lineCount v.type
  body : b' = b.emit inst v.type

theorem emitted_of_emit {s s' : State} {inst : Ir.Inst} {type : Ir.Ty} {v : Ir.Value}
    (h : emit inst type s = .ok v s') : Emitted s.body inst v s'.body ∧ v.type = type := by
  obtain ⟨hlive, rfl, rfl⟩ := emitAt_cursor_eq_ok.mp h
  exact ⟨⟨hlive, rfl, rfl⟩, rfl⟩

/-! ## Conversions of integers and pointers -/

section
variable (defs : Array Ir.TypeDef) {v : Ir.Value} {w : Nat} (hv : v.type = .int w)
  (unsigned toUnsigned : Bool)
include hv

theorem conversion_int_int (w' : Nat) :
    conversion defs v unsigned toUnsigned (.int w') =
      if w = w' then .keep else intToInt v unsigned w w' := by
  simp [conversion, hv, Ir.sameType, Ir.Ty.expand, Ir.Ty.same]

theorem conversion_int_float (k : Ir.FloatKind) :
    conversion defs v unsigned toUnsigned (.float k) = intToFloat v unsigned k := by
  simp [conversion, hv, Ir.sameType, Ir.Ty.expand, Ir.Ty.same]

theorem conversion_int_pointer (t : Ir.Ty) :
    conversion defs v unsigned toUnsigned (.pointer t) = intToPointer v (.pointer t) := by
  simp [conversion, hv, Ir.sameType, Ir.Ty.expand, Ir.Ty.same]

end

theorem conversion_pointer_int (defs : Array Ir.TypeDef) {v : Ir.Value} {t : Ir.Ty}
    (hv : v.type = .pointer t) (unsigned toUnsigned : Bool) (w : Nat) :
    conversion defs v unsigned toUnsigned (.int w) = .instruction .ptrtoint := by
  simp [conversion, hv, Ir.sameType, Ir.Ty.expand, Ir.Ty.same]

section
variable {v : Ir.Value} (hv : v.isConstant = false) (unsigned : Bool)
include hv

/-- Only a constant is widened without an instruction. -/
theorem intToInt_of_not_isConstant (w w' : Nat) :
    intToInt v unsigned w w' =
      .instruction (if w < w' then if unsigned || w = 1 then .zext else .sext else .trunc) := by
  cases v with
  | param _ _ _ | computed _ _ _ =>
    simp only [intToInt]
    split
    · split <;> rfl
    · rfl
  | _ => cases hv

theorem intToFloat_of_not_isConstant (k : Ir.FloatKind) :
    intToFloat v unsigned k = .instruction (if unsigned then .uitofp else .sitofp) := by
  cases v with
  | param _ _ _ | computed _ _ _ => cases unsigned <;> rfl
  | _ => cases hv

theorem intToPointer_of_not_isConstant (target : Ir.Ty) :
    intToPointer v target = .instruction .inttoptr := by
  cases v with
  | param _ _ _ | computed _ _ _ => rfl
  | _ => cases hv

end

/-- A conversion by an instruction emits it. -/
theorem convert_of_instruction {s : State} {v : Ir.Value} {unsigned toUnsigned : Bool}
    {target : Ir.Ty} {op : Ir.Conv}
    (h : conversion s.module.types v unsigned toUnsigned target = .instruction op) :
    convert v unsigned toUnsigned target s = emit (.conv op v target) target s := by
  unfold convert
  rw [get_bind_apply, h]

/-- At a live cursor an instruction is emitted. -/
theorem exists_emitted {s : State} (hlive : s.body.cursor.isSome) (inst : Ir.Inst) (type : Ir.Ty) :
    ∃ v s', emit inst type s = .ok v s' ∧ Emitted s.body inst v s'.body ∧ v.type = type := by
  have h : emit inst type s = .ok _ _ := emitAt_cursor_eq_ok.mpr ⟨hlive, rfl, rfl⟩
  exact ⟨_, _, h, emitted_of_emit h⟩

end Lower

end TreeLowering
