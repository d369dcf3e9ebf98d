import TreeLowering.Proofs.Instructions
import TreeLowering.Proofs.Receivers

/-!
Truth values: what they become in other types, and what becomes of other values.

A truth value is an integer of one bit. What receives it in an integer type gets zero or one
(`bool_received`); in a floating-point type that one bit is read with its sign, so that true becomes
minus one (`bool_misread`). The other way round, a test compares with zero while what receives a
truth value keeps the last bit, which is the same for zero and for values whose last bit is set
(`truth_received`, `truth_misread`).
-/
namespace TreeLowering

open Lower
open Ir (Valuation Datum)

/-- A number in an integer or a floating-point type. -/
def Scalar.datum (k : Scalar) (n : Int) : Datum :=
  if k.isFloat then .real (n < 0) n.natAbs else .word (k.word n)

/-- Whether what a value denotes fits its type. -/
def Ir.Datum.Fits (type : Ir.Ty) : Datum → Prop
  | .word x => type = .int x.width
  | .real _ _ => ∃ k, type = .float k
  | .address _ => ∃ t, type = .pointer t

namespace Lower

variable {c : Context} {e : Expr} {s s' s₁ : State} {v v' : Ir.Value} {type : Ir.Ty} {b : Body}

/-- A conversion by an instruction emits that instruction. -/
theorem Converts.emitted {op : Ir.Conv} (h : Converts c e s s₁ v type v' b)
    (hop : ∀ defs toUnsigned,
      conversion defs v (isUnsignedAt c e) toUnsigned type = .instruction op) :
    Emitted s₁.body (.conv op v type) v' b := by
  obtain ⟨-, s₂, s₃, toUnsigned, hbody, hconv, rfl⟩ := h
  rw [convert_of_instruction (hop _ _)] at hconv
  exact hbody ▸ (emitted_of_emit hconv).1

/-! ## From truth values -/

/-- Of a truth value that is no constant, an integer type gets the bit and zeros before it. -/
theorem conversion_bool_int (hv : v.type = .int 1) (hconst : v.isConstant = false) {k : Scalar}
    (hk : k.isInteger = true) (defs : Array Ir.TypeDef) (unsigned toUnsigned : Bool) :
    conversion defs v unsigned toUnsigned (scalarType k) = .instruction .zext := by
  have hbits : 1 < k.bits := by cases k <;> first | decide | cases hk
  have hword : k.isWord = true := by cases k <;> first | decide | cases hk
  rw [scalarType_eq hword, conversion_int_int defs hv, if_neg (Nat.ne_of_lt hbits),
    intToInt_of_not_isConstant hconst]
  simp [hbits]

/-- A floating-point type gets the bit as an integer with a sign. -/
theorem conversion_bool_float (hv : v.type = .int 1) (hconst : v.isConstant = false)
    (k : Ir.FloatKind) (defs : Array Ir.TypeDef) (toUnsigned : Bool) :
    conversion defs v false toUnsigned (.float k) = .instruction .sitofp := by
  rw [conversion_int_float defs hv, intToFloat_of_not_isConstant hconst]
  rfl

theorem convert_zext_bit {k : Scalar} (hk : k.isInteger = true) (bit : Bool) :
    (Datum.word (.ofBool bit)).convert .zext (scalarType k) = some (k.datum (bitNumber bit)) := by
  cases k <;> first | (cases bit <;> rfl) | cases hk

theorem convert_sitofp_false (k : Ir.FloatKind) :
    (Datum.word (.ofBool false)).convert .sitofp (.float k) = some (.real false 0) := by
  cases k <;> rfl

/-- What a truth value becomes in a numeric type is an instruction, and gives the number of the
    truth value unless true becomes a floating-point number. -/
theorem bool_outcome (hv : v.type = .int 1) (hconst : v.isConstant = false) {k : Scalar}
    (hk : k.isInteger = true ∨ k.isFloat = true) :
    ∃ op, (∀ defs toUnsigned,
        conversion defs v false toUnsigned (scalarType k) = .instruction op) ∧
      ∀ (ν : Valuation) (bit : Bool), ν.read v = some (.word (.ofBool bit)) →
        (k.isInteger = true ∨ bit = false) →
        ν.outcome (.conv op v (scalarType k)) = some (k.datum (bitNumber bit)) := by
  rcases hk with hk | hk
  · refine ⟨.zext, fun defs => conversion_bool_int hv hconst hk defs false, ?_⟩
    intro ν bit hread _
    rw [ν.outcome_conv hread, convert_zext_bit hk]
  · have hint : k.isInteger = false := by cases k <;> first | rfl | cases hk
    obtain ⟨kind, hkind⟩ : ∃ kind, scalarType k = .float kind := by
      cases k <;> first | exact ⟨_, rfl⟩ | cases hk
    rw [hkind]
    refine ⟨.sitofp, fun defs => conversion_bool_float hv hconst kind defs, ?_⟩
    rintro ν bit hread (hk' | rfl)
    · rw [hint] at hk'
      cases hk'
    · rw [ν.outcome_conv hread, convert_sitofp_false, Scalar.datum, if_pos hk]
      rfl

end Lower

/-- What receives a truth value that is no constant, in an integer or a floating-point type, emits
    one conversion of it. That gives zero for false, and one for true in an integer type. -/
theorem bool_received (c : Context) (e : Expr) (r : Receiver) (s s' : State)
    (out : Option Ir.Value) (present : e.isAbsent = false) (bool : c.kindOf e = some .bool)
    (converts : r.isTest c = false) (run : r.run c e s = .ok out s') :
    ∃ s₀ s₁ v type v' b, Precedes s s₀ ∧ valueOf c e s₀ = .ok v s₁ ∧ r.Asks c e s s₁ type ∧
      r.Takes v' b s' out ∧
      ∀ k : Scalar, k.isInteger = true ∨ k.isFloat = true → type = scalarType k →
        v.type = .int 1 → v.isConstant = false →
        ∃ op, Emitted s₁.body (.conv op v type) v' b ∧
          ∀ (ν : Valuation) (bit : Bool), ν.read v = some (.word (.ofBool bit)) →
            (k.isInteger = true ∨ bit = false) →
            ν.outcome (.conv op v type) = some (k.datum (bitNumber bit)) := by
  obtain ⟨s₀, s₁, v, type, v', b, precedes, hasks, hconv, htakes⟩ :=
    Receiver.converts present converts run
  refine ⟨s₀, s₁, v, type, v', b, precedes, hconv.1, hasks, htakes, ?_⟩
  rintro k hk rfl hv hconst
  obtain ⟨op, hop, hout⟩ := bool_outcome hv hconst hk
  refine ⟨op, hconv.emitted fun defs toUnsigned => ?_, hout⟩
  rw [isUnsignedAt_eq bool]
  exact hop defs toUnsigned

/-- A variable `b` of type `bool` and a variable `n` of type `i32`; the types of two casts. -/
def flagContext : Context where
  analysis :=
    { store :=
        { objects := #[{ name := "b", type := .scalar .bool, kind := .variable {} },
            { name := "n", type := .scalar .i32, kind := .variable {} }] }
      facts :=
        { types := [(some 1, .scalar .bool), (some 2, .scalar .i32), (some 3, .scalar .i64),
            (some 4, .scalar .f64)]
          definitions := [(some 1, 0), (some 2, 1)] } }
  config := {}

/-- In a function that returns a `bool`, the variables have stack slots. -/
def flagState : State where
  values := [(0, .computed 0 0 (.pointer (.int 1))), (1, .computed 0 1 (.pointer (.int 32)))]
  body :=
    { (Body.addVarsLine { fn := 0 } (.alloca (.int 1) none) (.pointer (.int 1))).addVarsLine
        (.alloca (.int 32) none) (.pointer (.int 32)) with
      head := some { site := { id := 9 }, name := "f" }
      result := .scalar .bool }

/-- The expression `b`. -/
def flag : Expr := .varRef { id := 1 } "b" (.known .none)

/-- The expression `n`. -/
def number : Expr := .varRef { id := 2 } "n" (.known .none)

/-- The cast `(i64)b`. -/
def toLong : Receiver := .cast { id := 6 } { site := { id := 3 }, name := "i64" }

/-- The cast `(f64)b`. -/
def toDouble : Receiver := .cast { id := 6 } { site := { id := 4 }, name := "f64" }

/-- The statement `return n`. -/
def returned : Receiver := .result { id := 7 }

/-- A variable in a stack slot is lowered to a value of its type. -/
theorem Lower.type_of_variable {c : Context} {site : Site} {name : String} {s s' : State}
    {x : ObjectId} {fn : Ir.FuncId} {id : Nat} {place type : Ir.Ty} {v : Ir.Value}
    (hres : c.analysis.resolve name (some site) = some x)
    (hplace : s.values.lookup x = some (.computed fn id place))
    (htype : ∀ s, instructionType c (variableType c x) s = .ok type s)
    (h : valueOf c (.varRef site name (.known .none)) s = .ok v s') :
    v.type = type ∧ v.isConstant = false := by
  obtain ⟨x', place', hres', hplace', read⟩ := valueOf_name_eq_ok h
  rw [hres] at hres'
  cases hres'
  rw [hplace] at hplace'
  cases hplace'
  rcases read with ⟨func, -⟩ | ⟨t, s₁, -, ht, hload⟩
  · cases func
  · rw [htype] at ht
    cases ht
    obtain ⟨-, rfl, -⟩ := emitAt_cursor_eq_ok.mp hload
    exact ⟨rfl, rfl⟩

theorem bool_received_long : flag.isAbsent = false ∧ flagContext.kindOf flag = some .bool ∧
    toLong.isTest flagContext = false ∧ ∃ v v' s' b op,
      toLong.run flagContext flag flagState = .ok (some v') s' ∧
      Emitted b (.conv op v (.int 64)) v' s'.body ∧
      ∀ ν : Valuation, ν.read v = some (.word (.ofBool true)) →
        ν.outcome (.conv op v (.int 64)) = some (.word (Scalar.i64.word 1)) := by
  refine ⟨rfl, rfl, rfl, ?_⟩
  obtain ⟨v', s', run⟩ : ∃ v' s', toLong.run flagContext flag flagState = .ok (some v') s' :=
    ⟨_, _, rfl⟩
  obtain ⟨s₀, s₁, v, type, v'', b, precedes, hvalue, ⟨s₂, htype⟩, ⟨hout, hbody⟩, converted⟩ :=
    bool_received flagContext flag toLong flagState s' (some v') rfl rfl rfl run
  cases htype
  cases hout
  have hplace : s₀.values.lookup 0 = some (.computed 0 0 (.pointer (.int 1))) := by
    rw [precedes.calm.values]
    rfl
  obtain ⟨hv, hconst⟩ := type_of_variable rfl hplace (fun _ => rfl) hvalue
  obtain ⟨op, emitted, outcome⟩ := converted .i64 (.inl rfl) rfl hv hconst
  rw [← hbody] at emitted
  exact ⟨v, v', s', s₁.body, op, run, emitted, fun ν hread => outcome ν true hread (.inl rfl)⟩

/-- As an `f64`, true is minus one. -/
theorem bool_misread : ∃ v s₁ v' s',
    valueOf flagContext flag flagState = .ok v s₁ ∧ v.type = .int 1 ∧ v.isConstant = false ∧
    toDouble.run flagContext flag flagState = .ok (some v') s' ∧
    Emitted s₁.body (.conv .sitofp v (.float .double)) v' s'.body ∧
    ∀ ν : Valuation, ν.read v = some (.word (.ofBool true)) →
      ν.outcome (.conv .sitofp v (.float .double)) = some (.real true 1) ∧
      ν.outcome (.conv .sitofp v (.float .double)) ≠ some (Scalar.f64.datum 1) := by
  refine ⟨_, _, _, _, rfl, rfl, rfl, rfl, ⟨rfl, rfl, rfl⟩, fun ν hread => ?_⟩
  have hout : ν.outcome (.conv .sitofp _ (.float .double)) = some (.real true 1) :=
    ν.outcome_conv hread _ _
  refine ⟨hout, fun h => ?_⟩
  cases hout.symm.trans h

/-! ## To truth values -/

/-- Whether the values of a type are integers of more than one bit or addresses. -/
def Ir.Ty.isWide : Ir.Ty → Bool
  | .int w => 1 < w
  | .pointer _ => true
  | _ => false

/-- What asks for the truth of an expression. -/
inductive Test where
  /-- A cast to the type of truth values. -/
  | cast (site : Site) (target : TypeRef)
  /-- The condition of a statement. -/
  | condition

namespace Test

/-- Whether a test asks for a truth value. -/
def asks (c : Context) : Test → Bool
  | .cast _ target => c.analysis.store.isBoolean (c.analysis.typeOfRef target)
  | .condition => true

/-- Lowers a test of an expression. -/
def run (c : Context) (e : Expr) : Test → Lower Ir.Value
  | .cast site target => valueOf c (.cast site e (some target))
  | .condition => Lower.condition c e

end Test

/-- The last bit of zero is zero. -/
theorem Ir.Datum.lastBit_eq_isTrue (d : Datum) (h : d.isTrue = true → d.lastBit = true) :
    d.lastBit = d.isTrue := by
  have hzero : d.isTrue = false → d.lastBit = false := by
    intro hd
    cases d with
    | word x =>
      have hx : x.bits = 0 := by simpa [isTrue, Ir.Word.isTrue] using hd
      simp [lastBit, hx]
    | real _ _ => rfl
    | address a =>
      have ha : a = 0 := by simpa [isTrue] using hd
      simp [lastBit, ha]
  cases hd : d.isTrue with
  | true => exact h hd
  | false => exact hzero hd

namespace Lower

variable {c : Context} {e : Expr} {s s' : State} {v v' : Ir.Value}

/-- A test lowers the expression and asks whether the value is zero. -/
theorem test_eq_ok {t : Test} (ht : t.asks c = true) (h : t.run c e s = .ok v' s') :
    ∃ v s₁, valueOf c e s = .ok v s₁ ∧ truth e v s₁ = .ok v' s' := by
  cases t with
  | cast site target =>
    have ht : c.analysis.store.isBoolean (c.analysis.typeOfRef target) = true := ht
    have h : castValue c e (some target) (valueOf c e) s = .ok v' s' := by
      rw [← h, Test.run, valueOf]
    obtain ⟨type, s₀, htype, h⟩ := bind_eq_ok.mp h
    obtain ⟨v, s₁, hvalue, h⟩ := bind_eq_ok.mp h
    obtain ⟨htype, hs⟩ := typeOfRef_eq_ok htype
    rw [htype, if_pos ht] at h
    exact ⟨v, s₁, hs ▸ hvalue, h⟩
  | condition => exact bind_eq_ok.mp h

/-- Whether an integer or an address is zero is a comparison. -/
theorem truth_emitted (hv : v.type.isWide = true) (h : truth e v s = .ok v' s') :
    ∃ inst, Emitted s.body inst v' s'.body ∧ ∀ (ν : Valuation) (d : Datum), ν.read v = some d →
      d.Fits v.type → ν.outcome inst = some (.word (.ofBool d.isTrue)) := by
  unfold truth at h
  cases htype : v.type with
  | int w =>
    rw [htype] at h hv
    have hwide : w ≠ 1 := Nat.ne_of_gt (of_decide_eq_true hv)
    simp only [hwide, if_false] at h
    refine ⟨_, (emitted_of_emit h).1, fun ν d hread hd => ?_⟩
    cases d with
    | word x =>
      obtain ⟨width, bits⟩ := x
      cases hd
      rw [Valuation.outcome_icmp hread (ν.read_int width 0)]
      simp [Ir.IntPred.holds, Datum.isTrue, Ir.Word.isTrue]
    | real _ _ => cases hd.choose_spec
    | address a => cases hd.choose_spec
  | pointer t =>
    rw [htype] at h
    refine ⟨_, (emitted_of_emit h).1, fun ν d hread hd => ?_⟩
    cases d with
    | word x => cases hd
    | real _ _ => cases hd.choose_spec
    | address a =>
      rw [Valuation.outcome_icmp_address hread (ν.read_null _)]
      simp [Ir.IntPred.holds, Datum.isTrue]
  | _ =>
    rw [htype] at hv
    cases hv

/-- Of an integer or an address, a truth value gets the last bit. -/
theorem conversion_bit (hv : v.type.isWide = true) (unsigned : Bool) :
    ∃ op, (∀ defs toUnsigned,
        conversion defs v unsigned toUnsigned (.int 1) = .instruction op) ∧
      ∀ (ν : Valuation) (d : Datum), ν.read v = some d → d.Fits v.type →
        ν.outcome (.conv op v (.int 1)) = some (.word (.ofBool d.lastBit)) := by
  cases htype : v.type with
  | int w =>
    rw [htype] at hv
    have hwide : 1 < w := of_decide_eq_true hv
    refine ⟨.trunc, fun defs toUnsigned => ?_, fun ν d hread hd => ?_⟩
    · rw [conversion_int_int defs htype, if_neg (Nat.ne_of_gt hwide)]
      unfold intToInt
      rw [if_neg (Nat.lt_asymm hwide)]
    · rw [ν.outcome_conv hread]
      cases d with
      | word x =>
        obtain ⟨width, bits⟩ := x
        cases hd
        have hbit : bits.setWidth 1 = BitVec.ofBool (bits.getLsbD 0) := by
          simp [BitVec.setWidth_one]
        simp [Datum.convert, Ir.Conv.apply, hwide, Datum.lastBit, Ir.Word.ofBool, hbit]
      | real _ _ => cases hd.choose_spec
      | address a => cases hd.choose_spec
  | pointer t =>
    refine ⟨.ptrtoint, fun defs toUnsigned => conversion_pointer_int defs htype _ _ _,
      fun ν d hread hd => ?_⟩
    rw [ν.outcome_conv hread]
    cases d with
    | word x => cases hd
    | real _ _ => cases hd.choose_spec
    | address a =>
      have hbit : a.setWidth 1 = BitVec.ofBool (a.getLsbD 0) := by
        simp [BitVec.setWidth_one]
      simp [Datum.convert, Datum.lastBit, Ir.Word.ofBool, hbit]
  | _ =>
    rw [htype] at hv
    cases hv

end Lower

/-- A test of an integer or a pointer compares it with zero. What receives it as a truth value
    without a cast emits one conversion instead, which gives the same unless the value is another
    one than zero whose last bit is zero. -/
theorem truth_received (c : Context) (e : Expr) (s s' : State) (present : e.isAbsent = false) :
    (∀ (t : Test) (v' : Ir.Value), t.asks c = true → t.run c e s = .ok v' s' →
      ∃ v s₁, valueOf c e s = .ok v s₁ ∧ (v.type.isWide = true →
        ∃ inst, Emitted s₁.body inst v' s'.body ∧ ∀ (ν : Valuation) (d : Datum),
          ν.read v = some d → d.Fits v.type →
            ν.outcome inst = some (.word (.ofBool d.isTrue)))) ∧
    ∀ (r : Receiver) (out : Option Ir.Value), r.isImplicit = true → r.run c e s = .ok out s' →
      ∃ s₀ s₁ v type v' b, Precedes s s₀ ∧ valueOf c e s₀ = .ok v s₁ ∧ r.Asks c e s s₁ type ∧
        r.Takes v' b s' out ∧ (type = .int 1 → v.type.isWide = true →
          ∃ op, Emitted s₁.body (.conv op v type) v' b ∧ ∀ (ν : Valuation) (d : Datum),
            ν.read v = some d → d.Fits v.type → (d.isTrue = true → d.lastBit = true) →
              ν.outcome (.conv op v type) = some (.word (.ofBool d.isTrue))) := by
  constructor
  · intro t v' ht run
    obtain ⟨v, s₁, hvalue, htruth⟩ := test_eq_ok ht run
    exact ⟨v, s₁, hvalue, fun hv => truth_emitted hv htruth⟩
  · intro r out hr run
    obtain ⟨s₀, s₁, v, type, v', b, precedes, hasks, hconv, htakes⟩ :=
      Receiver.converts present (r.isTest_of_isImplicit c hr) run
    refine ⟨s₀, s₁, v, type, v', b, precedes, hconv.1, hasks, htakes, ?_⟩
    rintro rfl hv
    obtain ⟨op, hop, hout⟩ := conversion_bit hv (isUnsignedAt c e)
    refine ⟨op, hconv.emitted hop, fun ν d hread hd hbit => ?_⟩
    rw [hout ν d hread hd, d.lastBit_eq_isTrue hbit]

theorem truth_received_three : number.isAbsent = false ∧
    (∃ t s', Test.condition.run flagContext number flagState = .ok t s' ∧
      ∃ v b inst, Emitted b inst t s'.body ∧
        ∀ ν : Valuation, ν.read v = some (.word (Scalar.i32.word 3)) →
          ν.outcome inst = some (.word (.ofBool true))) ∧
    ∃ s', returned.run flagContext number flagState = .ok none s' ∧
      ∃ v v' b₀ b op, Emitted b₀ (.conv op v (.int 1)) v' b ∧
        s'.body = (b.finish (.ret (some v'))).halt ∧
        ∀ ν : Valuation, ν.read v = some (.word (Scalar.i32.word 3)) →
          ν.outcome (.conv op v (.int 1)) = some (.word (.ofBool true)) := by
  have typed : ∀ {s s' v}, s.values = flagState.values → valueOf flagContext number s = .ok v s' →
      v.type = .int 32 := by
    intro s s' v hs h
    have hplace : s.values.lookup 1 = some (.computed 0 1 (.pointer (.int 32))) := by
      rw [hs]
      rfl
    exact (type_of_variable rfl hplace (fun _ => rfl) h).1
  refine ⟨rfl, ?_, ?_⟩
  · obtain ⟨t, s', run⟩ : ∃ t s', Test.condition.run flagContext number flagState = .ok t s' :=
      ⟨_, _, rfl⟩
    obtain ⟨v, s₁, hvalue, tested⟩ :=
      (truth_received flagContext number flagState s' rfl).1 .condition t rfl run
    have hv := typed rfl hvalue
    obtain ⟨inst, emitted, outcome⟩ := tested (by rw [hv]; rfl)
    refine ⟨t, s', run, v, s₁.body, inst, emitted, fun ν hread => ?_⟩
    exact outcome ν _ hread (by rw [hv]; rfl)
  · obtain ⟨s', run⟩ : ∃ s', returned.run flagContext number flagState = .ok none s' := ⟨_, rfl⟩
    obtain ⟨s₀, s₁, v, type, v', b, precedes, hvalue, ⟨s₂, htype⟩, hbody, converted⟩ :=
      (truth_received flagContext number flagState s' rfl).2 returned none rfl run
    cases htype
    have hv := typed precedes.calm.values hvalue
    obtain ⟨op, emitted, outcome⟩ := converted rfl (by rw [hv]; rfl)
    refine ⟨s', run, v, v', s₁.body, b, op, emitted, hbody, fun ν hread => ?_⟩
    exact outcome ν _ hread (by rw [hv]; rfl) fun _ => rfl

/-- A function that returns `n` as a `bool` returns false for two, which is true as a condition. -/
theorem truth_misread : ∃ v s₁ v' b s' t s₂,
    valueOf flagContext number flagState = .ok v s₁ ∧
    returned.run flagContext number flagState = .ok none s' ∧
    Emitted s₁.body (.conv .trunc v (.int 1)) v' b ∧ returned.Takes v' b s' none ∧
    Test.condition.run flagContext number flagState = .ok t s₂ ∧
    Emitted s₁.body (.icmp .ne v (.int 32 0)) t s₂.body ∧
    ∀ ν : Valuation, ν.read v = some (.word (Scalar.i32.word 2)) →
      ν.outcome (.conv .trunc v (.int 1)) = some (.word (.ofBool false)) ∧
      ν.outcome (.icmp .ne v (.int 32 0)) = some (.word (.ofBool true)) := by
  refine ⟨_, _, _, _, _, _, _, rfl, rfl, ⟨rfl, rfl, rfl⟩, rfl, rfl, ⟨rfl, rfl, rfl⟩, ?_⟩
  intro ν hread
  exact ⟨ν.outcome_conv hread _ _, Valuation.outcome_icmp hread (ν.read_int 32 0) .ne⟩

end TreeLowering
