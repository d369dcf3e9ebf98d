import TreeLowering.Proofs.Instructions
import TreeLowering.Proofs.Receivers

/-!
Which element an index and a step of a pointer address.

The index goes into the address in its own width, and a step back is the number subtracted from zero
in that width. The address extends it with a sign. So the element is the right one if the number, or
the number with its sign turned, is one of the width with a sign (`Scalar.Spans`,
`elements_addressed`); without a sign the upper half of the type's numbers is taken for numbers
below zero (`element_misaddressed`).
-/
namespace TreeLowering

open Lower
open Ir (Valuation Datum)

namespace Scalar

variable {k : Scalar} {n : Int}

/-- Whether a number is what its bits in a type say when they are extended with a sign to the width
    of an address. -/
def Spans (k : Scalar) (n : Int) : Prop :=
  k.bits = 64 ∨ -2 ^ (k.bits - 1) ≤ n ∧ n < 2 ^ (k.bits - 1)

instance : Decidable (k.Spans n) := inferInstanceAs (Decidable (_ ∨ _))

theorem signExtend_bitsOf (hk : k.isInteger = true) (h : k.Spans n) :
    (k.bitsOf n).signExtend 64 = BitVec.ofInt 64 n := by
  rw [BitVec.signExtend, BitVec.toInt_ofInt]
  rcases h with hbits | ⟨hlow, hhigh⟩
  · rw [hbits]
    apply BitVec.eq_of_toInt_eq
    rw [BitVec.toInt_ofInt, BitVec.toInt_ofInt]
    exact Int.bmod_bmod
  · have hpos : 0 < k.bits := bits_pos (by simp [isWord, hk])
    obtain ⟨b, hb⟩ : ∃ b, k.bits = b + 1 := ⟨k.bits - 1, by omega⟩
    rw [hb, Nat.add_sub_cancel] at hlow hhigh
    have hhalf : ((2 ^ k.bits : Nat) : Int) = 2 ^ b * 2 := by
      rw [hb, Nat.pow_succ]
      norm_cast
    rw [Int.bmod_eq_of_le (by omega) (by omega)]

/-- A number of elements, as a distance. -/
theorem scaled_bitsOf (hk : k.isInteger = true) (h : k.Spans n) (stride : Nat) :
    (k.bitsOf n).signExtend 64 * BitVec.ofNat 64 stride = BitVec.ofInt 64 (n * stride) := by
  rw [signExtend_bitsOf hk h, BitVec.ofInt_mul, BitVec.ofInt_natCast]

end Scalar

namespace Ir.Valuation

/-- The address `n` elements of a type after another one. -/
def element (ν : Valuation) (elem : Ty) (a : BitVec 64) (n : Int) : BitVec 64 :=
  a + BitVec.ofInt 64 (n * ν.stride elem)

section
variable {ν : Valuation} {k : Scalar} {n : Int} {base index back : Value} {a : BitVec 64}
  (hk : k.isInteger = true) (hb : ν.read base = some (.address a))
  (hi : ν.read index = some (.word (k.word n))) (elem : Ty)
include hk hb hi

/-- An address by an index is that many elements on. -/
theorem outcome_element (h : k.Spans n) :
    ν.outcome (.address elem base [index]) = some (.address (ν.element elem a n)) := by
  rw [outcome_address hb hi elem, Scalar.word, Scalar.scaled_bitsOf hk h, element]

/-- An address by an index that was subtracted from zero is that many elements back. -/
theorem outcome_element_back (hback : ν.Obeys back (.arith .sub (.int k.bits 0) index))
    (h : k.Spans (-n)) :
    ν.outcome (.address elem base [back]) = some (.address (ν.element elem a (-n))) := by
  have hread : ν.read back = some (.word (k.word (-n))) := by
    rw [hback, outcome_arith (ν.read_int _ _) hi, Arith.apply]
    show some (Datum.word ⟨_, k.bitsOf 0 - k.bitsOf n⟩) = _
    rw [Scalar.sub_bitsOf, Int.zero_sub]
    rfl
  exact outcome_element hk hb hread elem h

end

end Ir.Valuation

namespace Lower

variable {c : Context} {x i : Expr} {site : Site} {s s' : State} {p : Ir.Value} {elem : Ir.Ty}

/-! ## Steps that emit one instruction -/

/-- A step that succeeds emits an instruction and gives its result. -/
def Issues (m : Lower Ir.Value) (inst : Ir.Inst) : Prop :=
  ∀ s v s', m s = .ok v s' → Emitted s.body inst v s'.body

namespace Issues

variable {inst : Ir.Inst}

theorem emit (inst : Ir.Inst) (type : Ir.Ty) : Issues (emit inst type) inst :=
  fun _ _ _ h => (emitted_of_emit h).1

theorem breach (b : Breach) : Issues (Lower.breach b) inst :=
  fun _ _ _ h => (breach_ne_ok.mp h).elim

theorem get_bind {f : State → Lower Ir.Value} (h : ∀ s, Issues (f s) inst) :
    Issues (get >>= f) inst :=
  fun s v s' hm => h s s v s' hm

end Issues

theorem issues_elementAddress (elem : Ir.Ty) (base index : Ir.Value) :
    Issues (elementAddress elem base index) (.address elem base [index]) := by
  unfold elementAddress addressAt
  split
  · exact .breach _
  · split
    · exact .emit _ _
    · exact .breach _

theorem issues_extractData (array : Ir.Value) :
    Issues (extractData array) (.extractData array) := by
  unfold extractData
  split
  · exact .emit _ _
  · refine .get_bind fun s => ?_
    split
    · exact .emit _ _
    · exact .breach _
    · exact .breach _

/-! ## Elements -/

/-- What an index counts from: the value of a pointer, or the data of an array. The elements have
    the type `t` in the source. -/
inductive IndexBase (c : Context) (x : Expr) (s : State) : Ir.Value → Ty → State → Prop where
  | pointer {base : Ir.Value} {t : Ty} {s₁ : State}
      (type : c.analysis.store.underlying (c.analysis.typeOfExpr x) = .pointer t)
      (value : valueOf c x s = .ok base s₁) : IndexBase c x s base t s₁
  | array {array base : Ir.Value} {t : Ty} {s₀ s₁ : State}
      (type : (c.analysis.store.underlying (c.analysis.typeOfExpr x)).elem? = some t)
      (value : valueOf c x s = .ok array s₀)
      (data : Emitted s₀.body (.extractData array) base s₁.body) : IndexBase c x s base t s₁

/-- The place of an element is an address by the index from the pointer or the data. -/
theorem indexPlace_eq_ok
    (h : indexPlace c site x (valueOf c x) (valueOf c i) s = .ok (p, elem) s') :
    ∃ base t s₁ s₂ index s₃, IndexBase c x s base t s₁ ∧
      instructionType c t s₁ = .ok elem s₂ ∧ valueOf c i s₂ = .ok index s₃ ∧
      Emitted s₃.body (.address elem base [index]) p s'.body := by
  have rest : ∀ {base : Ir.Value} {t : Ty} {s₁ : State}, IndexBase c x s base t s₁ →
      (do
        let elem ← instructionType c t
        let index ← valueOf c i
        let q ← elementAddress elem base index
        pure (q, elem)) s₁ = .ok (p, elem) s' →
      ∃ base t s₁ s₂ index s₃, IndexBase c x s base t s₁ ∧
        instructionType c t s₁ = .ok elem s₂ ∧ valueOf c i s₂ = .ok index s₃ ∧
        Emitted s₃.body (.address elem base [index]) p s'.body := by
    intro base t s₁ hbase h
    obtain ⟨elem', s₂, helem, h⟩ := bind_eq_ok.mp h
    obtain ⟨index, s₃, hindex, h⟩ := bind_eq_ok.mp h
    obtain ⟨q, s₄, hq, h⟩ := bind_eq_ok.mp h
    cases h
    exact ⟨base, t, s₁, s₂, index, s₃, hbase, helem, hindex, issues_elementAddress _ _ _ _ _ _ hq⟩
  obtain ⟨type, s₀, htype, h⟩ := bind_eq_ok.mp h
  obtain ⟨rfl, rfl⟩ := typeOfExpr_eq_ok htype
  cases hu : c.analysis.store.underlying (c.analysis.typeOfExpr x) with
  | pointer t =>
    simp only [hu] at h
    obtain ⟨base, s₁, hbase, h⟩ := bind_eq_ok.mp h
    exact rest (.pointer hu hbase) h
  | array t | string =>
    simp only [hu, Ty.elem?, pure_bind] at h
    obtain ⟨array, s₁, harray, h⟩ := bind_eq_ok.mp h
    obtain ⟨data, s₂, hdata, h⟩ := bind_eq_ok.mp h
    exact rest (.array (by rw [hu, Ty.elem?]) harray (issues_extractData _ _ _ _ hdata)) h
  | _ => simp [hu, Ty.elem?] at h

/-- A step of a pointer by an integer lowers the pointer and the integer and is the operator on
    them. -/
theorem step_eq_ok {op : BinaryOp} (hop : BinaryOp.codedIsLogical (.known op) = false)
    (h : valueOf c (.binary site (.known op) x i) s = .ok p s') :
    ∃ v s₁, valueOf c x s = .ok v s₁ ∧ ∀ elem, v.type = .pointer elem →
      ∃ index s₂, valueOf c i s₁ = .ok index s₂ ∧
        onPointers site (.known op) v elem index s₂ = .ok p s' := by
  unfold valueOf binaryValue at h
  rw [hop, if_neg Bool.false_ne_true] at h
  obtain ⟨v, s₁, hv, h⟩ := bind_eq_ok.mp h
  refine ⟨v, s₁, hv, fun elem htype => ?_⟩
  rw [htype] at h
  exact bind_eq_ok.mp h

section
variable {base index : Ir.Value} {w : Nat} (hw : index.type = .int w)
include hw

theorem issues_stepOn (site : Site) (elem : Ir.Ty) :
    Issues (onPointers site (.known .add) base elem index) (.address elem base [index]) := by
  unfold onPointers
  rw [hw]
  exact issues_elementAddress elem base index

/-- A step back negates the number in its own width. -/
theorem stepBack_eq_ok (h : onPointers site (.known .sub) base elem index s = .ok p s') :
    ∃ back b, Emitted s.body (.arith .sub (.int w 0) index) back b ∧
      Emitted b (.address elem base [back]) p s'.body := by
  unfold onPointers at h
  rw [hw] at h
  obtain ⟨back, s₁, hback, h⟩ := bind_eq_ok.mp h
  exact ⟨back, s₁.body, (emitted_of_emit hback).1, issues_elementAddress _ _ _ _ _ _ h⟩

end

end Lower

/-- An index and a step address the element that many after the base, or before it, if the number,
    or the number with its sign turned, is one of the index's width with a sign. -/
theorem elements_addressed (c : Context) (site : Site) (x i : Expr) (k : Scalar)
    (integer : k.isInteger = true) (s s' : State) (p : Ir.Value) :
    (valueOf c (.index site x i) s = .ok p s' → ∃ place elem s₁,
      placeOf c (.index site x i) s = .ok (place, elem) s₁ ∧
        Emitted s₁.body (.load elem place) p s'.body) ∧
    (∀ elem, placeOf c (.index site x i) s = .ok (p, elem) s' →
      ∃ base t s₁ s₂ index s₃, IndexBase c x s base t s₁ ∧
        instructionType c t s₁ = .ok elem s₂ ∧ valueOf c i s₂ = .ok index s₃ ∧
        Emitted s₃.body (.address elem base [index]) p s'.body ∧
        ∀ (ν : Valuation) (n : Int) (a : BitVec 64), ν.read base = some (.address a) →
          ν.read index = some (.word (k.word n)) → k.Spans n →
          ν.outcome (.address elem base [index]) = some (.address (ν.element elem a n))) ∧
    (valueOf c (.binary site (.known .add) x i) s = .ok p s' →
      ∃ base s₁, valueOf c x s = .ok base s₁ ∧ ∀ elem, base.type = .pointer elem →
        ∃ index s₂, valueOf c i s₁ = .ok index s₂ ∧ (index.type = .int k.bits →
          Emitted s₂.body (.address elem base [index]) p s'.body ∧
          ∀ (ν : Valuation) (n : Int) (a : BitVec 64), ν.read base = some (.address a) →
            ν.read index = some (.word (k.word n)) → k.Spans n →
            ν.outcome (.address elem base [index]) = some (.address (ν.element elem a n)))) ∧
    (valueOf c (.binary site (.known .sub) x i) s = .ok p s' →
      ∃ base s₁, valueOf c x s = .ok base s₁ ∧ ∀ elem, base.type = .pointer elem →
        ∃ index s₂, valueOf c i s₁ = .ok index s₂ ∧ (index.type = .int k.bits →
          ∃ back b, Emitted s₂.body (.arith .sub (.int k.bits 0) index) back b ∧
            Emitted b (.address elem base [back]) p s'.body ∧
            ∀ (ν : Valuation) (n : Int) (a : BitVec 64), ν.read base = some (.address a) →
              ν.read index = some (.word (k.word n)) → k.Spans (-n) →
              ν.Obeys back (.arith .sub (.int k.bits 0) index) →
              ν.outcome (.address elem base [back]) =
                some (.address (ν.element elem a (-n))))) := by
  refine ⟨fun h => ?_, fun elem h => ?_, fun h => ?_, fun h => ?_⟩
  · rw [valueOf] at h
    obtain ⟨⟨place, elem⟩, s₁, hplace, hload⟩ := bind_eq_ok.mp h
    refine ⟨place, elem, s₁, ?_, (emitted_of_emit hload).1⟩
    rw [placeOf]
    exact hplace
  · rw [placeOf] at h
    obtain ⟨base, t, s₁, s₂, index, s₃, hbase, helem, hindex, emitted⟩ := indexPlace_eq_ok h
    exact ⟨base, t, s₁, s₂, index, s₃, hbase, helem, hindex, emitted, fun ν n a hb hi hn =>
      Valuation.outcome_element integer hb hi elem hn⟩
  · obtain ⟨base, s₁, hbase, steps⟩ := step_eq_ok rfl h
    refine ⟨base, s₁, hbase, fun elem htype => ?_⟩
    obtain ⟨index, s₂, hindex, hstep⟩ := steps elem htype
    exact ⟨index, s₂, hindex, fun hwidth => ⟨issues_stepOn hwidth site elem s₂ p s' hstep,
      fun ν n a hb hi hn => Valuation.outcome_element integer hb hi elem hn⟩⟩
  · obtain ⟨base, s₁, hbase, steps⟩ := step_eq_ok rfl h
    refine ⟨base, s₁, hbase, fun elem htype => ?_⟩
    obtain ⟨index, s₂, hindex, hstep⟩ := steps elem htype
    refine ⟨index, s₂, hindex, fun hwidth => ?_⟩
    obtain ⟨back, b, hback, haddress⟩ := stepBack_eq_ok hwidth hstep
    exact ⟨back, b, hback, haddress, fun ν n a hb hi hn hobeys =>
      Valuation.outcome_element_back integer hb hi elem hobeys hn⟩

/-- A variable `p` of type `i32*` and a variable `n` of type `u8`. -/
def elementContext : Context where
  analysis :=
    { store :=
        { objects := #[{ name := "p", type := .pointer (.scalar .i32), kind := .variable {} },
            { name := "n", type := .scalar .u8, kind := .variable {} }] }
      facts :=
        { types := [(some 1, .pointer (.scalar .i32)), (some 2, .scalar .u8)]
          definitions := [(some 1, 0), (some 2, 1)] } }
  config := {}

/-- The variables have stack slots. -/
def elementState : State where
  values := [(0, .computed 0 0 (.pointer (.pointer (.int 32)))),
    (1, .computed 0 1 (.pointer (.int 8)))]
  body :=
    (Body.addVarsLine { fn := 0 } (.alloca (.pointer (.int 32)) none)
      (.pointer (.pointer (.int 32)))).addVarsLine (.alloca (.int 8) none) (.pointer (.int 8))

/-- The expression `p`. -/
def origin : Expr := .varRef { id := 1 } "p" (.known .none)

/-- The expression `n`. -/
def offset : Expr := .varRef { id := 2 } "n" (.known .none)

/-- The expression `p[n]`. -/
def indexed : Expr := .index { id := 3 } origin offset

/-- The expression `p + n` or `p - n`. -/
def stepped (op : BinaryOp) : Expr := .binary { id := 3 } (.known op) origin offset

theorem elements_addressed_half : Scalar.u8.isInteger = true ∧
    (∃ p s', placeOf elementContext indexed elementState = .ok (p, .int 32) s' ∧
      ∃ base index b, Emitted b (.address (.int 32) base [index]) p s'.body ∧
        ∀ (ν : Valuation) (a : BitVec 64), ν.read base = some (.address a) →
          ν.read index = some (.word (Scalar.u8.word 127)) →
          ν.outcome (.address (.int 32) base [index]) =
            some (.address (ν.element (.int 32) a 127))) ∧
    ∃ p s', valueOf elementContext (stepped .sub) elementState = .ok p s' ∧
      ∃ base index back b b', Emitted b (.arith .sub (.int 8 0) index) back b' ∧
        Emitted b' (.address (.int 32) base [back]) p s'.body ∧
        ∀ (ν : Valuation) (a : BitVec 64), ν.read base = some (.address a) →
          ν.read index = some (.word (Scalar.u8.word 128)) →
          ν.Obeys back (.arith .sub (.int 8 0) index) →
          ν.outcome (.address (.int 32) base [back]) =
            some (.address (ν.element (.int 32) a (-128))) := by
  refine ⟨rfl, ?_, ?_⟩
  · obtain ⟨p, s', run⟩ :
        ∃ p s', placeOf elementContext indexed elementState = .ok (p, .int 32) s' := ⟨_, _, rfl⟩
    obtain ⟨base, t, s₁, s₂, index, s₃, -, -, -, emitted, outcome⟩ :=
      (elements_addressed elementContext { id := 3 } origin offset .u8 rfl elementState s' p).2.1
        (.int 32) run
    exact ⟨p, s', run, base, index, s₃.body, emitted, fun ν a hb hi =>
      outcome ν 127 a hb hi (by decide)⟩
  · obtain ⟨p, s', run⟩ :
        ∃ p s', valueOf elementContext (stepped .sub) elementState = .ok p s' := ⟨_, _, rfl⟩
    obtain ⟨base, s₁, hbase, rest⟩ :=
      (elements_addressed elementContext { id := 3 } origin offset .u8 rfl elementState s' p).2.2.2
        run
    cases hbase
    obtain ⟨index, s₂, hindex, rest⟩ := rest (.int 32) rfl
    cases hindex
    obtain ⟨back, b, hback, emitted, outcome⟩ := rest rfl
    exact ⟨p, s', run, _, _, back, _, b, hback, emitted, fun ν a hb hi hobeys =>
      outcome ν 128 a hb hi (by decide) hobeys⟩

/-- With a `u8` of two hundred, a step on goes 56 elements back. -/
theorem element_misaddressed : ∃ base s₁ index s₂ p s',
    valueOf elementContext origin elementState = .ok base s₁ ∧
    valueOf elementContext offset s₁ = .ok index s₂ ∧
    valueOf elementContext (stepped .add) elementState = .ok p s' ∧
    Emitted s₂.body (.address (.int 32) base [index]) p s'.body ∧
    ∀ (ν : Valuation) (a : BitVec 64), ν.stride (.int 32) = 4 →
      ν.read base = some (.address a) → ν.read index = some (.word (Scalar.u8.word 200)) →
      ν.outcome (.address (.int 32) base [index]) =
          some (.address (ν.element (.int 32) a (-56))) ∧
        ν.outcome (.address (.int 32) base [index]) ≠
          some (.address (ν.element (.int 32) a 200)) := by
  refine ⟨_, _, _, _, _, _, rfl, rfl, rfl, ⟨rfl, rfl, rfl⟩, fun ν a hstride hb hi => ?_⟩
  have hout : ν.outcome (.address (.int 32) _ [_]) =
      some (.address (ν.element (.int 32) a (-56))) :=
    Valuation.outcome_element rfl hb (n := -56) (k := .u8) hi (.int 32) (by decide)
  refine ⟨hout, fun h => ?_⟩
  have hsame : ν.element (.int 32) a (-56) = ν.element (.int 32) a 200 := by
    simpa using hout.symm.trans h
  rw [Valuation.element, Valuation.element, hstride, BitVec.add_right_inj] at hsame
  exact absurd hsame (by decide)

end TreeLowering
