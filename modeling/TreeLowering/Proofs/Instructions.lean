import TreeLowering.Proofs.Evaluation
import TreeLowering.Proofs.Expression
import TreeLowering.Proofs.Machine

/-!
Steps that emit instructions on integers.

`Performs` says of a step that it succeeds, and what its code does to a machine. Such statements
compose along `bind` (`Performs.bind'`). There is one for each step of expressions on integers and
truth values: an instruction, a store, a conversion, a test, an operator. A value is described by
its type and by the fact that it was computed before (`Shows`), so that later code leaves it as it
is (`Advance.read`).
-/
namespace TreeLowering

open Ir (Machine Frame Word)

namespace Scalar

variable {k k' : Scalar} {n : Int}

/-- The word of a number in a type. -/
def word (k : Scalar) (n : Int) : Word := ⟨k.bits, k.bitsOf n⟩

theorem word_wrap (k : Scalar) (n : Int) : k.word (k.wrap n) = k.word n := by
  rw [word, word, bitsOf_wrap]

theorem word_congr (h : k.bits = k'.bits) (n : Int) : k.word n = k'.word n := by
  unfold word bitsOf
  rw [h]

theorem word_bool (b : Bool) : Scalar.bool.word (bitNumber b) = Word.ofBool b := by
  cases b <;> rfl

theorem holds_bitNumber (b : Bool) : Scalar.bool.Holds (bitNumber b) := by
  cases b <;> rfl

theorem bits_eq_one_iff (hk : k.isWord = true) : k.bits = 1 ↔ k = .bool := by
  cases k <;> simp_all [isWord, bits, isBoolean, isInteger, isUnsigned]

/-- One bit is not widened with a sign. -/
theorem signed_iff (hk : k.isWord = true) :
    (!k.isUnsigned && decide (1 < k.bits)) = k.isSigned ∧
      (k.isUnsigned || decide (k.bits = 1)) = !k.isSigned := by
  cases k <;> first | exact ⟨rfl, rfl⟩ | cases hk

theorem Holds.zero (k : Scalar) : k.Holds 0 := by
  cases k <;> rfl

theorem Holds.bool_cases (h : Scalar.bool.Holds n) : n = 0 ∨ n = 1 := by
  have : n % 2 = n := h
  omega

end Scalar

/-- What code does to a machine, unless it stops. -/
abbrev Effect := Machine → Option Machine

/-- An effect stores nothing, and a value is some word then. -/
def Computes (fn : Ir.FuncId) (run : Effect) (v : Ir.Value) (m : Machine) (x : Word) : Prop :=
  ∃ m', run m = some m' ∧ m'.cells = m.cells ∧ m'.read fn v = some x

namespace Lower

variable {α β : Type} {c : Context} {vars : ObjectId → Prop} {s s' s₁ s₂ : State}
  {run run' : Effect} {k k' : Scalar} {v : Ir.Value} {fn : Ir.FuncId}

theorem scalarType_eq (hk : k.isWord = true) : scalarType k = .int k.bits := by
  cases k <;> first | rfl | cases hk

/-! ## States -/

/-- The types that were mapped before were mapped right, as far as they are scalar. -/
def Mapped (c : Context) (s : State) : Prop :=
  ∀ id t k, s.mapped.lookup id = some t → c.analysis.store.scalar? (.named id) = some k →
    t = scalarType k

/-- There is a place for instructions, and each variable has a stack slot of its own. -/
structure Ready (c : Context) (fn : Ir.FuncId) (vars : ObjectId → Prop) (s : State) : Prop where
  here : s.body.fn = fn
  live : s.body.cursor.isSome
  mapped : Mapped c s
  slots : ∀ v k, vars v → c.kindOfVariable v = some k →
    ∃ id, s.values.lookup v = some (.computed fn id (.pointer (scalarType k)))
  apart : ∀ v v' id t t', vars v → vars v' →
    s.values.lookup v = some (.computed fn id t) →
    s.values.lookup v' = some (.computed fn id t') → v = v'

/-- The stack slots hold what variables hold. -/
def Stores (c : Context) (fn : Ir.FuncId) (vars : ObjectId → Prop) (s : State) (m : Machine)
    (held : Contents) : Prop :=
  ∀ v k id t, vars v → c.kindOfVariable v = some k →
    s.values.lookup v = some (.computed fn id t) →
    k.Holds (held v) ∧ m.cells id = some (k.word (held v))

theorem Stores.congr {m m' : Machine} {held : Contents} (h : Stores c fn vars s m held)
    (hm : m'.cells = m.cells) : Stores c fn vars s m' held := by
  intro v k id t hv hk hl
  rw [hm]
  exact h v k id t hv hk hl

/-- A variable gets a new value. -/
theorem Stores.set {m : Machine} {held : Contents} {x : ObjectId} {id : Nat} {t : Ir.Ty} {n : Int}
    (h : Stores c fn vars s m held) (ready : Ready c fn vars s) (hx : vars x)
    (hk : c.kindOfVariable x = some k)
    (hl : s.values.lookup x = some (.computed fn id t)) (hn : k.Holds n) :
    Stores c fn vars s (m.setCell id (k.word n)) (Function.update held x n) := by
  intro v k' id' t' hv hk' hl'
  by_cases he : v = x
  · subst he
    rw [hl] at hl'
    rw [hk] at hk'
    cases hl'
    cases hk'
    simp [hn, Machine.setCell]
  · -- Another variable has another slot.
    have hid : id' ≠ id := fun hid => he (ready.apart v x id t' t hv hx (hid ▸ hl') hl)
    rw [Function.update_of_ne he]
    simpa [Machine.setCell, Function.update_of_ne hid] using h v k' id' t' hv hk' hl'

/-- A state after code was added that does `run` to a machine. -/
structure Advance (c : Context) (fn : Ir.FuncId) (s s' : State)
    (run : Effect) : Prop where
  code : ∃ code, GrowsBy s.body code s'.body ∧ code.exec fn = run
  values : s'.values = s.values
  mapped : Mapped c s → Mapped c s'

namespace Advance

theorem of_body (hb : s'.body = s.body) (hv : s'.values = s.values)
    (hm : Mapped c s → Mapped c s') : Advance c fn s s' some :=
  ⟨⟨.nil, hb ▸ .nil _, rfl⟩, hv, hm⟩

theorem refl (s : State) : Advance c fn s s some := of_body rfl rfl id

theorem trans (h₁ : Advance c fn s s₁ run) (h₂ : Advance c fn s₁ s₂ run') :
    Advance c fn s s₂ fun m => (run m).bind run' := by
  obtain ⟨c₁, g₁, rfl⟩ := h₁.code
  obtain ⟨c₂, g₂, rfl⟩ := h₂.code
  exact ⟨⟨.seq c₁ c₂, .seq g₁ g₂, rfl⟩, h₂.values.trans h₁.values, h₂.mapped ∘ h₁.mapped⟩

section
variable (h : Advance c fn s s' run)
include h

theorem lineCount : s.body.lineCount ≤ s'.body.lineCount := by
  obtain ⟨code, g, -⟩ := h.code
  exact g.kept.lineCount

theorem ready (hr : Ready c fn vars s) : Ready c fn vars s' := by
  obtain ⟨code, g, -⟩ := h.code
  refine ⟨g.kept.fn.trans hr.here, g.live hr.live, h.mapped hr.mapped, ?_, ?_⟩
  · rw [h.values]
    exact hr.slots
  · rw [h.values]
    exact hr.apart

theorem stores {m : Machine} {held : Contents} :
    Stores c fn vars s' m held ↔ Stores c fn vars s m held := by
  unfold Stores
  rw [h.values]

/-- Results of before stay. -/
theorem read {m m' : Machine} (hm : run m = some m')
    (hv : ∀ id t, v = .computed fn id t → id < s.body.lineCount) :
    m'.read fn v = m.read fn v := by
  obtain ⟨code, g, rfl⟩ := h.code
  exact Machine.read_congr fun id t he => g.exec_results hm id (hv id t he)

end

end Advance

/-! ## Steps -/

/-- The step succeeds, and `R` holds of the state after it, of what its code does to a machine, and
    of the result. -/
def Performs (c : Context) (fn : Ir.FuncId) (s : State) (x : Lower α)
    (R : State → Effect → α → Prop) : Prop :=
  ∃ a s' run, x s = .ok a s' ∧ Advance c fn s s' run ∧ R s' run a

namespace Performs

variable {R : State → Effect → α → Prop}
  {R' : State → Effect → β → Prop}

theorem pure' {a : α} (h : R s some a) : Performs c fn s (pure a) R :=
  ⟨a, s, some, rfl, .refl s, h⟩

theorem bind' {x : Lower α} {f : α → Lower β} (hx : Performs c fn s x R)
    (hf : ∀ s' run a, Advance c fn s s' run → R s' run a →
      Performs c fn s' (f a) fun s'' run' => R' s'' fun m => (run m).bind run') :
    Performs c fn s (x >>= f) R' := by
  obtain ⟨a, s₁, run, h₁, adv₁, r₁⟩ := hx
  obtain ⟨b, s₂, run', h₂, adv₂, r₂⟩ := hf s₁ run a adv₁ r₁
  exact ⟨b, s₂, _, bind_eq_ok.mpr ⟨a, s₁, h₁, h₂⟩, adv₁.trans adv₂, r₂⟩

theorem mono {R₁ : State → Effect → α → Prop} {x : Lower α}
    (hx : Performs c fn s x R)
    (h : ∀ s' run a, Advance c fn s s' run → R s' run a → R₁ s' run a) : Performs c fn s x R₁ := by
  obtain ⟨a, s', run, hr, adv, r⟩ := hx
  exact ⟨a, s', run, hr, adv, h s' run a adv r⟩

theorem get_bind {f : State → Lower α} (hf : Performs c fn s (f s) R) :
    Performs c fn s (get >>= f) R := hf

theorem pure_bind' {a : β} {f : β → Lower α} (hf : Performs c fn s (f a) R) :
    Performs c fn s (pure a >>= f) R := hf

end Performs

/-- A value of a type, which is a constant or was computed before. -/
structure Shows (fn : Ir.FuncId) (s : State) (k : Scalar) (v : Ir.Value) : Prop where
  type : v.type = .int k.bits
  made : ∀ id t, v = .computed fn id t → id < s.body.lineCount

theorem Shows.mono (h : Shows fn s k v) (adv : Advance c fn s s' run) : Shows fn s' k v := by
  refine ⟨h.type, fun id t he => ?_⟩
  exact Nat.lt_of_lt_of_le (h.made id t he) adv.lineCount

theorem Shows.int (fn : Ir.FuncId) (s : State) (k : Scalar) (x : Int) :
    Shows fn s k (.int k.bits x) :=
  ⟨rfl, fun _ _ he => nomatch he⟩

/-! ## Instructions -/

/-- What an instruction leaves: a new result, and everything else as it was. -/
structure Computed (fn : Ir.FuncId) (k : Scalar) (inst : Ir.Inst) (s' : State)
    (run : Effect) (v : Ir.Value) : Prop where
  shows : Shows fn s' k v
  fresh : ∀ w x, v ≠ .int w x
  runs : ∀ m w, m.result fn none inst = some w → Computes fn run v m w

/-- An instruction that is no store. -/
theorem performs_emit {inst : Ir.Inst} (k : Scalar) (ready : Ready c fn vars s)
    (hp : inst.isPhi = false) (ha : inst.isAlloca = false)
    (hs : ∀ m : Machine, m.exec fn none ⟨s.body.lineCount, inst, .int k.bits⟩ =
      (m.result fn none inst).map (m.setResult s.body.lineCount)) :
    Performs c fn s (emit inst (.int k.bits)) (Computed fn k inst) := by
  have hfn := ready.here
  subst hfn
  refine ⟨.computed s.body.fn s.body.lineCount (.int k.bits),
    s.setBody (s.body.emit inst (.int k.bits)), _,
    emitAt_cursor_eq_ok.mpr ⟨ready.live, rfl, rfl⟩,
    ⟨⟨_, .line _ ready.live hp ha fun _ _ => trivial, rfl⟩, rfl, id⟩, ⟨rfl, ?_⟩,
    fun _ _ => Ir.Value.noConfusion, ?_⟩
  · intro id t he
    obtain ⟨l, hl⟩ := Option.isSome_iff_exists.mp ready.live
    rw [← (Ir.Value.computed.inj he).2.1]
    simp [Body.emit, hl, Body.addLine]
  · intro m w hw
    refine ⟨m.setResult s.body.lineCount w, ?_, rfl, Machine.read_setResult_self _ _ _⟩
    rw [Code.exec, hs, hw, Option.map_some]

theorem performs_store {value : Ir.Value} {id : Nat} (ready : Ready c fn vars s)
    (hv : value.type = .int k.bits) :
    Performs c fn s (store value (.computed fn id (.pointer (.int k.bits)))) fun _ run _ =>
      ∀ m w old, m.read fn value = some w → m.cells id = some old → old.width = w.width →
        run m = some (m.setCell id w) := by
  have hfits : (Ir.Value.computed fn id (.pointer (.int k.bits))).type.pointee?.any
      (fun t => Ir.sameType s.module.types value.type t) = true := by
    rw [hv]
    simp [Ir.Value.type, Ir.Ty.pointee?, Ir.sameType, Ir.Ty.expand, Ir.Ty.same]
  refine ⟨(), s.setBody (s.body.emit (.store value
    (.computed fn id (.pointer (.int k.bits)))) .void), _, ?_,
    ⟨⟨_, .line _ ready.live rfl rfl fun _ _ => trivial, rfl⟩, rfl, fun h => h⟩, ?_⟩
  · unfold store storeAt
    rw [get_bind_apply]
    simp only [hfits, if_true]
    exact discard_eq_ok.mpr ⟨_, emitAt_cursor_eq_ok.mpr ⟨ready.live, rfl, rfl⟩⟩
  · intro m w old hw hold hwidth
    simp [Code.exec, Machine.exec, hw, Ir.Value.slot?, hold, hwidth]

/-! ## Types -/

theorem performs_instructionType {t : Ty} (hm : Mapped c s)
    (ht : c.analysis.store.scalar? t = some k) :
    Performs c fn s (instructionType c t) fun _ run a => a = scalarType k ∧ run = some := by
  have hdepth : ∃ d, declaredDepth c.analysis.store = d + 1 :=
    ⟨_, (Nat.succ_pred_eq_of_pos (Nat.mul_pos (Nat.succ_pos _) (Nat.succ_pos _))).symm⟩
  obtain ⟨d, hd⟩ := hdepth
  have scalar : ∀ d s, instructionTypeWithin c.analysis.store d (.scalar k) s =
      .ok (scalarType k) s := by
    intro d s
    cases d <;> simp [instructionTypeWithin, mapType]
  unfold instructionType
  rw [hd]
  cases t with
  | scalar k' =>
    cases ht
    exact ⟨_, s, some, scalar _ s, .refl s, rfl, rfl⟩
  | named id =>
    rw [instructionTypeWithin, mapType]
    unfold declaredType
    refine .get_bind ?_
    cases hl : s.mapped.lookup id with
    | some t => exact .pure' ⟨hm id t k hl ht, rfl⟩
    | none =>
      have hu : c.analysis.store.underlying (.named id) = .scalar k := by
        unfold Store.scalar? at ht
        split at ht
        · cases ht
          assumption
        · cases ht
      simp only [hu]
      refine .bind' (R := fun s' run a => a = scalarType k ∧ run = some ∧ s' = s)
        ⟨_, s, some, scalar d s, .refl s, rfl, rfl, rfl⟩ ?_
      rintro s' run a - ⟨rfl, rfl, rfl⟩
      refine ⟨_, { s' with mapped := (id, scalarType k) :: s'.mapped }, some, rfl,
        .of_body rfl rfl fun hm id' t k' hl' hk' => ?_, rfl, rfl⟩
      rw [List.lookup_cons] at hl'
      split at hl'
      · rename_i he
        rw [beq_iff_eq.mp he, ht] at hk'
        cases hk'
        exact (Option.some.inj hl').symm
      · exact hm id' t k' hl' hk'
  | missing | string | array _ | pointer _ | struct _ | func _ _ _ =>
    simp [Store.scalar?, Store.underlying] at ht

theorem not_isMissing {t : Ty} (ht : c.analysis.store.scalar? t = some k) :
    t.isMissing = false := by
  cases t with
  | missing => cases ht
  | _ => rfl

theorem typeOfExpr_eq {e : Expr} (h : c.kindOf e = some k) :
    typeOfExpr c e = pure (c.analysis.typeOfExpr e) := by
  have := not_isMissing h
  unfold typeOfExpr
  split
  · rename_i he
    rw [he] at this
    cases this
  · rfl

theorem typeOfRef_eq {r : TypeRef} (h : c.kindOfRef r = some k) :
    typeOfRef c (some r) = pure (c.analysis.typeOfRef r) := by
  unfold typeOfRef knownType
  simp [not_isMissing h]

theorem isUnsignedAt_eq {e : Expr} (h : c.kindOf e = some k) :
    isUnsignedAt c e = k.isUnsigned := by
  unfold isUnsignedAt Store.isUnsigned
  rw [show c.analysis.store.scalar? (c.analysis.typeOfExpr e) = some k from h]
  rfl

/-! ## Conversions -/

/-- A value is widened by the instruction for its type. -/
theorem widen_cases (hk : k.isWord = true) (hlt : k.bits < k'.bits) :
    ∃ op, (if (k.isUnsigned || decide (k.bits = 1)) = true then Conversion.instruction .zext
        else .instruction .sext) = .instruction op ∧
      ∀ n, k.Holds n → op.apply (k.bitsOf n) k'.bits = some (k'.bitsOf n) := by
  have hle := Nat.le_of_lt hlt
  rw [(Scalar.signed_iff hk).2]
  cases hs : k.isSigned with
  | false =>
    refine ⟨.zext, rfl, fun n hn => ?_⟩
    rw [Ir.Conv.apply, if_pos hlt, Scalar.zext_bitsOf hn hs hle]
  | true =>
    refine ⟨.sext, rfl, fun n hn => ?_⟩
    rw [Ir.Conv.apply, if_pos hlt, Scalar.sext_bitsOf hn hs hle]

/-- A conversion keeps the value, gives another constant, or is the right instruction. -/
theorem conversion_cases (defs : Array Ir.TypeDef) (hk : k.isWord = true)
    (hv : v.type = .int k.bits) (toUnsigned : Bool) (k' : Scalar) :
    (k.bits = k'.bits ∧
      conversion defs v k.isUnsigned toUnsigned (.int k'.bits) = .keep) ∨
    (∃ x, v = .int k.bits x ∧ k.isSigned = true ∧ k.bits < k'.bits ∧
      conversion defs v k.isUnsigned toUnsigned (.int k'.bits) = .constant (.int k'.bits x)) ∨
    ∃ op, conversion defs v k.isUnsigned toUnsigned (.int k'.bits) = .instruction op ∧
      ∀ n, k.Holds n → op.apply (k.bitsOf n) k'.bits = some (k'.bitsOf n) := by
  have hsame : Ir.sameType defs (.int k.bits) (.int k'.bits) = decide (k.bits = k'.bits) := by
    simp [Ir.sameType, Ir.Ty.expand, Ir.Ty.same]
  unfold conversion
  rw [hv, hsame]
  by_cases he : k.bits = k'.bits
  · exact .inl ⟨he, by simp [he]⟩
  right
  simp only [he, decide_false, Bool.false_eq_true, if_false, intToInt]
  by_cases hlt : k.bits < k'.bits
  · simp only [hlt, if_true]
    have hwiden := widen_cases hk hlt
    split
    · rename_i w x
      cases hv
      rw [(Scalar.signed_iff hk).1]
      cases hs : k.isSigned with
      | true => exact .inl ⟨x, rfl, rfl, trivial, rfl⟩
      | false => exact .inr hwiden
    · exact .inr hwiden
  · -- Fewer bits are the lower ones.
    refine .inr ⟨.trunc, by simp only [hlt, if_false], fun n _ => ?_⟩
    rw [Ir.Conv.apply, if_pos (by omega), Scalar.trunc_bitsOf (by omega)]

/-- The value of a type as one of another type. -/
theorem performs_convert (ready : Ready c fn vars s) (hk : k.isWord = true)
    (hv : Shows fn s k v) (toUnsigned : Bool)
    (hfit : ∀ x, v = .int k.bits x → k.isSigned = true → k.bits < k'.bits → k.Holds x) :
    Performs c fn s (convert v k.isUnsigned toUnsigned (.int k'.bits)) fun s' run v' =>
      Shows fn s' k' v' ∧ (∀ w x, v' = .int w x → v = .int k.bits x ∧ k.folds k' = true) ∧
      ∀ m n, m.read fn v = some (k.word n) → k.Holds n →
        Computes fn run v' m (k'.word (k'.wrap n)) := by
  refine .get_bind ?_
  rcases conversion_cases s.module.types hk hv.type toUnsigned k' with
    ⟨hbits, he⟩ | ⟨x, rfl, hs, hlt, he⟩ | ⟨op, he, happly⟩
  · rw [he]
    refine .pure' ⟨⟨hbits ▸ hv.type, hv.made⟩, ?_, fun m n hm _ => ⟨m, rfl, rfl, ?_⟩⟩
    · rintro w x rfl
      cases hv.type
      exact ⟨rfl, by simp [Scalar.folds, hbits]⟩
    · rw [hm, Scalar.word_wrap, Scalar.word_congr hbits]
  · rw [he]
    refine .pure' ⟨Shows.int fn s k' x, ?_, fun m n hm hn => ⟨m, rfl, rfl, ?_⟩⟩
    · rintro w x' ⟨⟩
      exact ⟨rfl, by simp [Scalar.folds, hs, hlt]⟩
    · -- A constant in range is the number that its bits are.
      have hbits : k.bitsOf x = k.bitsOf n := by
        simpa [Scalar.word] using hm
      rw [(hfit x rfl hs hlt).eq_of_bitsOf hn hbits, Scalar.word_wrap]
      rfl
  · rw [he]
    refine (performs_emit k' ready rfl rfl fun _ => rfl).mono fun s' run v' adv h => ?_
    refine ⟨h.shows, fun w x hx => absurd hx (h.fresh w x), fun m n hm hn => ?_⟩
    refine h.runs m _ ?_
    rw [Machine.result_conv hm, happly n hn, Scalar.word_wrap]
    rfl

/-- The truth of a value. -/
theorem performs_truth (e : Expr) (ready : Ready c fn vars s) (hk : k.isWord = true)
    (hv : Shows fn s k v) :
    Performs c fn s (truth e v) fun s' run v' =>
      Shows fn s' .bool v' ∧ (∀ w x, v' = .int w x → v = .int k.bits x ∧ k = .bool) ∧
      ∀ m n, m.read fn v = some (k.word n) → k.Holds n →
        Computes fn run v' m (Scalar.bool.word (bitNumber (n ≠ 0))) := by
  unfold truth
  rw [hv.type]
  simp only
  by_cases hone : k.bits = 1
  · have hb := (Scalar.bits_eq_one_iff hk).mp hone
    subst hb
    rw [if_pos hone]
    refine .pure' ⟨hv, ?_, fun m n hm hn => ⟨m, rfl, rfl, ?_⟩⟩
    · rintro w x rfl
      cases hv.type
      exact ⟨rfl, rfl⟩
    · rw [hm]
      rcases hn.bool_cases with rfl | rfl <;> rfl
  · rw [if_neg hone]
    refine (performs_emit .bool ready rfl rfl fun _ => rfl).mono fun s' run v' adv h => ?_
    refine ⟨h.shows, fun w x hx => absurd hx (h.fresh w x), fun m n hm hn => ?_⟩
    refine h.runs m _ ?_
    rw [Machine.result_icmp hm (Machine.read_int _ _), Scalar.word_bool]
    simp only [Ir.IntPred.holds, ne_eq, Scalar.bitsOf_inj hn (.zero k)]

/-! ## Operators -/

/-- An operation on the words of two numbers gives the word of a third one. -/
theorem Computed.arith {op : Ir.Arith} {x y : Ir.Value} {s' : State} {m : Machine} {a b r : Int}
    (h : Computed fn k (.arith op x y) s' run v) (hx : m.read fn x = some (k.word a))
    (hy : m.read fn y = some (k.word b))
    (hr : op.apply (k.bitsOf a) (k.bitsOf b) = some (k.bitsOf r)) :
    Computes fn run v m (k.word r) := by
  refine h.runs m _ ?_
  rw [Machine.result_arith hx hy, hr]
  rfl

theorem performs_stepBy (e : Expr) (site : Site) (ready : Ready c fn vars s)
    (hv : v.type = .int k.bits) (up : Bool) :
    Performs c fn s (stepBy e site v up)
      (Computed fn k (.arith .add v (.int k.bits (if up then 1 else -1)))) := by
  unfold stepBy
  rw [hv]
  exact performs_emit k ready rfl rfl fun _ => rfl

/-- An operator on numbers is an operation or a comparison. -/
theorem operation_cases {op : BinaryOp} (hop : op.isLogical = false) (unsigned : Bool) :
    (op.isComparison = false ∧ ∃ i, op.intArith? unsigned = some i) ∨
      (op.isComparison = true ∧ op.intArith? unsigned = none ∧
        ∃ p, op.intComparison? unsigned = some p) := by
  cases op with
  | condOr | condAnd => cases hop
  | eql | neq | gtr | lss | geq | leq => exact .inr ⟨rfl, rfl, _, rfl⟩
  | _ => exact .inl ⟨rfl, _, rfl⟩

theorem performs_onIntegers {op : BinaryOp} {x y : Ir.Value} (ready : Ready c fn vars s)
    (hop : op.isLogical = false) (hk : k.isWord = true) (hx : x.type = .int k.bits) :
    Performs c fn s (onIntegers (.known op) x y k.isUnsigned) fun s' run v =>
      Shows fn s' (op.resultKind k) v ∧ (∀ w n, v ≠ .int w n) ∧
      ∀ m a b r, m.read fn x = some (k.word a) → m.read fn y = some (k.word b) →
        k.Holds a → k.Holds b → op.value? k a b = some r →
        (op.resultKind k).Holds r ∧ Computes fn run v m ((op.resultKind k).word r) := by
  unfold onIntegers BinaryOp.resultKind
  simp only [Coded.get?, Option.bind_some]
  rcases operation_cases hop k.isUnsigned with ⟨hc, i, hi⟩ | ⟨hc, hi, p, hp⟩
  · rw [hi, hc, hx]
    refine (performs_emit k ready rfl rfl fun _ => rfl).mono fun s' run v _ h => ?_
    refine ⟨h.shows, h.fresh, fun m a b r ha hb hA hB hr => ?_⟩
    obtain ⟨happly, hR⟩ := Scalar.apply_bitsOf hk hA hB hi hr
    exact ⟨hR, h.arith ha hb happly⟩
  · rw [hi, hc]
    simp only [compareInts, hp]
    refine (performs_emit .bool ready rfl rfl fun _ => rfl).mono fun s' run v _ h => ?_
    refine ⟨h.shows, h.fresh, fun m a b r ha hb hA hB hr => ?_⟩
    rw [Scalar.holds_bitsOf hA hB hp hr, if_pos trivial, Scalar.word_bool]
    refine ⟨Scalar.holds_bitNumber _, h.runs m _ ?_⟩
    rw [Machine.result_icmp ha hb]

end Lower
end TreeLowering
