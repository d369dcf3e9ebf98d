import TreeLowering.Proofs.Addressing
import TreeLowering.Proofs.Completion
import TreeLowering.Proofs.Literals

/-!
The lengths of arrays. An array is made with a slot for its struct and a buffer, which is a stack
slot inside a function and a zeroed global elsewhere; then both fields of the struct are stored
(`Allocates`). The number of elements goes into a 32-bit constant for the length field and for the
stack slot, and into the type of the global. All three say the same number if it is below `2 ^ 31`,
and only then (`array_length_kept`): only lengths below zero are rejected, so a longer array has a
length field that reads as another number (`array_length_misread`).
-/
namespace TreeLowering

open Lower
open Ir (Valuation)

/-! ## Counts -/

/-- A 32-bit constant that denotes a number of elements, read with a sign and without. -/
def Ir.Value.Counts (v : Ir.Value) (n : Nat) : Prop :=
  ∃ bits : BitVec 32, (∀ ν : Valuation, ν.read v = some (.word ⟨32, bits⟩)) ∧
    bits.toInt = n ∧ bits.toNat = n

theorem Ir.Value.counts_i32 {n : Nat} : (Ir.Value.i32 n).Counts n ↔ n < 2 ^ 31 := by
  constructor
  · rintro ⟨bits, -, signed, -⟩
    have below := BitVec.toInt_lt (x := bits)
    rw [signed] at below
    omega
  · intro hn
    refine ⟨BitVec.ofInt 32 n, fun ν => ν.read_int 32 n, ?_, ?_⟩
    · rw [BitVec.toInt_ofInt]
      exact Int.bmod_eq_of_le (by omega) (by omega)
    · rw [BitVec.toNat_ofInt]
      omega

namespace Lower

variable {c : Context} {site : Site} {s s' : State} {n : Nat} {elem : Ir.Ty}

/-! ## Fields -/

/-- A field of the struct in a slot is addressed, and a value is stored there. -/
def FieldStored (b : Body) (type : Ir.Ty) (slot : Ir.Value) (field : Nat) (x : Ir.Value)
    (b' : Body) : Prop :=
  ∃ place done b₁, Emitted b (.address type slot [.i32 0, .i32 field]) place b₁ ∧
    Emitted b₁ (.store x place) done b'

theorem issues_fieldAddressAt (type : Ir.Ty) (slot : Ir.Value) (field : Nat) :
    Issues (fieldAddressAt .cursor type slot field) (.address type slot [.i32 0, .i32 field]) := by
  refine .get_bind fun s => ?_
  split
  · unfold addressAt
    split
    · exact .breach _
    · split
      · exact .emit _ _
      · exact .breach _
  · exact .breach _

theorem emitted_of_storeAt {x place : Ir.Value} {u : Unit}
    (h : storeAt .cursor x place s = .ok u s') :
    ∃ done, Emitted s.body (.store x place) done s'.body := by
  unfold storeAt at h
  rw [get_bind_apply] at h
  rcases ite_eq_ok.mp h with ⟨-, h⟩ | ⟨-, h⟩
  · obtain ⟨done, h⟩ := discard_eq_ok.mp h
    exact ⟨done, (emitted_of_emit h).1⟩
  · simp at h

/-- Filling an array stores its length, then its data. -/
theorem fillArray_eq_ok {slot length data : Ir.Value} {type : Ir.Ty} {u : Unit}
    (h : fillArray .cursor slot type length data s = .ok u s') :
    ∃ b, FieldStored s.body type slot Abi.arrayLengthField length b ∧
      FieldStored b type slot Abi.arrayDataField data s'.body := by
  unfold fillArray at h
  obtain ⟨p₁, s₁, h₁, h⟩ := bind_eq_ok.mp h
  obtain ⟨_, s₂, h₂, h⟩ := bind_eq_ok.mp h
  obtain ⟨p₃, s₃, h₃, h₄⟩ := bind_eq_ok.mp h
  obtain ⟨done₂, e₂⟩ := emitted_of_storeAt h₂
  obtain ⟨done₄, e₄⟩ := emitted_of_storeAt h₄
  exact ⟨s₂.body, ⟨p₁, done₂, s₁.body, issues_fieldAddressAt _ _ _ _ _ _ h₁, e₂⟩,
    p₃, done₄, s₃.body, issues_fieldAddressAt _ _ _ _ _ _ h₃, e₄⟩

/-! ## Buffers -/

/-- What a buffer for some elements is: inside a function a stack slot with a count, elsewhere a
    new global for just as many, as a pointer to the first. -/
inductive Reserves (c : Context) (site : Site) (elem : Ir.Ty) (count : Ir.Value) (n : Nat)
    (s : State) (buffer : Ir.Value) (s' : State) : Prop where
  | stack (here : isLocal c site s = .ok true s)
    (result : buffer = .computed s.body.fn s.body.lineCount (.pointer elem))
    (slot : s' = s.setBody (s.body.addVarsLine (.alloca elem (some count)) (.pointer elem)))
  | static (here : isLocal c site s = .ok false s) (g : Ir.Global)
    (content : g.content = .array n elem) (init : g.init = .zero (.array n elem))
    (added : s'.module.globals = s.module.globals.push g)
    (first : Emitted s.body
      (.conv .bitcast (.global s.module.globals.size (.array n elem)) (.pointer elem)) buffer
      s'.body)

/-- What a new array of some elements is: a slot for the struct and a buffer, with the count and the
    buffer stored into the fields of the slot. -/
structure Allocates (c : Context) (site : Site) (elem : Ir.Ty) (count : Ir.Value) (n : Nat)
    (s : State) (array : FreshArray) (s' : State) : Prop where
  type : array.type = arrayStruct elem
  slot : array.slot = .computed s.body.fn s.body.lineCount (.pointer array.type)
  filled : ∃ s₁ b,
    Reserves c site elem count n
      (s.setBody (s.body.addVarsLine (.alloca array.type none) (.pointer array.type)))
      array.buffer s₁ ∧
    FieldStored s₁.body array.type array.slot Abi.arrayLengthField count b ∧
    FieldStored b array.type array.slot Abi.arrayDataField array.buffer s'.body

theorem reserves_of_globalBuffer {buffer : Ir.Value} (here : isLocal c site s = .ok false s)
    (h : globalBuffer .cursor Abi.arrayBuffer elem n s = .ok buffer s') :
    Reserves c site elem (.i32 n) n s buffer s' := by
  unfold globalBuffer at h
  obtain ⟨g, s₁, h₁, h⟩ := bind_eq_ok.mp h
  obtain ⟨rfl, unique, names, rfl⟩ := addGlobal_eq_ok h₁
  have added := (emitAt_cursor_eq_ok.mp h).2.2
  refine .static here { name := unique, content := .array n elem, init := .zero (.array n elem) }
    rfl rfl ?_ (emitted_of_emit h).1
  rw [added]
  rfl

theorem allocateArray_eq_ok {array : FreshArray}
    (h : allocateArray c site elem n s = .ok array s') :
    Allocates c site elem (.i32 n) n s array s' := by
  unfold allocateArray at h
  obtain ⟨slot, s₀, h₀, h⟩ := bind_eq_ok.mp h
  obtain ⟨rfl, rfl⟩ := emitAt_vars_eq_ok.mp h₀
  obtain ⟨here, s₁, h₁, h⟩ := bind_eq_ok.mp h
  cases asks_isLocal c site _ here s₁ h₁
  have rest : ∀ {buffer : Ir.Value} {s₂ : State}, Reserves c site elem (.i32 n) n
      (s.setBody (s.body.addVarsLine (.alloca (arrayStruct elem) none)
        (.pointer (arrayStruct elem)))) buffer s₂ →
      (do
        fillArray .cursor (.computed s.body.fn s.body.lineCount (.pointer (arrayStruct elem)))
          (arrayStruct elem) (.i32 n) buffer
        pure (⟨.computed s.body.fn s.body.lineCount (.pointer (arrayStruct elem)),
          arrayStruct elem, buffer⟩ : FreshArray)) s₂ = .ok array s' →
      Allocates c site elem (.i32 n) n s array s' := by
    intro buffer s₂ reserves h
    obtain ⟨_, s₃, h₃, h⟩ := bind_eq_ok.mp h
    obtain ⟨rfl, rfl⟩ := pure_eq_ok.mp h
    obtain ⟨b, length, data⟩ := fillArray_eq_ok h₃
    exact ⟨rfl, rfl, s₂, b, reserves, length, data⟩
  cases here with
  | true =>
    obtain ⟨buffer, s₂, h₂, h⟩ := bind_eq_ok.mp h
    obtain ⟨rfl, rfl⟩ := emitAt_vars_eq_ok.mp h₂
    exact rest (.stack h₁ rfl rfl) h
  | false =>
    obtain ⟨buffer, s₂, h₂, h⟩ := bind_eq_ok.mp h
    exact rest (reserves_of_globalBuffer h₁ h₂) h

/-- An array of a given length has just as many elements. -/
theorem unfilledArray_eq_ok {length : Int64} {ref : Option TypeRef} {v : Ir.Value}
    (h : unfilledArray c site length ref s = .ok v s') :
    ∃ (n : Nat) (t : Ty) (elem : Ir.Ty) (s₀ s₁ s₂ : State) (array : FreshArray),
      (n : Int) = length.toInt ∧ typeOfRef c ref s = .ok t s₀ ∧
      instructionType c t s₀ = .ok elem s₁ ∧ Allocates c site elem (.i32 n) n s₁ array s₂ ∧
      Emitted s₂.body (.load array.type array.slot) v s'.body := by
  unfold unfilledArray at h
  rcases ite_eq_ok.mp h with ⟨-, h⟩ | ⟨natural, h⟩
  · simp at h
  obtain ⟨t, s₀, h₀, h⟩ := bind_eq_ok.mp h
  obtain ⟨elem, s₁, h₁, h⟩ := bind_eq_ok.mp h
  obtain ⟨array, s₂, h₂, h⟩ := bind_eq_ok.mp h
  have bound : 0 ≤ length.toInt := by
    rw [Int64.lt_iff_toInt_lt] at natural
    exact Int.not_lt.mp natural
  exact ⟨length.toInt.toNat, t, elem, s₀, s₁, s₂, array, Int.toNat_of_nonneg bound, h₀, h₁,
    allocateArray_eq_ok h₂, (emitted_of_emit h).1⟩

end Lower

/-- Every array that is lowered, inside a function or outside, is made with its number of elements
    as the count: of a given length `n` with `n` elements, and from a list with as many as the list
    has. The count is the length field, and the size of the buffer inside a function; it says that
    number, with a sign and without, if and only if the number is below `2 ^ 31`. -/
theorem array_length_kept (c : Context) (site : Site) (s s' : State) (v : Ir.Value) :
    (∀ length ref, valueOf c (.arrayAlloc site length ref) s = .ok v s' →
      ∃ (n : Nat) (t : Ty) (elem : Ir.Ty) (s₀ s₁ s₂ : State) (array : FreshArray),
        (n : Int) = length.toInt ∧ typeOfRef c ref s = .ok t s₀ ∧
        instructionType c t s₀ = .ok elem s₁ ∧ Allocates c site elem (.i32 n) n s₁ array s₂ ∧
        Emitted s₂.body (.load array.type array.slot) v s'.body ∧
        ((Ir.Value.i32 n).Counts n ↔ length.toInt < 2 ^ 31)) ∧
    (∀ elems, valueOf c (.arrayLit site elems) s = .ok v s' →
      ∃ (t et : Ty) (elem : Ir.Ty) (s₀ s₁ s₂ s₃ : State) (array : FreshArray),
        typeOfExpr c (.arrayLit site elems) s = .ok t s₀ ∧
        (c.analysis.store.underlying t).elem? = some et ∧ instructionType c et s₀ = .ok elem s₁ ∧
        Allocates c site elem (.i32 elems.length) elems.length s₁ array s₂ ∧
        storeElements c et elem array.buffer 0 elems s₂ = .ok () s₃ ∧
        Emitted s₃.body (.load array.type array.slot) v s'.body ∧
        ((Ir.Value.i32 elems.length).Counts elems.length ↔ elems.length < 2 ^ 31)) := by
  refine ⟨fun length ref h => ?_, fun elems h => ?_⟩
  · rw [valueOf] at h
    obtain ⟨n, t, elem, s₀, s₁, s₂, array, hn, rest⟩ := unfilledArray_eq_ok h
    obtain ⟨ht, he, made, read⟩ := rest
    refine ⟨n, t, elem, s₀, s₁, s₂, array, hn, ht, he, made, read, ?_⟩
    rw [Ir.Value.counts_i32, ← hn]
    norm_cast
  · rw [valueOf] at h
    obtain ⟨t, s₀, h₀, h⟩ := bind_eq_ok.mp h
    cases hel : (c.analysis.store.underlying t).elem? with
    | none => simp [hel] at h
    | some et =>
      simp only [hel] at h
      obtain ⟨elem, s₁, h₁, h⟩ := bind_eq_ok.mp h
      obtain ⟨array, s₂, h₂, h⟩ := bind_eq_ok.mp h
      obtain ⟨_, s₃, h₃, h⟩ := bind_eq_ok.mp h
      exact ⟨t, et, elem, s₀, s₁, s₂, s₃, array, h₀, hel, h₁, allocateArray_eq_ok h₂, h₃,
        (emitted_of_emit h).1, Ir.Value.counts_i32⟩

/-- The types of a reference to `i8`, of arrays of it and of an element. -/
def bytesContext : Context where
  analysis :=
    { store := {}
      facts :=
        { types := [(some 1, .scalar .i8), (some 2, .array (.scalar .i8)),
            (some 3, .scalar .i8)] } }
  config := {}

/-- An array of a number of bytes. -/
def bytes (length : Int64) : Expr :=
  .arrayAlloc { id := 2 } length (some { site := { id := 1 }, name := "i8" })

/-- The array `[7, 7]`. -/
def twoBytes : Expr := .arrayLit { id := 2 } [.intLit { id := 3 } 7, .intLit { id := 3 } 7]

/-- Before a function's first statement. -/
def insideFunction : State where
  body := { fn := 0, head := some default }

theorem array_length_kept_longest :
    (∃ v s', valueOf bytesContext (bytes 2147483647) insideFunction = .ok v s' ∧
      ∃ n : Nat, n = 2147483647 ∧ (Ir.Value.i32 n).Counts n) ∧
    ∃ v s', valueOf bytesContext twoBytes {} = .ok v s' ∧ (Ir.Value.i32 2).Counts 2 := by
  obtain ⟨v, s', run⟩ :
      ∃ v s', valueOf bytesContext (bytes 2147483647) insideFunction = .ok v s' := ⟨_, _, rfl⟩
  obtain ⟨w, t', run'⟩ : ∃ v s', valueOf bytesContext twoBytes {} = .ok v s' := ⟨_, _, rfl⟩
  obtain ⟨n, _, _, _, _, _, _, hn, -, -, -, -, kept⟩ :=
    (array_length_kept bytesContext { id := 2 } insideFunction s' v).1 _ _ run
  obtain ⟨_, _, _, _, _, _, _, _, -, -, -, -, -, -, kept'⟩ :=
    (array_length_kept bytesContext { id := 2 } {} t' w).2 _ run'
  exact ⟨⟨v, s', run, n, Int.ofNat.inj hn, kept.mpr (by decide)⟩,
    w, t', run', kept'.mpr (by decide)⟩

/-- What lowers an array of `2 ^ 31` bytes makes it with that constant for its length. -/
theorem allocates_longer {s s' : State} {v : Ir.Value}
    (run : valueOf bytesContext (bytes 2147483648) s = .ok v s') :
    ∃ array s₁, Allocates bytesContext { id := 2 } (.int 8) (.i32 2147483648) 2147483648 s array
      s₁ := by
  rw [bytes, valueOf] at run
  obtain ⟨n, t, elem, s₀, s₁, s₂, array, hn, ht, he, made, -⟩ := unfilledArray_eq_ok run
  cases ht
  cases he
  cases Int.ofNat.inj hn
  exact ⟨array, s₂, made⟩

/-- An array of `2 ^ 31` elements is made, outside a function and inside, and its length field reads
    as `-2 ^ 31`. -/
theorem array_length_misread :
    (∃ v s', valueOf bytesContext (bytes 2147483648) {} = .ok v s' ∧
      ∃ array s₁, Allocates bytesContext { id := 2 } (.int 8) (.i32 2147483648) 2147483648 {} array
        s₁) ∧
    (∃ v s', valueOf bytesContext (bytes 2147483648) insideFunction = .ok v s' ∧
      ∃ array s₁, Allocates bytesContext { id := 2 } (.int 8) (.i32 2147483648) 2147483648
        insideFunction array s₁) ∧
    ∀ ν : Valuation, ∃ bits : BitVec 32,
      ν.read (.i32 2147483648) = some (.word ⟨32, bits⟩) ∧ bits.toInt = -2147483648 := by
  obtain ⟨v, s', run⟩ : ∃ v s', valueOf bytesContext (bytes 2147483648) {} = .ok v s' :=
    ⟨_, _, rfl⟩
  obtain ⟨w, t', run'⟩ :
      ∃ v s', valueOf bytesContext (bytes 2147483648) insideFunction = .ok v s' := ⟨_, _, rfl⟩
  refine ⟨⟨v, s', run, allocates_longer run⟩, ⟨w, t', run', allocates_longer run'⟩, fun ν => ?_⟩
  exact ⟨_, ν.read_int 32 2147483648, by decide⟩

end TreeLowering
