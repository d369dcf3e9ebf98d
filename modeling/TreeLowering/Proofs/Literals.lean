import TreeLowering.Proofs.Traversal

/-!
String literals in a function.

Lowering a literal adds eight instructions to the block with the stack slots (`copyLines`): a slot
for the array, a buffer, the copy of the data into the buffer, the stores of length and buffer into
the slot, and the load of the array. Nothing else in that block is a call, so the literals that a
function owns can be read off it, one after the other (`Laid`).
-/
namespace TreeLowering

open Lower

namespace Ir

/-- Whether an instruction neither calls nor converts. -/
def Inst.isPlain : Inst → Bool
  | .call _ _ | .conv _ _ _ => false
  | _ => true

/-- The global that an instruction takes for a buffer. -/
def Inst.buffer? : Inst → Option GlobalId
  | .conv .bitcast (.global g _) _ => some g
  | _ => none

theorem Inst.buffer?_of_isPlain {i : Inst} (h : i.isPlain = true) : i.buffer? = none := by
  unfold Inst.buffer?
  split
  · cases h
  · rfl

/-- The instructions of the block with the stack slots. -/
def Function.slots (f : Function) : List Line :=
  ((f.blocks.find? fun block => block.label = varsLabel).map Block.lines).getD []

/-- The global holds the bytes of a string, and nobody can change or see it by its name. -/
structure Global.IsData (d : Global) (content : Bytes) : Prop where
  isPrivate : d.isPrivate = true
  isImmutable : d.isImmutable = true
  init : d.init = .chars content
  type : d.content = .array content.length (.int 8)

/-- The global is a zeroed buffer for so many bytes. -/
structure Global.IsBuffer (d : Global) (length : Nat) : Prop where
  init : d.init = .zero (.array length (.int 8))
  type : d.content = .array length (.int 8)
  isImmutable : d.isImmutable = false

/-- The copy intrinsic as it is declared. -/
def copyFunction : Function where
  name := Abi.memcpy
  result := .void
  params := [("dst", .bytePointer), ("src", .bytePointer), ("len", .int 32), ("isvolatile", .int 1)]

/-- The instructions for a string of some length, from the identity `n` on: its slot, its buffer,
    the copy from the data, the length and the buffer stored into the slot, and the array loaded. -/
def copyLines (fn n : Nat) (copy : FuncId) (data : GlobalId) (buffer : Inst) (length : Nat) :
    List Line :=
  let type := arrayStruct (.int 8)
  let slot := Value.computed fn n (.pointer type)
  let bytes := Value.computed fn (n + 1) Ty.bytePointer
  [⟨n, .alloca type none, .pointer type⟩,
    ⟨n + 1, buffer, Ty.bytePointer⟩,
    ⟨n + 2, .call (copyFunction.value copy)
      [bytes, .firstChar data length, .i32 length, .bitFalse], .void⟩,
    ⟨n + 3, .address type slot [.i32 0, .i32 Abi.arrayLengthField], .pointer (.int 32)⟩,
    ⟨n + 4, .store (.i32 length) (.computed fn (n + 3) (.pointer (.int 32))), .void⟩,
    ⟨n + 5, .address type slot [.i32 0, .i32 Abi.arrayDataField], .pointer Ty.bytePointer⟩,
    ⟨n + 6, .store bytes (.computed fn (n + 5) (.pointer Ty.bytePointer)), .void⟩,
    ⟨n + 7, .load type slot, type⟩]

/-- A buffer on the stack. -/
def stackBuffer (length : Nat) : Inst := .alloca (.int 8) (some (.i32 length))

/-- A buffer that is a global. -/
def staticBuffer (g : GlobalId) (length : Nat) : Inst :=
  .conv .bitcast (.global g (.array length (.int 8))) Ty.bytePointer

end Ir

namespace Body

/-- Appends instructions to the block with the stack slots. -/
def addVarsLines (b : Body) (lines : List Ir.Line) : Body :=
  { b with vars := b.vars ++ lines, lineCount := b.lineCount + lines.length }

theorem addVarsLine_eq (b : Body) (inst : Ir.Inst) (type : Ir.Ty) :
    b.addVarsLine inst type = b.addVarsLines [⟨b.lineCount, inst, type⟩] := rfl

@[simp] theorem addVarsLines_fn (b : Body) (lines : List Ir.Line) :
    (b.addVarsLines lines).fn = b.fn := rfl

@[simp] theorem addVarsLines_head (b : Body) (lines : List Ir.Line) :
    (b.addVarsLines lines).head = b.head := rfl

@[simp] theorem addVarsLines_lineCount (b : Body) (lines : List Ir.Line) :
    (b.addVarsLines lines).lineCount = b.lineCount + lines.length := rfl

@[simp] theorem addVarsLines_addVarsLines (b : Body) (xs ys : List Ir.Line) :
    (b.addVarsLines xs).addVarsLines ys = b.addVarsLines (xs ++ ys) := by
  simp [addVarsLines, Nat.add_assoc]

end Body

/-- Whether a literal in the code of an owner stands inside a function. -/
def Literal.isLocal (c : Context) (o : Owner) (lit : Literal) : Bool :=
  match lit.site.scope with
  | some s => (c.analysis.store.enclosingFunction s).isSome
  | none => o.isSome

namespace Lower

variable {c : Context} {s s' : State} {v : Ir.Value} {content : Bytes} {site : Site}

/-! ## One literal -/

theorem copyIntrinsic_eq_ok (h : copyIntrinsic s = .ok v s') :
    ∃ id, v = Ir.copyFunction.value id ∧
      ((s.memcpy = some id ∧ s' = s) ∨
        (s.memcpy = none ∧ id = s.module.funcs.size ∧ s' = { s with
          memcpy := some id
          module := { s.module with funcs := s.module.funcs.push Ir.copyFunction } })) := by
  unfold copyIntrinsic at h
  rw [get_bind_apply] at h
  cases hm : s.memcpy with
  | some id =>
    simp only [hm, pure_eq_ok] at h
    exact ⟨id, h.1.symm, .inl ⟨rfl, h.2.symm⟩⟩
  | none =>
    simp only [hm] at h
    cases h
    exact ⟨_, rfl, .inr ⟨rfl, rfl, rfl⟩⟩

theorem push_modify_size {α : Type} (xs : Array α) (x : α) (f : α → α) :
    (xs.push x).modify xs.size f = xs.push (f x) := by
  refine Array.ext_getElem? fun i => ?_
  rw [Array.getElem?_modify, Array.getElem?_push, Array.getElem?_push]
  by_cases hi : i = xs.size
  · simp [hi]
  · simp [hi, Ne.symm hi]

theorem addGlobal_eq_ok {name : String} {type : Ir.Ty} {g : Ir.GlobalId}
    (h : addGlobal name type s = .ok g s') :
    g = s.module.globals.size ∧ ∃ unique names, s' = { s with
      names
      module := { s.module with
        globals := s.module.globals.push
          { name := unique, content := type, init := .zero type } } } := by
  cases h
  exact ⟨rfl, _, _, rfl⟩

theorem internedData_eq_ok (h : internedData content s = .ok v s') :
    ∃ g, v = .firstChar g content.length ∧
      ((s.strings.lookup content = some g ∧ s' = s) ∨
        (s.strings.lookup content = none ∧ g = s.module.globals.size ∧ ∃ d names,
          d.IsData content ∧ s' = { s with
            names
            strings := (content, g) :: s.strings
            module := { s.module with globals := s.module.globals.push d } })) := by
  unfold internedData at h
  rw [get_bind_apply] at h
  cases hl : s.strings.lookup content with
  | some g =>
    simp only [hl, pure_eq_ok] at h
    exact ⟨g, h.1.symm, .inl ⟨rfl, h.2.symm⟩⟩
  | none =>
    simp only [hl] at h
    obtain ⟨g, s₁, h₁, h⟩ := bind_eq_ok.mp h
    obtain ⟨rfl, unique, names, rfl⟩ := addGlobal_eq_ok h₁
    cases h
    refine ⟨_, rfl, .inr ⟨rfl, rfl, ⟨unique, _, .chars content, true, true⟩, names,
      ⟨rfl, rfl, rfl, rfl⟩, ?_⟩⟩
    simp only [push_modify_size]
    rfl

theorem isLocal_eq_ok {b : Bool} (content : Bytes) (h : isLocal c site s = .ok b s') :
    s' = s ∧ b = Literal.isLocal c s.body.owner ⟨site, content⟩ := by
  unfold isLocal at h
  unfold Literal.isLocal
  cases hs : site.scope with
  | some scope =>
    simp only [hs, pure_eq_ok] at h
    exact ⟨h.2.symm, h.1.symm⟩
  | none =>
    simp only [hs, get_bind_apply, pure_eq_ok] at h
    exact ⟨h.2.symm, by rw [← h.1, Body.owner, Option.isSome_map]⟩

theorem fieldAddressAt_vars_eq_ok {slot : Ir.Value} {i : Nat} {t : Ir.Ty}
    (hi : [.int 32, .pointer (.int 8)][i]? = some t)
    (h : fieldAddressAt .vars (arrayStruct (.int 8)) slot i s = .ok v s') :
    v = .computed s.body.fn s.body.lineCount (.pointer t) ∧
      s' = s.setBody (s.body.addVarsLine
        (.address (arrayStruct (.int 8)) slot [.i32 0, .i32 i]) (.pointer t)) := by
  have fields : ∀ defs, (arrayStruct (.int 8)).fields? defs =
      some [.int 32, .pointer (.int 8)] := fun _ => rfl
  have fine : [Ir.Value.i32 0, .i32 i].findSome? badIndex? = none := rfl
  simp only [fieldAddressAt, get_bind_apply, fields, Option.bind_some, hi, addressAt, fine] at h
  cases ht : slot.type with
  | pointer => exact emitAt_vars_eq_ok.mp (by simpa only [ht] using h)
  | _ => simp [ht] at h

theorem storeAt_vars_eq_ok {x p : Ir.Value} {u : Unit} (h : storeAt .vars x p s = .ok u s') :
    s' = s.setBody (s.body.addVarsLine (.store x p) .void) := by
  unfold storeAt at h
  rw [get_bind_apply] at h
  rcases ite_eq_ok.mp h with ⟨-, h⟩ | ⟨-, h⟩
  · obtain ⟨v, h⟩ := discard_eq_ok.mp h
    exact (emitAt_vars_eq_ok.mp h).2
  · simp at h

/-- The length and the buffer of a string are stored among the stack slots. -/
theorem fillArray_vars_eq_ok {slot length data : Ir.Value} {u : Unit}
    (h : fillArray .vars slot (arrayStruct (.int 8)) length data s = .ok u s') :
    s' = s.setBody (s.body.addVarsLines
      [⟨s.body.lineCount, .address (arrayStruct (.int 8)) slot [.i32 0, .i32 Abi.arrayLengthField],
          .pointer (.int 32)⟩,
        ⟨s.body.lineCount + 1, .store length
          (.computed s.body.fn s.body.lineCount (.pointer (.int 32))), .void⟩,
        ⟨s.body.lineCount + 2, .address (arrayStruct (.int 8)) slot
          [.i32 0, .i32 Abi.arrayDataField], .pointer Ir.Ty.bytePointer⟩,
        ⟨s.body.lineCount + 3, .store data
          (.computed s.body.fn (s.body.lineCount + 2) (.pointer Ir.Ty.bytePointer)), .void⟩]) := by
  unfold fillArray at h
  obtain ⟨p₁, s₁, h₁, h⟩ := bind_eq_ok.mp h
  obtain ⟨_, s₂, h₂, h⟩ := bind_eq_ok.mp h
  obtain ⟨p₃, s₃, h₃, h₄⟩ := bind_eq_ok.mp h
  obtain ⟨rfl, rfl⟩ := fieldAddressAt_vars_eq_ok rfl h₁
  cases storeAt_vars_eq_ok h₂
  obtain ⟨rfl, rfl⟩ := fieldAddressAt_vars_eq_ok rfl h₃
  cases storeAt_vars_eq_ok h₄
  simp [Body.addVarsLine_eq, Ir.Ty.bytePointer]

/-- A buffer is a stack slot inside a function, else a new global. -/
theorem buffer_eq_ok {length : Nat} {here : Bool}
    (h : (if here then stackSlot (.int 8) (some (.i32 length))
      else globalBuffer .vars Abi.stringBuffer (.int 8) length) s = .ok v s') :
    v = .computed s.body.fn s.body.lineCount Ir.Ty.bytePointer ∧ ∃ s₁ buffer,
      s' = s₁.setBody (s.body.addVarsLine buffer Ir.Ty.bytePointer) ∧
      if here then buffer = Ir.stackBuffer length ∧ s₁ = s
      else buffer = Ir.staticBuffer s.module.globals.size length ∧
        addGlobal Abi.stringBuffer (.array length (.int 8)) s = .ok s.module.globals.size s₁ := by
  cases here with
  | true =>
    obtain ⟨rfl, rfl⟩ := emitAt_vars_eq_ok.mp h
    exact ⟨rfl, s, _, rfl, rfl, rfl⟩
  | false =>
    obtain ⟨g, s₁, h₁, h⟩ := bind_eq_ok.mp h
    obtain ⟨rfl, rfl⟩ := emitAt_vars_eq_ok.mp h
    cases h₁
    exact ⟨rfl, _, _, rfl, rfl, rfl⟩

/-- Lowering a literal makes a buffer, looks up the copy intrinsic and the data, and adds its
    instructions to the stack slots. -/
theorem stringValue_eq_ok (h : stringValue c site content s = .ok v s') :
    ∃ copy g buffer b b' s₀ s₁ s₂,
      (if Literal.isLocal c s.body.owner ⟨site, content⟩ then
          buffer = Ir.stackBuffer content.length ∧ s₀ = s.setBody b
        else buffer = Ir.staticBuffer s.module.globals.size content.length ∧
          addGlobal Abi.stringBuffer (.array content.length (.int 8)) (s.setBody b) =
            .ok s.module.globals.size s₀) ∧
      copyIntrinsic (s₀.setBody b') = .ok (Ir.copyFunction.value copy) s₁ ∧
      internedData content s₁ = .ok (.firstChar g content.length) s₂ ∧
      v = .computed s.body.fn (s.body.lineCount + 7) (arrayStruct (.int 8)) ∧
      s' = s₂.setBody (s.body.addVarsLines
        (Ir.copyLines s.body.fn s.body.lineCount copy g buffer content.length)) := by
  unfold stringValue at h
  obtain ⟨slot, s₀, h₀, h⟩ := bind_eq_ok.mp h
  obtain ⟨rfl, rfl⟩ := emitAt_vars_eq_ok.mp h₀
  generalize hb : s.body.addVarsLine _ _ = b at h
  obtain ⟨here, s₁, h₁, h⟩ := bind_eq_ok.mp h
  obtain ⟨rfl, hhere⟩ := isLocal_eq_ok content h₁
  have owner : (s.setBody b).body.owner = s.body.owner := by rw [← hb]; rfl
  have split : ∀ {f : Ir.Value → Lower Ir.Value} {t},
      (if here = true then stackSlot (.int 8) (some (.i32 content.length)) >>= f
        else globalBuffer .vars Abi.stringBuffer (.int 8) content.length >>= f) t =
      ((if here = true then stackSlot (.int 8) (some (.i32 content.length))
        else globalBuffer .vars Abi.stringBuffer (.int 8) content.length) >>= f) t := by
    intro f t
    split <;> rfl
  rw [split] at h
  obtain ⟨bytes, s₁, h₁, h⟩ := bind_eq_ok.mp h
  obtain ⟨rfl, s₀, buffer, rfl, hbuffer⟩ := buffer_eq_ok h₁
  generalize hb' : (s.setBody b).body.addVarsLine buffer _ = b' at h
  obtain ⟨copyValue, s₁, h₂, h⟩ := bind_eq_ok.mp h
  obtain ⟨copy, rfl, -⟩ := copyIntrinsic_eq_ok h₂
  obtain ⟨data, s₂, h₃, h⟩ := bind_eq_ok.mp h
  obtain ⟨g, rfl, -⟩ := internedData_eq_ok h₃
  have hs : s₂.body = b' :=
    (steady_internedData content _ _ _ h₃).1.trans (steady_copyIntrinsic _ _ _ h₂).1
  obtain ⟨_, s₃, h₄, h⟩ := bind_eq_ok.mp h
  obtain ⟨_, h₄⟩ := discard_eq_ok.mp h₄
  obtain ⟨-, rfl⟩ := emitAt_vars_eq_ok.mp h₄
  obtain ⟨_, s₄, h₅, h₆⟩ := bind_eq_ok.mp h
  cases fillArray_vars_eq_ok h₅
  obtain ⟨rfl, rfl⟩ := emitAt_vars_eq_ok.mp h₆
  refine ⟨copy, g, buffer, b, b', s₀, s₁, s₂, ?_, h₂, h₃, ?_, ?_⟩
  · rw [← owner, ← hhere]
    exact hbuffer
  · simp [hs, ← hb', ← hb, Body.addVarsLine_eq]
  · have result :
        ((Ir.copyFunction.value copy).type.signature?.map Prod.fst).getD .void = .void := rfl
    simp [hs, ← hb', ← hb, Body.addVarsLine_eq, Ir.copyLines, result, Nat.add_assoc]

end Lower

/-! ## Literals in a function -/

/-- The instructions are plain but for one segment for each literal, in order. -/
inductive Laid (P : Literal → List Ir.Line → Prop) : List Literal → List Ir.Line → Prop
  | nil : Laid P [] []
  | line {l : List Literal} {lines : List Ir.Line} (line : Ir.Line)
    (plain : line.inst.isPlain = true) : Laid P l lines → Laid P l (line :: lines)
  | copy {lit : Literal} {l : List Literal} {segment lines : List Ir.Line} :
    P lit segment → Laid P l lines → Laid P (lit :: l) (segment ++ lines)

namespace Laid

variable {P P' : Literal → List Ir.Line → Prop} {l l' : List Literal} {lines lines' : List Ir.Line}

theorem append (h : Laid P l lines) (h' : Laid P l' lines') :
    Laid P (l ++ l') (lines ++ lines') := by
  induction h with
  | nil => exact h'
  | line line plain _ ih => exact .line line plain ih
  | copy hp _ ih =>
    rw [List.append_assoc]
    exact .copy hp ih

theorem mono (hp : ∀ lit segment, P lit segment → P' lit segment) (h : Laid P l lines) :
    Laid P' l lines := by
  induction h with
  | nil => exact .nil
  | line line plain _ ih => exact .line line plain ih
  | copy h _ ih => exact .copy (hp _ _ h) ih

theorem exists_segment (h : Laid P l lines) : ∀ lit ∈ l, ∃ segment, P lit segment := by
  induction h with
  | nil => simp
  | line _ _ _ ih => exact ih
  | copy hp _ ih =>
    intro lit hm
    rcases List.mem_cons.mp hm with rfl | hm
    · exact ⟨_, hp⟩
    · exact ih lit hm

/-- Whatever is not plain is in a segment. -/
theorem plain (h : Laid P l lines) (hp : ∀ lit segment, ¬ P lit segment) :
    ∀ line ∈ lines, line.inst.isPlain = true := by
  induction h with
  | nil => simp
  | line line plain _ ih => simpa [plain] using ih
  | copy h _ _ => exact absurd h (hp _ _)

/-- Buffers are taken in segments only. -/
theorem buffer {Q : Ir.Line → Ir.GlobalId → Prop} (h : Laid P l lines)
    (hp : ∀ lit segment, P lit segment → ∀ line ∈ segment, ∀ g,
      line.inst.buffer? = some g → Q line g) :
    ∀ line ∈ lines, ∀ g, line.inst.buffer? = some g → Q line g := by
  induction h with
  | nil => simp
  | line line plain _ ih =>
    intro x hx g hg
    rcases List.mem_cons.mp hx with rfl | hx
    · rw [Ir.Inst.buffer?_of_isPlain plain] at hg
      cases hg
    · exact ih x hx g hg
  | copy h _ ih =>
    intro x hx g hg
    rcases List.mem_append.mp hx with hx | hx
    · exact hp _ _ h x hx g hg
    · exact ih x hx g hg

end Laid

/-- The body gets instructions for some literals among its stack slots. -/
structure Body.Adds (P : Literal → List Ir.Line → Prop) (l : List Literal) (b b' : Body) :
    Prop where
  fn : b'.fn = b.fn
  head : b'.head = b.head
  vars : ∃ lines, b'.vars = b.vars ++ lines ∧ Laid P l lines

namespace Body.Adds

variable {P P' : Literal → List Ir.Line → Prop} {l l' : List Literal} {b b' b'' : Body}

theorem trans (h₁ : b.Adds P l b') (h₂ : b'.Adds P l' b'') : b.Adds P (l ++ l') b'' := by
  obtain ⟨lines, hv, laid⟩ := h₁.vars
  obtain ⟨lines', hv', laid'⟩ := h₂.vars
  refine ⟨h₂.fn.trans h₁.fn, h₂.head.trans h₁.head, lines ++ lines', ?_, laid.append laid'⟩
  rw [hv', hv, List.append_assoc]

theorem mono (hp : ∀ lit segment, P lit segment → P' lit segment) (h : b.Adds P l b') :
    b.Adds P' l b' := by
  obtain ⟨lines, hv, laid⟩ := h.vars
  exact ⟨h.fn, h.head, lines, hv, laid.mono hp⟩

theorem owner (h : b.Adds P l b') : b'.owner = b.owner := by
  rw [Body.owner, h.head, Body.owner]

theorem of_kept (hk : b.Kept b') (hv : b'.vars = b.vars) : b.Adds P [] b' :=
  ⟨hk.fn, hk.head, [], by rw [hv, List.append_nil], .nil⟩

end Body.Adds

end TreeLowering
