import TreeLowering.Proofs.Expression
import TreeLowering.Proofs.World

/-!
Expressions use what is at hand: lowering an expression leads from a world to one where all that was
ready still is, and its value is ready at the cursor (`supplies_valueOf`).
-/
namespace TreeLowering

namespace Lower

variable {α β : Type} {w : World}

/-- The step leads to a world where what was ready is ready, and the result satisfies `R`. -/
def Supplies (w : World) (m : Lower α) (R : World → α → Prop) : Prop :=
  ∀ a s', m w.state = .ok a s' → ∃ w', w'.state = s' ∧ w ≤ w' ∧ R w' a

namespace Supplies

theorem pure' {a : α} {R : World → α → Prop} (h : R w a) : Supplies w (pure a) R := by
  intro b s' hr
  obtain ⟨rfl, rfl⟩ := pure_eq_ok.mp hr
  exact ⟨w, rfl, w.le_refl, h⟩

theorem bind' {m : Lower α} {f : α → Lower β} {R : World → α → Prop} {R' : World → β → Prop}
    (hm : Supplies w m R) (hf : ∀ w' a, w ≤ w' → R w' a → Supplies w' (f a) R') :
    Supplies w (m >>= f) R' := by
  intro b s' h
  obtain ⟨a, s₁, h₁, h₂⟩ := bind_eq_ok.mp h
  obtain ⟨w₁, rfl, le₁, r₁⟩ := hm a s₁ h₁
  obtain ⟨w₂, rfl, le₂, r₂⟩ := hf w₁ a le₁ r₁ b s' h₂
  exact ⟨w₂, rfl, World.le_trans le₁ le₂, r₂⟩

theorem mono {m : Lower α} {R R' : World → α → Prop} (hm : Supplies w m R)
    (hr : ∀ w' a, R w' a → R' w' a) : Supplies w m R' := by
  intro a s' h
  obtain ⟨w', hw, le, r⟩ := hm a s' h
  exact ⟨w', hw, le, hr w' a r⟩

theorem of_steady {m : Lower α} {R : World → α → Prop} (hm : Steady m)
    (hr : ∀ s a s', m s = .ok a s' → ∀ w', R w' a) : Supplies w m R := by
  intro a s' h
  obtain ⟨hb, hc⟩ := hm w.state a s' h
  exact ⟨w.pass hb hc, rfl, w.le_pass hb hc, hr _ a s' h _⟩

/-- A steady step, then one that supplies. -/
theorem steady_bind {m : Lower α} {f : α → Lower β} {R : World → β → Prop} (hm : Steady m)
    (hf : ∀ w' a, w ≤ w' → Supplies w' (f a) R) : Supplies w (m >>= f) R :=
  bind' (R := fun _ _ => True) (of_steady hm fun _ _ _ _ _ => trivial) fun w' a le _ => hf w' a le

theorem get_bind {f : State → Lower α} {R : World → α → Prop} (hf : ∀ s, Supplies w (f s) R) :
    Supplies w (get >>= f) R := fun a s' h => hf w.state a s' h

theorem reject' {R : World → α → Prop} (pos : Position) (c : Cause) :
    Supplies w (reject pos c) R := fun _ _ h => (reject_ne_ok.mp h).elim

theorem breach' {R : World → α → Prop} (b : Breach) : Supplies w (breach b) R :=
  fun _ _ h => (breach_ne_ok.mp h).elim

theorem ite' {c : Prop} [Decidable c] {x y : Lower α} {R : World → α → Prop}
    (hx : Supplies w x R) (hy : Supplies w y R) : Supplies w (if c then x else y) R := by
  split
  · exact hx
  · exact hy

/-- A choice between two steps with one continuation. -/
theorem either {c : Prop} [Decidable c] {x y : Lower α} {f : α → Lower β} {R : World → α → Prop}
    {R' : World → β → Prop} (hm : Supplies w (if c then x else y) R)
    (hf : ∀ w' a, w ≤ w' → R w' a → Supplies w' (f a) R') :
    Supplies w (if c then x >>= f else y >>= f) R' := by
  split at hm
  · rw [if_pos ‹_›]
    exact bind' hm hf
  · rw [if_neg ‹_›]
    exact bind' hm hf

theorem discard' {m : Lower α} {R : World → α → Prop} (hm : Supplies w m R) :
    Supplies w (discard m) fun _ _ => True := by
  intro u s' h
  obtain ⟨a, ha⟩ := discard_eq_ok.mp h
  obtain ⟨w', hw, le, -⟩ := hm a s' ha
  exact ⟨w', hw, le, trivial⟩

end Supplies

/-! ## Instructions -/

theorem supplies_emitAt {spot : Place} {inst : Ir.Inst} (type : Ir.Ty) (hp : inst.isPhi = false)
    (ho : ∀ v ∈ inst.operands, w.Ready spot v) :
    Supplies w (emitAt spot inst type) fun w' v => w'.Ready spot v := by
  intro v s' h
  cases spot with
  | vars =>
    obtain ⟨rfl, rfl⟩ := emitAt_vars_eq_ok.mp h
    refine ⟨_, rfl, w.le_grow (w.certified.addVarsLine type hp ho) (.addVarsLine _ _ _)
      (.addVarsLine _ _ _) (.refl _ _) rfl, ?_⟩
    exact .computed type ⟨_, List.mem_append_right _ (List.mem_singleton.mpr rfl), rfl⟩
  | cursor =>
    obtain ⟨hl, rfl, rfl⟩ := emitAt_cursor_eq_ok.mp h
    obtain ⟨l, hl⟩ := Option.isSome_iff_exists.mp hl
    have hc := w.certified.emit hl type (fun _ v hv => (ho v hv).mono fun k hk => hk l hl)
      fun incoming hi => by simp [hi, Ir.Inst.isPhi] at hp
    refine ⟨_, rfl, w.le_grow hc (.emit _ _ _) (.emit _ _ _) (.refl _ _) (by simp), ?_⟩
    intro k t he l' hl' block hm hid
    obtain ⟨-, rfl, -⟩ := Ir.Value.computed.inj he
    exact .inr (.inr (Body.defines_emit ((Body.emit_cursor ..).symm.trans hl') hm hid))

theorem supplies_emit {inst : Ir.Inst} (type : Ir.Ty) (hp : inst.isPhi = false)
    (ho : ∀ v ∈ inst.operands, w.Ready .cursor v) :
    Supplies w (emit inst type) (World.Ready · .cursor) := supplies_emitAt type hp ho

theorem supplies_stackSlot (type : Ir.Ty) {count : Option Ir.Value}
    (hc : ∀ v ∈ count, w.Ready .vars v) :
    Supplies w (stackSlot type count) (World.Ready · .vars) :=
  supplies_emitAt _ rfl (by simpa [Ir.Inst.operands] using hc)

theorem supplies_load (type : Ir.Ty) {place : Ir.Value} (hp : w.Ready .cursor place) :
    Supplies w (load type place) (World.Ready · .cursor) :=
  supplies_emit _ rfl (by simpa [Ir.Inst.operands] using hp)

theorem supplies_storeAt (spot : Place) {value place : Ir.Value} (hv : w.Ready spot value)
    (hp : w.Ready spot place) : Supplies w (storeAt spot value place) fun _ _ => True := by
  refine .get_bind fun s => .ite' (.discard' (supplies_emitAt _ rfl ?_)) (.breach' _)
  simp [Ir.Inst.operands, hv, hp]

theorem supplies_store {value place : Ir.Value} (hv : w.Ready .cursor value)
    (hp : w.Ready .cursor place) : Supplies w (store value place) fun _ _ => True :=
  supplies_storeAt .cursor hv hp

theorem supplies_addressAt (spot : Place) (type : Ir.Ty) {base : Ir.Value}
    {indices : List Ir.Value} (target : Ir.Ty) (hb : w.Ready spot base)
    (hi : ∀ v ∈ indices, w.Ready spot v) :
    Supplies w (addressAt spot type base indices target) (World.Ready · spot) := by
  unfold addressAt
  split
  · exact .breach' _
  · split
    · refine supplies_emitAt _ rfl ?_
      simpa [Ir.Inst.operands, hb] using hi
    · exact .breach' _

theorem supplies_elementAddress (type : Ir.Ty) {base index : Ir.Value}
    (hb : w.Ready .cursor base) (hi : w.Ready .cursor index) :
    Supplies w (elementAddress type base index) (World.Ready · .cursor) :=
  supplies_addressAt _ _ _ hb (by simpa using hi)

theorem supplies_fieldAddressAt (spot : Place) (type : Ir.Ty) {base : Ir.Value} (index : Nat)
    (hb : w.Ready spot base) :
    Supplies w (fieldAddressAt spot type base index) (World.Ready · spot) := by
  refine .get_bind fun s => ?_
  split
  · refine supplies_addressAt _ _ _ hb ?_
    simp [Ir.Value.i32, World.Ready.int]
  · exact .breach' _

theorem supplies_fieldAddress (type : Ir.Ty) {base : Ir.Value} (index : Nat)
    (hb : w.Ready .cursor base) :
    Supplies w (fieldAddress type base index) (World.Ready · .cursor) :=
  supplies_fieldAddressAt _ _ _ hb

theorem supplies_extractData {value : Ir.Value} (hv : w.Ready .cursor value) :
    Supplies w (extractData value) (World.Ready · .cursor) := by
  have one : ∀ type, Supplies w (emit (.extractData value) type) (World.Ready · .cursor) :=
    fun type => supplies_emit _ rfl (by simpa [Ir.Inst.operands] using hv)
  unfold extractData
  split
  · exact one _
  · refine .get_bind fun s => ?_
    split
    · exact one _
    · exact .breach' _
    · exact .breach' _

theorem supplies_callAt (spot : Place) {callee : Ir.Value} {args : List Ir.Value}
    (hc : w.Ready spot callee) (ha : ∀ v ∈ args, w.Ready spot v) :
    Supplies w (callAt spot callee args) (World.Ready · spot) :=
  supplies_emitAt _ rfl (by simpa [Ir.Inst.operands, hc] using ha)

/-! ## Conversions and operators -/

theorem supplies_convert {v : Ir.Value} (unsigned toUnsigned : Bool) (target : Ir.Ty)
    (hv : w.Ready .cursor v) :
    Supplies w (convert v unsigned toUnsigned target) (World.Ready · .cursor) := by
  refine .get_bind fun s => ?_
  split
  · exact .pure' hv
  · rename_i v' hc
    exact .pure' (.of_constant (conversion_isConstant hc))
  · exact supplies_emit _ rfl (by simpa [Ir.Inst.operands] using hv)

theorem supplies_convertTo (c : Context) (e : Expr) {v : Ir.Value} (t : Ty)
    (hv : w.Ready .cursor v) : Supplies w (convertTo c e v t) (World.Ready · .cursor) :=
  .steady_bind (steady_instructionType c t) fun _ _ le => supplies_convert _ _ _ (le.ready hv)

theorem supplies_described_reject {R : World → α → Prop} (e : Expr) (pos : Position)
    (cause : Bytes → Cause) : Supplies w (do reject pos (cause (← described e))) R :=
  .steady_bind (steady_described e) fun _ _ _ => .reject' _ _

theorem supplies_siteOf_reject {R : World → α → Prop} (e : Expr) (cause : Bytes → Cause) :
    Supplies w (do
      let s ← siteOf e
      reject s.position (cause (← described e))) R :=
  .steady_bind (steady_siteOf e) fun _ _ _ => supplies_described_reject e _ _

theorem supplies_truth (e : Expr) {v : Ir.Value} (hv : w.Ready .cursor v) :
    Supplies w (truth e v) (World.Ready · .cursor) := by
  unfold truth
  split
  · refine .ite' (.pure' hv) (supplies_emit _ rfl ?_)
    simp [Ir.Inst.operands, hv, World.Ready.int]
  · refine supplies_emit _ rfl ?_
    simpa [Ir.Inst.operands, hv] using .of_constant rfl
  · refine supplies_emit _ rfl ?_
    simpa [Ir.Inst.operands, hv] using .of_constant rfl
  · exact supplies_siteOf_reject e _

section
variable {x y : Ir.Value} (hx : w.Ready .cursor x) (hy : w.Ready .cursor y)

include hx hy

theorem supplies_compareInts (op : Coded BinaryOp) (unsigned : Bool) :
    Supplies w (compareInts op x y unsigned) (World.Ready · .cursor) := by
  unfold compareInts
  split
  · exact .breach' _
  · split
    · exact supplies_emit _ rfl (by simp [Ir.Inst.operands, hx, hy])
    · exact .breach' _

theorem supplies_onIntegers (op : Coded BinaryOp) (unsigned : Bool) :
    Supplies w (onIntegers op x y unsigned) (World.Ready · .cursor) := by
  unfold onIntegers
  split
  · exact supplies_emit _ rfl (by simp [Ir.Inst.operands, hx, hy])
  · exact supplies_compareInts hx hy op unsigned

theorem supplies_onFloats (site : Site) (op : Coded BinaryOp) :
    Supplies w (onFloats site op x y) (World.Ready · .cursor) := by
  unfold onFloats
  split
  · exact supplies_emit _ rfl (by simp [Ir.Inst.operands, hx, hy])
  · split
    · exact supplies_emit _ rfl (by simp [Ir.Inst.operands, hx, hy])
    · exact .reject' _ _

theorem supplies_onPointers (site : Site) (op : Coded BinaryOp) (elem : Ir.Ty) :
    Supplies w (onPointers site op x elem y) (World.Ready · .cursor) := by
  unfold onPointers
  split
  · exact supplies_elementAddress _ hx hy
  · refine .bind' (supplies_emit _ rfl ?_) fun w₁ back le hb =>
      supplies_elementAddress _ (le.ready hx) hb
    simp [Ir.Inst.operands, hy, World.Ready.int]
  · exact .ite' (.bind' (supplies_convert _ _ _ hy) fun w₁ y' le hy' =>
      supplies_compareInts (le.ready hx) hy' _ true) (.reject' _ _)

end

theorem supplies_stepBy (e : Expr) (site : Site) {v : Ir.Value} (up : Bool)
    (hv : w.Ready .cursor v) : Supplies w (stepBy e site v up) (World.Ready · .cursor) := by
  unfold stepBy
  cases v.type with
  | int n => exact supplies_emit _ rfl (by simp [Ir.Inst.operands, hv, World.Ready.int])
  | float k =>
    refine supplies_emit _ rfl ?_
    simpa [Ir.Inst.operands, hv] using .of_constant rfl
  | pointer elem => exact supplies_elementAddress _ hv (.int _ _)
  | _ => exact supplies_described_reject e _ _

theorem supplies_pointeeType (e : Expr) (v : Ir.Value) :
    Supplies w (pointeeType e v) fun _ _ => True := by
  unfold pointeeType
  split
  · exact .pure' trivial
  · exact supplies_siteOf_reject e _

theorem supplies_rejectUnary {R : World → α → Prop} (site : Site) (op : Coded UnaryOp)
    (x : Expr) : Supplies w (rejectUnary site op x) R := supplies_described_reject x _ _

/-! ## Literals -/

theorem supplies_intConstant (c : Context) (site : Site) (value : Int64) :
    Supplies w (intConstant c site value) (World.Ready · .cursor) := by
  refine .steady_bind (steady_typeOfExpr c _) fun _ t _ =>
    .steady_bind (steady_instructionType c t) fun _ type _ => ?_
  split
  · exact .pure' (.int _ _)
  · exact .pure' (.of_constant rfl)
  · exact .ite' (.pure' (.of_constant rfl)) (.reject' _ _)
  · exact .reject' _ _

theorem supplies_floatConstant (c : Context) (site : Site) (bits : UInt64) :
    Supplies w (floatConstant c site bits) (World.Ready · .cursor) := by
  refine .steady_bind (steady_typeOfExpr c _) fun _ t _ =>
    .steady_bind (steady_instructionType c t) fun _ type _ => ?_
  split
  · exact .pure' (.of_constant rfl)
  · exact .reject' _ _

theorem supplies_copyIntrinsic (spot : Place) :
    Supplies w copyIntrinsic (World.Ready · spot) :=
  .of_steady steady_copyIntrinsic fun _ _ _ h _ => .of_constant (copyIntrinsic_isConstant h).1

theorem supplies_internedData (spot : Place) (content : Bytes) :
    Supplies w (internedData content) (World.Ready · spot) :=
  .of_steady (steady_internedData content) fun _ _ _ h _ =>
    .of_constant (internedData_isConstant h).1

theorem supplies_fillArray (spot : Place) {slot length data : Ir.Value} (type : Ir.Ty)
    (hs : w.Ready spot slot) (hl : w.Ready spot length) (hd : w.Ready spot data) :
    Supplies w (fillArray spot slot type length data) fun _ _ => True := by
  refine .bind' (supplies_fieldAddressAt _ _ _ hs) fun w₁ p₁ le₁ h₁ => ?_
  refine .bind' (supplies_storeAt _ (le₁.ready hl) h₁) fun w₂ _ le₂ _ => ?_
  have le := World.le_trans le₁ le₂
  refine .bind' (supplies_fieldAddressAt _ _ _ (le.ready hs)) fun w₃ p₃ le₃ h₃ => ?_
  exact supplies_storeAt _ (le₃.ready (le.ready hd)) h₃

theorem supplies_globalBuffer (spot : Place) (name : String) (elem : Ir.Ty) (length : Nat) :
    Supplies w (globalBuffer spot name elem length) (World.Ready · spot) := by
  refine .steady_bind (steady_addGlobal _ _) fun _ g _ => supplies_emitAt _ rfl ?_
  simpa [Ir.Inst.operands] using .of_constant rfl

theorem supplies_buffer (here : Bool) (spot : Place) (name : String) (elem : Ir.Ty)
    (length : Nat) : Supplies w (if here = true then stackSlot elem (some (.i32 length))
      else globalBuffer spot name elem length) (World.Ready · spot) := by
  refine .ite' (.mono (supplies_stackSlot elem ?_) fun _ _ h => h.everywhere)
    (supplies_globalBuffer _ _ _ _)
  simpa using .of_constant rfl

theorem supplies_stringValue (c : Context) (site : Site) (content : Bytes) :
    Supplies w (stringValue c site content) (World.Ready · .cursor) := by
  refine .bind' (supplies_stackSlot _ (by simp)) fun w₁ slot _ hs => ?_
  refine .steady_bind (steady_isLocal c site) fun w₂ here le₂ => ?_
  refine .either (supplies_buffer here .vars _ _ _) fun w₃ buffer le₃ hb => ?_
  refine .bind' (supplies_copyIntrinsic .vars) fun w₄ copy le₄ hc => ?_
  refine .bind' (supplies_internedData .vars content) fun w₅ data le₅ hd => ?_
  have hb := le₅.ready (le₄.ready hb)
  have hs := le₅.ready (le₄.ready (le₃.ready (le₂.ready hs)))
  refine .bind' (.discard' (supplies_callAt _ (le₅.ready hc) ?_)) fun w₆ _ le₆ _ => ?_
  · simpa [hb, hd, Ir.Value.i32, World.Ready.int] using .of_constant rfl
  refine .bind' (supplies_fillArray _ _ (le₆.ready hs) (.int _ _) (le₆.ready hb))
    fun w₇ _ le₇ _ => ?_
  refine .mono (supplies_emitAt _ rfl ?_) fun _ _ h => World.Ready.everywhere h
  simpa [Ir.Inst.operands] using le₇.ready (le₆.ready hs)

theorem supplies_allocateArray (c : Context) (site : Site) (elem : Ir.Ty) (length : Nat) :
    Supplies w (allocateArray c site elem length) fun w' a =>
      w'.Ready .cursor a.slot ∧ w'.Ready .cursor a.buffer := by
  refine .bind' (supplies_stackSlot _ (by simp)) fun w₁ slot _ hs => ?_
  refine .steady_bind (steady_isLocal c site) fun w₂ here le₂ => ?_
  refine .either (supplies_buffer here .cursor _ _ _) fun w₃ buffer le₃ hb => ?_
  have hs : w₃.Ready .cursor slot := (le₃.ready (le₂.ready hs)).everywhere
  exact .bind' (supplies_fillArray _ _ hs (.int _ _) hb) fun w₄ _ le₄ _ =>
    .pure' ⟨le₄.ready hs, le₄.ready hb⟩

theorem supplies_unfilledArray (c : Context) (site : Site) (length : Int64)
    (elem : Option TypeRef) :
    Supplies w (unfilledArray c site length elem) (World.Ready · .cursor) :=
  .ite' (.reject' _ _) (.steady_bind (steady_typeOfRef c elem) fun _ _ _ =>
    .steady_bind (steady_instructionType c _) fun _ _ _ =>
      .bind' (supplies_allocateArray c site _ _) fun _ _ _ h => supplies_load _ h.1)

/-! ## Variables and calls -/

theorem supplies_boundTo (c : Context) (v : ObjectId) (site : Site) {spot : Place} :
    Supplies w (boundTo c v site) (World.Ready · spot) := by
  intro x s' h
  obtain ⟨hb, calm⟩ := steady_boundTo c v site w.state x s' h
  refine ⟨w.pass hb calm, rfl, w.le_pass hb calm, ?_⟩
  unfold boundTo at h
  cases hl : w.state.values.lookup v with
  | none => simp [hl] at h
  | some y =>
    simp only [get_bind_apply, hl, pure_eq_ok] at h
    obtain ⟨rfl, -⟩ := h
    obtain ⟨before, after, he, -⟩ := List.lookup_eq_some_iff.mp hl
    exact (w.le_pass hb calm).ready (World.Ready.of_bound (x := (v, y)) (by simp [he]))

/-- The place of a variable. -/
theorem supplies_named {c : Context} {name : String} {site : Site}
    {f : ObjectId → Ir.Value → Lower α} {R : World → α → Prop}
    (hf : ∀ w' v x, w ≤ w' → w'.Ready .cursor x → Supplies w' (f v x) R) :
    Supplies w (do
      let v ← variableAt c name site
      let place ← boundTo c v site
      f v place) R :=
  .steady_bind (steady_variableAt c name site) fun _ v le₁ =>
    .bind' (supplies_boundTo c v site) fun w₂ x le₂ hx => hf w₂ v x (World.le_trans le₁ le₂) hx

theorem supplies_readVariable (c : Context) (site : Site) (name : String) (step : Coded Step) :
    Supplies w (readVariable c site name step) (World.Ready · .cursor) := by
  refine supplies_named fun w₁ v place _ hp => ?_
  refine .ite' (.ite' (.pure' hp) (.reject' _ _)) ?_
  refine .steady_bind (steady_instructionType c _) fun w₂ t le₂ => ?_
  refine .bind' (supplies_load t (le₂.ready hp)) fun w₃ old le₃ ho => ?_
  split
  · exact .breach' _
  · split
    · exact .pure' ho
    · refine .bind' (supplies_stepBy _ _ _ ho) fun w₄ new le₄ hn => ?_
      have hp := le₄.ready (le₃.ready (le₂.ready hp))
      refine .bind' (supplies_store hn hp) fun w₅ _ le₅ _ => ?_
      split
      · exact .pure' (le₅.ready hn)
      · exact .pure' (le₅.ready (le₄.ready ho))

theorem supplies_variablePlace (c : Context) (site : Site) (name : String) :
    Supplies w (variablePlace c site name) fun w' r => w'.Ready .cursor r.1 :=
  supplies_named fun _ _ _ _ hp => .ite' (.reject' _ _)
    (.steady_bind (steady_instructionType c _) fun _ _ le => .pure' (le.ready hp))

theorem supplies_addressOrSlot (c : Context) (e : Expr) {value : Lower Ir.Value}
    {place : Lower (Ir.Value × Ir.Ty)} (hv : ∀ w, Supplies w value (World.Ready · .cursor))
    (hp : ∀ w, Supplies w place fun w' r => w'.Ready .cursor r.1) :
    Supplies w (addressOrSlot c e value place) (World.Ready · .cursor) := by
  refine .steady_bind (steady_hasPlace c e) fun w₁ has _ => .ite' ?_ ?_
  · exact .bind' (hp w₁) fun _ r _ hr => .pure' hr
  · refine .bind' (hv w₁) fun w₂ v _ hv => ?_
    refine .bind' (supplies_stackSlot _ (by simp)) fun w₃ slot le₃ hs => ?_
    exact .bind' (supplies_store (le₃.ready hv) hs.everywhere) fun w₄ _ le₄ _ =>
      .pure' (le₄.ready hs.everywhere)

theorem supplies_calleeParams (c : Context) (site : Site) (name : String) (given : Nat)
    (v : ObjectId) {callee : Ir.Value} (hc : w.Ready .cursor callee) :
    Supplies w (calleeParams c site name given v callee) fun w' r => w'.Ready .cursor r.1 := by
  unfold calleeParams
  split
  · exact .reject' _ _
  · exact .ite' (.reject' _ _) (.pure' hc)

theorem supplies_callTarget (c : Context) (site : Site) (name : String) (given : Nat) :
    Supplies w (callTarget c site name given) fun w' r => w'.Ready .cursor r.1 := by
  refine supplies_named fun w₁ v place _ hp => ?_
  refine .ite' (.bind' (.pure' hp) fun _ _ _ => supplies_calleeParams c site name given v) ?_
  exact .steady_bind (steady_instructionType c _) fun _ t le =>
    .bind' (supplies_load t (le.ready hp)) fun _ _ _ => supplies_calleeParams c site name given v

/-! ## Places -/

section
variable (c : Context) (site : Site) (x : Expr) {value index : Lower Ir.Value}
  {place : Lower (Ir.Value × Ir.Ty)}

theorem supplies_fieldPlace (field : String) {base : Ir.Value} (hb : w.Ready .cursor base)
    (t : Ty) : Supplies w (fieldPlace c site field base t) fun w' r => w'.Ready .cursor r.1 := by
  refine .steady_bind (steady_instructionType c t) fun w₁ type le₁ => ?_
  have hb := le₁.ready hb
  split
  · split
    · exact .reject' _ _
    · exact .bind' (supplies_fieldAddress _ _ hb) fun w₂ q _ hq =>
        .steady_bind (steady_instructionType c _) fun _ _ le => .pure' (le.ready hq)
  · split
    · refine .ite' ?_ (.ite' ?_ (.reject' _ _))
      · exact .bind' (supplies_fieldAddress _ _ hb) fun w₂ q _ hq => .pure' hq
      · exact .bind' (supplies_fieldAddress _ _ hb) fun w₂ q _ hq =>
          .steady_bind (steady_instructionType c _) fun _ _ le => .pure' (le.ready hq)
    · exact .reject' _ _

variable (hv : ∀ w, Supplies w value (World.Ready · .cursor))
include hv

theorem supplies_selectorPlace (field : String) (arrow : Bool)
    (hp : ∀ w, Supplies w place fun w' r => w'.Ready .cursor r.1) :
    Supplies w (selectorPlace c site x field arrow value place)
      fun w' r => w'.Ready .cursor r.1 := by
  refine .ite' (.steady_bind (steady_typeOfExpr c x) fun w₁ pt _ => ?_) ?_
  · split
    · exact .bind' (hv w₁) fun _ base _ hb => supplies_fieldPlace c site field hb _
    · exact supplies_described_reject x _ _
  · exact .bind' (supplies_addressOrSlot c x hv hp) fun _ base _ hb =>
      .steady_bind (steady_typeOfExpr c x) fun _ t le =>
        supplies_fieldPlace c site field (le.ready hb) t

theorem supplies_indexPlace (hi : ∀ w, Supplies w index (World.Ready · .cursor)) :
    Supplies w (indexPlace c site x value index) fun w' r => w'.Ready .cursor r.1 := by
  have rest : ∀ (w : World) (data : Ir.Value) (et : Ty), w.Ready .cursor data → Supplies w (do
      let elem ← instructionType c et
      let i ← index
      let q ← elementAddress elem data i
      pure (q, elem)) fun w' r => w'.Ready .cursor r.1 := by
    intro w data et hd
    refine .steady_bind (steady_instructionType c et) fun w₁ elem le₁ => ?_
    refine .bind' (hi w₁) fun w₂ i le₂ hi => ?_
    have hd := le₂.ready (le₁.ready hd)
    exact .bind' (supplies_elementAddress elem hd hi) fun _ q _ hq => .pure' hq
  refine .steady_bind (steady_typeOfExpr c x) fun w₁ t _ => ?_
  dsimp only
  split
  · exact .bind' (hv w₁) fun w₂ data _ hd => rest w₂ data _ hd
  · split
    · exact .bind' (hv w₁) fun w₂ array _ ha =>
        .bind' (supplies_extractData ha) fun w₃ data _ hd => rest w₃ data _ hd
    · exact supplies_described_reject x _ _

end

/-! ## Operators -/

section
variable {left right value : Lower Ir.Value} {place : Lower (Ir.Value × Ir.Ty)}
  (hl : ∀ w, Supplies w left (World.Ready · .cursor))
  (hr : ∀ w, Supplies w right (World.Ready · .cursor))
  (hv : ∀ w, Supplies w value (World.Ready · .cursor))
  (hp : ∀ w, Supplies w place fun w' r => w'.Ready .cursor r.1)

include hl hr in
theorem supplies_shortCircuit (isAnd : Bool) (x y : Expr) :
    Supplies w (shortCircuit isAnd x y left right) (World.Ready · .cursor) := by
  intro v s' h
  obtain ⟨xt, s₁, start, yt, s₂, finish, hx, hs, hy, hf, rfl, rfl⟩ := shortCircuit_eq_ok h
  have left' : Supplies w (left >>= truth x) (World.Ready · .cursor) :=
    .bind' (hl w) fun _ _ _ h => supplies_truth x h
  have right' : ∀ w, Supplies w (right >>= truth y) (World.Ready · .cursor) := fun w =>
    .bind' (hr w) fun _ _ _ h => supplies_truth y h
  obtain ⟨w₁, rfl, le₁, hxt⟩ := left' xt s₁ hx
  obtain ⟨w₂, hw₂, le₂, knows⟩ := w₁.fork_le isAnd hs hxt
  rw [← hw₂] at hy
  obtain ⟨w₃, rfl, le₃, hyt⟩ := right' w₂ yt s₂ hy
  have hd : w₂.body.Made (w₁.body.joinLabel isAnd) := by
    have hb : w₂.body = w₁.body.fork isAnd xt := congrArg State.body hw₂
    rw [hb]
    simp [Body.Made, joinLabel_id, Body.fork]
  obtain ⟨w₄, hw₄, le₄, hv⟩ := World.rejoin_le isAnd hs le₂ le₃ hd knows hf hyt
  exact ⟨w₄, hw₄, World.le_trans le₁ le₄, hv⟩

include hl hr in
theorem supplies_binaryValue (c : Context) (site : Site) (op : Coded BinaryOp) (x y : Expr) :
    Supplies w (binaryValue c site op x y left right) (World.Ready · .cursor) := by
  refine .ite' (supplies_shortCircuit hl hr _ x y) (.bind' (hl w) fun w₁ xv _ hx => ?_)
  split
  · refine .bind' (hr w₁) fun w₂ yv le₂ hy => ?_
    refine .bind' (supplies_convert _ _ _ hy) fun w₃ yv' le₃ hy' => ?_
    exact supplies_onIntegers (le₃.ready (le₂.ready hx)) hy' op _
  · refine .bind' (hr w₁) fun w₂ yv le₂ hy => ?_
    refine .bind' (supplies_convert _ _ _ hy) fun w₃ yv' le₃ hy' => ?_
    exact supplies_onFloats (le₃.ready (le₂.ready hx)) hy' site op
  · exact .bind' (hr w₁) fun w₂ yv le₂ hy => supplies_onPointers (le₂.ready hx) hy site op _
  · exact supplies_described_reject x _ _

include hv hp in
theorem supplies_unaryValue (site : Site) (op : Coded UnaryOp) (x : Expr) :
    Supplies w (unaryValue site op x value place) (World.Ready · .cursor) := by
  unfold unaryValue
  split
  · exact hv w
  · -- A negative integer is zero less the value.
    refine .bind' (hv w) fun w₁ v _ hv => ?_
    split
    · exact supplies_emit _ rfl (by simp [Ir.Inst.operands, hv, World.Ready.int])
    · exact supplies_emit _ rfl (by simpa [Ir.Inst.operands] using hv)
    · exact supplies_rejectUnary site _ x
  · -- A negation flips the bit.
    refine .bind' (hv w) fun w₁ v _ hv => .bind' (supplies_truth x hv) fun w₂ t _ ht => ?_
    refine supplies_emit _ rfl ?_
    simpa [Ir.Inst.operands, ht] using .of_constant rfl
  · refine .bind' (hv w) fun w₁ v _ hv => ?_
    split
    · exact supplies_emit _ rfl (by simp [Ir.Inst.operands, hv, World.Ready.int])
    · exact supplies_rejectUnary site _ x
  · exact .bind' (hp w) fun _ r _ hr => .pure' hr
  · refine .bind' (hv w) fun w₁ q _ hq => .bind' (supplies_pointeeType x q) fun w₂ t le _ => ?_
    exact supplies_load t (le.ready hq)
  · exact supplies_rejectUnary site _ x

include hv in
theorem supplies_castValue (c : Context) (x : Expr) (target : Option TypeRef) :
    Supplies w (castValue c x target value) (World.Ready · .cursor) :=
  .steady_bind (steady_typeOfRef c target) fun w₁ t _ => .bind' (hv w₁) fun _ _ _ hv =>
    .ite' (supplies_truth x hv) (supplies_convertTo c x t hv)

end

/-! ## Expressions -/

variable {c : Context}

mutual

/-- An expression uses what is at hand, and its value is ready where it ends. -/
theorem supplies_valueOf (e : Expr) : ∀ w, Supplies w (valueOf c e) (World.Ready · .cursor) := by
  intro w
  match e with
  | .absent => exact .breach' _
  | .intLit site value => exact supplies_intConstant c site value
  | .floatLit site bits => exact supplies_floatConstant c site bits
  | .boolLit _ value =>
    unfold valueOf boolConstant
    split <;> exact .pure' (.of_constant rfl)
  | .stringLit site content => exact supplies_stringValue c site content
  | .varRef site name step => exact supplies_readVariable c site name step
  | .call site name args =>
    unfold valueOf
    refine .bind' (supplies_callTarget c site name _) fun w₁ r _ hr => ?_
    refine .bind' (supplies_arguments r.2 args w₁) fun w₂ vs le hvs => ?_
    exact supplies_callAt _ (le.ready hr) hvs
  | .structLit site name args =>
    unfold valueOf
    refine .steady_bind (steady_typeOfExpr c _) fun _ t _ => ?_
    split
    · exact .reject' _ _
    · refine .ite' (.reject' _ _) (.steady_bind (steady_instructionType c t) fun _ type _ => ?_)
      refine .bind' (supplies_stackSlot _ (by simp)) fun w₁ slot _ hs => ?_
      refine .bind' (supplies_storeFields type 0 _ args w₁ hs.everywhere) fun w₂ _ le _ => ?_
      exact supplies_load _ (le.ready hs.everywhere)
  | .arrayLit site elems =>
    unfold valueOf
    refine .steady_bind (steady_typeOfExpr c _) fun _ t _ => ?_
    split
    · exact .reject' _ _
    · refine .steady_bind (steady_instructionType c _) fun _ elem _ => ?_
      refine .bind' (supplies_allocateArray c site elem _) fun w₁ array _ ha => ?_
      refine .bind' (supplies_storeElements _ elem 0 elems w₁ ha.2) fun w₂ _ le _ => ?_
      exact supplies_load _ (le.ready ha.1)
  | .arrayAlloc site length elem => exact supplies_unfilledArray c site length elem
  | .selector site x field arrow =>
    unfold valueOf
    exact .bind' (supplies_selectorPlace c site x (supplies_valueOf x) field arrow
      (supplies_placeOf x)) fun _ r _ hr => supplies_load r.2 hr
  | .index site x i =>
    unfold valueOf
    exact .bind' (supplies_indexPlace c site x (supplies_valueOf x) (supplies_valueOf i))
      fun _ r _ hr => supplies_load r.2 hr
  | .assign _ target value =>
    unfold valueOf
    refine .bind' (supplies_placeOf target w) fun w₁ r _ hr => ?_
    refine .bind' (supplies_valueOf value w₁) fun w₂ v le₂ hv => ?_
    refine .bind' (supplies_convert _ _ _ hv) fun w₃ v' le₃ hv' => ?_
    refine .bind' (supplies_store hv' (le₃.ready (le₂.ready hr))) fun w₄ _ le₄ _ => ?_
    exact .pure' (le₄.ready hv')
  | .binary site op x y =>
    unfold valueOf
    exact supplies_binaryValue (supplies_valueOf x) (supplies_valueOf y) c site op x y
  | .unary site op x =>
    unfold valueOf
    exact supplies_unaryValue (supplies_valueOf x) (supplies_placeOf x) site op x
  | .cast _ x target =>
    unfold valueOf
    exact supplies_castValue (supplies_valueOf x) c x target

theorem supplies_placeOf (e : Expr) :
    ∀ w, Supplies w (placeOf c e) fun w' r => w'.Ready .cursor r.1 := by
  intro w
  match e with
  | .varRef site name step =>
    unfold placeOf
    split
    · rename_i heq
      cases heq
      exact supplies_variablePlace c _ _
    all_goals first
      | exact supplies_siteOf_reject _ _
      | (rename_i heq; cases heq)
  | .selector site x field arrow =>
    unfold placeOf
    exact supplies_selectorPlace c site x (supplies_valueOf x) field arrow (supplies_placeOf x)
  | .index site x i =>
    unfold placeOf
    exact supplies_indexPlace c site x (supplies_valueOf x) (supplies_valueOf i)
  | .unary site op x =>
    have value := supplies_valueOf x
    unfold placeOf
    split
    case h_4 heq =>
      cases heq
      exact .bind' (value w) fun w₁ q _ hq => .bind' (supplies_pointeeType x q) fun _ t le _ =>
        .pure' (le.ready hq)
    all_goals first
      | exact supplies_siteOf_reject _ _
      | (rename_i heq; cases heq)
  | .absent | .structLit _ _ _ | .call _ _ _ | .arrayLit _ _ | .arrayAlloc _ _ _
  | .assign _ _ _ | .binary _ _ _ _ | .cast _ _ _ | .intLit _ _ | .floatLit _ _
  | .boolLit _ _ | .stringLit _ _ =>
    unfold placeOf
    exact supplies_siteOf_reject _ _

theorem supplies_arguments (params : List (Ir.Ty × Bool)) (es : List Expr) :
    ∀ w, Supplies w (arguments c params es) fun w' vs => ∀ v ∈ vs, w'.Ready .cursor v := by
  intro w
  match params, es with
  | _, [] =>
    unfold arguments
    exact .pure' (by simp)
  | [], e :: es =>
    unfold arguments
    refine .bind' (supplies_valueOf e w) fun w₁ v _ hv => ?_
    refine .bind' (supplies_arguments [] es w₁) fun w₂ vs le hvs => ?_
    exact .pure' (by simpa [le.ready hv] using hvs)
  | (t, unsigned) :: ps, e :: es =>
    unfold arguments
    refine .bind' (supplies_valueOf e w) fun w₁ v _ hv => ?_
    refine .bind' (supplies_convert _ _ _ hv) fun w₂ v' _ hv' => ?_
    refine .bind' (supplies_arguments ps es w₂) fun w₃ vs le hvs => ?_
    exact .pure' (by simpa [le.ready hv'] using hvs)

theorem supplies_storeElements (et : Ty) (elem : Ir.Ty) {buffer : Ir.Value} (i : Nat)
    (es : List Expr) : ∀ w, w.Ready .cursor buffer →
      Supplies w (storeElements c et elem buffer i es) fun _ _ => True := by
  intro w hb
  match es with
  | [] =>
    unfold storeElements
    exact .pure' trivial
  | e :: es =>
    unfold storeElements
    refine .bind' (supplies_valueOf e w) fun w₁ v le₁ hv => ?_
    refine .bind' (supplies_convertTo c e et hv) fun w₂ v' le₂ hv' => ?_
    have hb := le₂.ready (le₁.ready hb)
    refine .bind' (supplies_elementAddress elem hb (.int _ _)) fun w₃ q le₃ hq => ?_
    refine .bind' (supplies_store (le₃.ready hv') hq) fun w₄ _ le₄ _ => ?_
    exact supplies_storeElements et elem (i + 1) es w₄ (le₄.ready (le₃.ready hb))

theorem supplies_storeFields (type : Ir.Ty) {slot : Ir.Value} (i : Nat) (ts : List Ty)
    (es : List Expr) : ∀ w, w.Ready .cursor slot →
      Supplies w (storeFields c type slot i ts es) fun _ _ => True := by
  intro w hs
  match ts, es with
  | _, [] =>
    unfold storeFields
    exact .pure' trivial
  | [], _ :: _ =>
    unfold storeFields
    exact .pure' trivial
  | t :: ts, e :: es =>
    unfold storeFields
    refine .bind' (supplies_valueOf e w) fun w₁ v le₁ hv => ?_
    refine .bind' (supplies_convertTo c e t hv) fun w₂ v' le₂ hv' => ?_
    have hs := le₂.ready (le₁.ready hs)
    refine .bind' (supplies_fieldAddress type i hs) fun w₃ q le₃ hq => ?_
    refine .bind' (supplies_store (le₃.ready hv') hq) fun w₄ _ le₄ _ => ?_
    exact supplies_storeFields type (i + 1) ts es w₄ (le₄.ready (le₃.ready hs))

end

theorem supplies_condition (e : Expr) : Supplies w (condition c e) (World.Ready · .cursor) :=
  .bind' (supplies_valueOf e w) fun _ _ _ hv => supplies_truth e hv

theorem supplies_valueAs (e : Expr) (t : Ty) :
    Supplies w (valueAs c e t) (World.Ready · .cursor) :=
  .bind' (supplies_valueOf e w) fun _ _ _ hv => supplies_convertTo c e t hv

end Lower

end TreeLowering
