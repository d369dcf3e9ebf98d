import Mathlib.Logic.Function.Basic
import TreeLowering.Proofs.Faults
import TreeLowering.Proofs.Statement
import TreeLowering.Proofs.Symbols

/-!
Values and places.

An expression with storage of its own is lowered for its value as for its place, and then loaded
from there (`valueOf_eq_load`). So the two lowerings fail alike, and where they do not fail they
differ in one instruction. Any other expression has to be put into a stack slot to have a place
(`addressOrSlot_eq_spill`); a load from the slot gives the value back, which `Ir.Memory` says for
every execution of the store and the load.
-/
namespace TreeLowering

open Lower

/-! ## Expressions with storage -/

/-- The expressions with storage of their own: variables that are read without a step and not bound
    to a function, fields, elements, and what pointers point to. -/
inductive Expr.Addressable (c : Context) (s : State) : Expr → Prop
  | varRef {site : Site} {name : String}
      (unbound : ∀ v place, c.analysis.resolve name (some site) = some v →
        s.values.lookup v = some place → place.isFunc = false) :
    Addressable c s (.varRef site name (.known .none))
  | selector (site : Site) (x : Expr) (field : String) (arrow : Bool) :
    Addressable c s (.selector site x field arrow)
  | index (site : Site) (x i : Expr) : Addressable c s (.index site x i)
  | deref (site : Site) (x : Expr) : Addressable c s (.unary site (.known .deref) x)

namespace Lower

variable {α β : Type} {c : Context} {e : Expr} {s s' : State}

/-- Asking for storage changes nothing, and the answer is yes for the expressions that have it. -/
theorem hasPlace_apply (c : Context) (e : Expr) (s : State) :
    ∃ b, hasPlace c e s = .ok b s ∧ (b = true ↔ e.Addressable c s) := by
  unfold hasPlace
  split
  · rename_i site name
    cases hv : c.analysis.resolve name (some site) with
    | none =>
      refine ⟨true, rfl, fun _ => .varRef fun v place h => ?_, fun _ => rfl⟩
      rw [hv] at h
      cases h
    | some v =>
      refine ⟨_, rfl, fun h => .varRef fun v' place hv' hplace => ?_, ?_⟩
      · cases hv.symm.trans hv'
        simpa [hplace] using h
      · rintro ⟨unbound⟩
        cases hplace : s.values.lookup v with
        | none => rfl
        | some place => simp [unbound v place hv hplace]
  · exact ⟨true, rfl, fun _ => .selector .., fun _ => rfl⟩
  · exact ⟨true, rfl, fun _ => .index .., fun _ => rfl⟩
  · exact ⟨true, rfl, fun _ => .deref .., fun _ => rfl⟩
  · rename_i notVar notSelector notIndex notDeref
    refine ⟨false, rfl, fun h => absurd h Bool.false_ne_true, fun h => ?_⟩
    cases h with
    | varRef _ => exact absurd rfl (notVar _ _)
    | selector => exact absurd rfl (notSelector _ _ _ _)
    | index => exact absurd rfl (notIndex _ _ _)
    | deref => exact absurd rfl (notDeref _ _)

/-- An expression with storage is lowered for its value as for its place, and then loaded. -/
theorem valueOf_eq_load (h : e.Addressable c s) :
    valueOf c e s = (placeOf c e >>= fun p => load p.2 p.1) s := by
  cases h with
  | @varRef site name unbound =>
    rw [valueOf, placeOf]
    unfold readVariable variablePlace variableAt
    cases hv : c.analysis.resolve name (some site) with
    | none => rfl
    | some v =>
      simp only [pure_bind, boundTo, bind_assoc, get_bind_apply]
      cases hplace : s.values.lookup v with
      | none => rfl
      | some place =>
        -- A reading of a function would end here; without a step nothing follows the load.
        simp only [pure_bind, unbound v place hv hplace, Bool.false_eq_true, if_false, bind_assoc,
          stepKind?, bind_pure]
  | selector site x field arrow => rw [valueOf, placeOf]
  | index site x i => rw [valueOf, placeOf]
  | deref site x =>
    rw [valueOf, placeOf]
    simp only [unaryValue, bind_assoc, pure_bind]

/-! ## Failing alike -/

/-- The steps fail alike at a state: with the same faults in the same states. Where the next
    instruction has no place, which is where no statement is lowered, the fault that says so is left
    out of account. -/
def FailsLike (x : Lower α) (y : Lower β) (s : State) : Prop :=
  ∀ f s', f ≠ .breach .missingPart ∨ s.body.cursor.isSome →
    (x s = .error f s' ↔ y s = .error f s')

namespace FailsLike

variable {γ : Type} {x : Lower α} {y : Lower β} {z : Lower γ}

theorem symm (h : FailsLike x y s) : FailsLike y x s := fun f s' hf => (h f s' hf).symm

theorem trans (h₁ : FailsLike x y s) (h₂ : FailsLike y z s) : FailsLike x z s :=
  fun f s' hf => (h₁ f s' hf).trans (h₂ f s' hf)

theorem of_eq {x' : Lower α} (he : x s = x' s) (h : FailsLike x' y s) : FailsLike x y s := by
  intro f s' hf
  rw [he]
  exact h f s' hf

/-- What follows a step does not count if it fails only where there is no place for an
    instruction. -/
theorem bind' {g : α → Lower β} (hx : Lays x)
    (hg : ∀ a s₁ f s', g a s₁ = .error f s' →
      s₁.body.cursor = none ∧ f = .breach .missingPart) : FailsLike (x >>= g) x s := by
  intro f s' hf
  rw [bind_eq_error]
  constructor
  · rintro (h | ⟨a, s₁, hxa, h⟩)
    · exact h
    · obtain ⟨dead, missing⟩ := hg a s₁ f s' h
      rcases hf with hf | live
      · exact absurd missing hf
      · -- Code never takes away the place of the next instruction.
        obtain ⟨-, code, grows⟩ := hx s a s₁ hxa
        exact absurd (grows.live live) (by simp [dead])
  · exact .inl

end FailsLike

theorem load_eq_error {type : Ir.Ty} {place : Ir.Value} {f : Fault}
    (h : load type place s = .error f s') : s.body.cursor = none ∧ f = .breach .missingPart := by
  obtain ⟨dead, rfl, -⟩ := emitAt_cursor_eq_error.mp h
  exact ⟨dead, rfl⟩

theorem load_placeOf {p : Ir.Value} {t : Ir.Ty} {s₁ : State} (live : s.body.cursor.isSome)
    (hp : placeOf c e s = .ok (p, t) s₁) : load t p s₁ =
      .ok (.computed s₁.body.fn s₁.body.lineCount t)
        (s₁.setBody (s₁.body.emit (.load t p) t)) := by
  obtain ⟨-, code, grows⟩ := lays_placeOf c e s _ s₁ hp
  exact emitAt_cursor_eq_ok.mpr ⟨grows.live live, rfl, rfl⟩

/-- The value of an expression with storage is loaded right after its place is computed. -/
theorem valueOf_of_placeOf {p : Ir.Value} {t : Ir.Ty} {s₁ : State} (h : e.Addressable c s)
    (live : s.body.cursor.isSome) (hp : placeOf c e s = .ok (p, t) s₁) : valueOf c e s =
      .ok (.computed s₁.body.fn s₁.body.lineCount t)
        (s₁.setBody (s₁.body.emit (.load t p) t)) := by
  rw [valueOf_eq_load h]
  exact bind_eq_ok.mpr ⟨(p, t), s₁, hp, load_placeOf live hp⟩

theorem failsLike_placeOf (h : e.Addressable c s) : FailsLike (valueOf c e) (placeOf c e) s :=
  .of_eq (valueOf_eq_load h) (.bind' (lays_placeOf c e) fun _ _ _ _ => load_eq_error)

end Lower

/-! ## Fresh slots -/

namespace Body

/-- The next stack slot for a value. -/
def slotFor (b : Body) (v : Ir.Value) : Ir.Value := .computed b.fn b.lineCount (.pointer v.type)

/-- The body with the next stack slot for a value. -/
def reserve (b : Body) (v : Ir.Value) : Body :=
  b.addVarsLine (.alloca v.type none) (.pointer v.type)

/-- The body with a value in its next stack slot. -/
def spill (b : Body) (v : Ir.Value) : Body :=
  (b.reserve v).emit (.store v (b.slotFor v)) .void

@[simp] theorem spill_fn (b : Body) (v : Ir.Value) : (b.spill v).fn = b.fn :=
  (Kept.emit (b.reserve v) _ _).fn

@[simp] theorem spill_cursor (b : Body) (v : Ir.Value) : (b.spill v).cursor = b.cursor := by
  simp [spill, reserve]

end Body

namespace Lower

variable {c : Context} {e : Expr} {s s' : State} {v p : Ir.Value} {f : Fault}

/-- Puts a value into a fresh stack slot. -/
def spill (v : Ir.Value) : Lower Ir.Value := do
  let slot ← stackSlot v.type none
  store v slot
  pure slot

/-- A value fits into its slot. -/
theorem store_slotFor (b : Body) (v : Ir.Value) :
    store v (b.slotFor v) = discard (emit (.store v (b.slotFor v)) .void) := by
  funext s
  unfold store storeAt
  rw [get_bind_apply]
  exact congrFun (if_pos (Ir.sameType_refl s.module.types v.type)) s

theorem spill_apply (v : Ir.Value) (s : State) :
    spill v s = (discard (emit (.store v (s.body.slotFor v)) .void) >>= fun _ : Unit =>
      pure (s.body.slotFor v)) (s.setBody (s.body.reserve v)) := by
  rw [← store_slotFor]
  rfl

theorem spill_eq_ok : spill v s = .ok p s' ↔
    s.body.cursor.isSome ∧ p = s.body.slotFor v ∧ s' = s.setBody (s.body.spill v) := by
  rw [spill_apply, bind_eq_ok]
  constructor
  · rintro ⟨_, s₁, h, hp⟩
    obtain ⟨_, h⟩ := discard_eq_ok.mp h
    obtain ⟨live, -, rfl⟩ := emitAt_cursor_eq_ok.mp h
    obtain ⟨rfl, rfl⟩ := pure_eq_ok.mp hp
    exact ⟨live, rfl, rfl⟩
  · rintro ⟨live, rfl, rfl⟩
    exact ⟨(), _, discard_eq_ok.mpr ⟨_, emitAt_cursor_eq_ok.mpr ⟨live, rfl, rfl⟩⟩, rfl⟩

theorem spill_eq_error (h : spill v s = .error f s') :
    s.body.cursor = none ∧ f = .breach .missingPart := by
  rw [spill_apply, bind_eq_error] at h
  rcases h with h | ⟨_, _, -, h⟩
  · obtain ⟨dead, rfl, -⟩ := emitAt_cursor_eq_error.mp (discard_eq_error.mp h)
    exact ⟨dead, rfl⟩
  · cases h

theorem addressOrSlot_eq_place (value : Lower Ir.Value) (place : Lower (Ir.Value × Ir.Ty))
    (h : e.Addressable c s) : addressOrSlot c e value place s = (Prod.fst <$> place) s := by
  obtain ⟨b, hb, iff⟩ := hasPlace_apply c e s
  rw [iff.mpr h] at hb
  unfold addressOrSlot
  rw [map_eq_pure_bind]
  change EStateM.bind _ _ s = _
  rw [EStateM.bind, hb]
  rfl

theorem addressOrSlot_eq_spill (value : Lower Ir.Value) (place : Lower (Ir.Value × Ir.Ty))
    (h : ¬e.Addressable c s) : addressOrSlot c e value place s = (value >>= spill) s := by
  obtain ⟨b, hb, iff⟩ := hasPlace_apply c e s
  rw [eq_false_of_ne_true (mt iff.mp h)] at hb
  unfold addressOrSlot
  change EStateM.bind _ _ s = _
  rw [EStateM.bind, hb]
  rfl

theorem failsLike_addressOrSlot (c : Context) (e : Expr) (s : State) :
    FailsLike (addressOrSlot c e (valueOf c e) (placeOf c e)) (valueOf c e) s := by
  by_cases h : e.Addressable c s
  · have place : FailsLike (addressOrSlot c e (valueOf c e) (placeOf c e)) (placeOf c e) s := by
      intro f s' _
      rw [addressOrSlot_eq_place _ _ h]
      exact map_eq_error
    exact place.trans (failsLike_placeOf h).symm
  · exact .of_eq (addressOrSlot_eq_spill _ _ h)
      (.bind' (lays_valueOf c e) fun _ _ _ _ => spill_eq_error)

end Lower

/-! ## Memory -/

namespace Ir

/-- What the values of a function denote while it runs, and what is stored at the places that they
    denote. -/
structure Memory (D : Type) where
  read : Value → D
  cells : D → D

namespace Memory

variable {D : Type}

/-- Remembers the result of an instruction. -/
def setResult (m : Memory D) (fn : FuncId) (id : Nat) (d : D) : Memory D where
  cells := m.cells
  read
    | .computed f i t => if f = fn ∧ i = id then d else m.read (.computed f i t)
    | v => m.read v

@[simp] theorem read_setResult_self (m : Memory D) (fn : FuncId) (id : Nat) (d : D) (t : Ty) :
    (m.setResult fn id d).read (.computed fn id t) = d := by
  simp [setResult]

variable [DecidableEq D]

/-- Stores at a place. -/
def setCell (m : Memory D) (place d : D) : Memory D :=
  { m with cells := Function.update m.cells place d }

@[simp] theorem read_setCell (m : Memory D) (place d : D) : (m.setCell place d).read = m.read := rfl

@[simp] theorem cells_setCell_self (m : Memory D) (place d : D) :
    (m.setCell place d).cells place = d := Function.update_self place _ m.cells

/-- Executes an instruction that stores or loads. -/
def exec (fn : FuncId) (m : Memory D) (l : Line) : Option (Memory D) :=
  match l.inst with
  | .store value place => some (m.setCell (m.read place) (m.read value))
  | .load _ place => some (m.setResult fn l.id (m.cells (m.read place)))
  | _ => none

end Memory

end Ir

/-- Runs code that stores and loads. -/
def Code.access {D : Type} [DecidableEq D] (fn : Ir.FuncId) :
    Code → Ir.Memory D → Option (Ir.Memory D)
  | .nil, m => some m
  | .line l, m => m.exec fn l
  | .seq c d, m => (c.access fn m).bind (d.access fn)
  | .decide _ _ _ _ _, _ => none

/-- The body `b'` is `b` with further code that only stores and loads, and whatever memory it starts
    from, it leaves `r` denoting what `v` did. -/
def GivesBack (b : Body) (v : Ir.Value) (b' : Body) (r : Ir.Value) : Prop :=
  ∃ code, GrowsBy b code b' ∧ ∀ {D : Type} [DecidableEq D] (m : Ir.Memory D),
    ∃ m' ∈ code.access b.fn m, m'.read r = m.read v

theorem GivesBack.refl (b : Body) (v : Ir.Value) : GivesBack b v b v :=
  ⟨.nil, .nil b, fun m => ⟨m, rfl, rfl⟩⟩

/-- A load from the slot of a value gives it back. -/
theorem givesBack_spill {b : Body} (live : b.cursor.isSome) (v : Ir.Value) :
    GivesBack b v ((b.spill v).emit (.load v.type (b.slotFor v)) v.type)
      (.computed (b.spill v).fn (b.spill v).lineCount v.type) := by
  -- The slot is made in the block of the slots: at the cursor there are the store and the load.
  have reserved : GrowsBy b .nil (b.reserve v) := .vars _ rfl fun _ _ => trivial
  have stored : GrowsBy (b.reserve v) _ (b.spill v) := .line .void live rfl rfl fun _ _ => trivial
  have loaded : GrowsBy (b.spill v) _ ((b.spill v).emit (.load v.type (b.slotFor v)) v.type) :=
    .line _ (b.spill_cursor v ▸ live) rfl rfl fun _ _ => trivial
  refine ⟨_, .seq reserved (.seq stored loaded), fun m => ⟨_, rfl, ?_⟩⟩
  rw [Body.spill_fn, Ir.Memory.read_setResult_self, Ir.Memory.read_setCell,
    Ir.Memory.cells_setCell_self]

/-! ## Values and places -/

/-- An expression with storage is lowered for its value as for its place, with the same faults, and
    one load from there follows. For every expression, the lowering for a place or else a fresh slot
    fails as that for the value does, and a load from the result gives the value back: it is the
    very instruction that gave the value, or a load from the slot that holds it. -/
theorem value_loaded_from_place (c : Context) (e : Expr) (s : State) :
    (∃ b, hasPlace c e s = .ok b s ∧ (b = true ↔ e.Addressable c s)) ∧
    (e.Addressable c s → valueOf c e s = (placeOf c e >>= fun p => load p.2 p.1) s ∧
      FailsLike (valueOf c e) (placeOf c e) s ∧
      ∀ p t s₁, s.body.cursor.isSome → placeOf c e s = .ok (p, t) s₁ →
        valueOf c e s = .ok (.computed s₁.body.fn s₁.body.lineCount t)
          (s₁.setBody (s₁.body.emit (.load t p) t))) ∧
    FailsLike (addressOrSlot c e (valueOf c e) (placeOf c e)) (valueOf c e) s ∧
    ∀ p s₂, s.body.cursor.isSome →
      addressOrSlot c e (valueOf c e) (placeOf c e) s = .ok p s₂ →
      ∃ v s₁ r b, valueOf c e s = .ok v s₁ ∧ load v.type p s₂ = .ok r (s₁.setBody b) ∧
        (e.Addressable c s → r = v ∧ b = s₁.body) ∧
        (¬e.Addressable c s → p = s₁.body.slotFor v ∧ s₂ = s₁.setBody (s₁.body.spill v)) ∧
        GivesBack s₁.body v b r := by
  refine ⟨hasPlace_apply c e s, fun h => ⟨valueOf_eq_load h, failsLike_placeOf h,
    fun p t s₁ live hp => valueOf_of_placeOf h live hp⟩,
    failsLike_addressOrSlot c e s, fun p s₂ live hp => ?_⟩
  by_cases h : e.Addressable c s
  · rw [addressOrSlot_eq_place _ _ h] at hp
    obtain ⟨⟨p, t⟩, place, rfl⟩ := map_eq_ok.mp hp
    exact ⟨_, _, _, _, valueOf_of_placeOf h live place, load_placeOf live place,
      fun _ => ⟨rfl, rfl⟩, fun hn => absurd h hn, .refl _ _⟩
  · rw [addressOrSlot_eq_spill _ _ h] at hp
    obtain ⟨v, s₁, hv, hs⟩ := bind_eq_ok.mp hp
    obtain ⟨live, rfl, rfl⟩ := spill_eq_ok.mp hs
    have spilled : (s₁.body.spill v).cursor.isSome := by rwa [Body.spill_cursor]
    exact ⟨v, s₁, _, _, hv, emitAt_cursor_eq_ok.mpr ⟨spilled, rfl, rfl⟩, fun ha => absurd ha h,
      fun _ => ⟨rfl, rfl⟩, givesBack_spill live v⟩

/-- A function `f` that returns a struct with an array `a` of structs with a field `b`, and an
    index `i`. -/
def chainContext : Context :=
  let cell : Ty := .struct [("b", .scalar .i32)]
  let row : Ty := .struct [("a", .array cell)]
  { analysis :=
      { store :=
          { objects := #[{ name := "f", type := .func [] row false, kind := .variable {} },
              { name := "i", type := .scalar .i32, kind := .variable {} }] }
        facts :=
          { types := [(some 1, row), (some 2, .array cell), (some 4, cell)]
            definitions := [(some 1, 0), (some 3, 1)] } }
    config := {} }

/-- The function is declared, and the index has a stack slot. -/
def chainState : State where
  values := [
    (0, .func 1 (.struct [.struct [.int 32, .pointer (.struct [.int 32])]]) []),
    (1, .computed 0 0 (.pointer (.int 32)))]
  body := Body.addVarsLine { fn := 0 } (.alloca (.int 32) none) (.pointer (.int 32))

/-- The expression `f()`. -/
def chainCall : Expr := .call { id := 1 } "f" []

/-- The expression `f().a[i].b`. -/
def chain : Expr :=
  .selector { id := 5 }
    (.index { id := 4 } (.selector { id := 2 } chainCall "a" false)
      (.varRef { id := 3 } "i" (.known .none)))
    "b" false

/-- The place of the chain is found through a slot for the value of the call. -/
theorem value_loaded_from_place_chain :
    (∃ p s₁, placeOf chainContext chain chainState = .ok (p, .int 32) s₁ ∧
      valueOf chainContext chain chainState = .ok (.computed 0 s₁.body.lineCount (.int 32))
        (s₁.setBody (s₁.body.emit (.load (.int 32) p) (.int 32)))) ∧
    ∃ p s₂ v s₁ r b, addressOrSlot chainContext chainCall (valueOf chainContext chainCall)
        (placeOf chainContext chainCall) chainState = .ok p s₂ ∧
      valueOf chainContext chainCall chainState = .ok v s₁ ∧ p = s₁.body.slotFor v ∧
      load v.type p s₂ = .ok r (s₁.setBody b) ∧ GivesBack s₁.body v b r := by
  constructor
  · obtain ⟨p, s₁, hp⟩ :
      ∃ p s₁, placeOf chainContext chain chainState = .ok (p, .int 32) s₁ := ⟨_, _, rfl⟩
    obtain ⟨-, addressable, -⟩ := value_loaded_from_place chainContext chain chainState
    have fn : s₁.body.fn = 0 := by
      cases hp
      rfl
    exact ⟨p, s₁, hp, fn ▸ (addressable (.selector ..)).2.2 p _ s₁ rfl hp⟩
  · obtain ⟨-, -, -, back⟩ := value_loaded_from_place chainContext chainCall chainState
    obtain ⟨v, s₁, r, b, hv, hload, -, slot, given⟩ := back _ _ rfl rfl
    exact ⟨_, _, v, s₁, r, b, rfl, hv, (slot nofun).1, hload, given⟩

end TreeLowering
