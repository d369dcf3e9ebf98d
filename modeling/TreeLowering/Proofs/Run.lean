import TreeLowering.Lower.Unit
import TreeLowering.Proofs.Body

/-!
Runs of lowering steps that succeed. `m s = .ok a s'` is taken apart step by step: a sequence
succeeds exactly if its parts do one after the other, a rejection and a breach never do, and each
primitive step says what it leaves behind.
-/
namespace TreeLowering

namespace State

/-- The state with another body under construction. -/
def setBody (s : State) (b : Body) : State := { s with body := b }

section
variable (s : State) (b b' : Body)

@[simp] theorem setBody_body : (s.setBody b).body = b := rfl

@[simp] theorem setBody_module : (s.setBody b).module = s.module := rfl

@[simp] theorem setBody_values : (s.setBody b).values = s.values := rfl

@[simp] theorem setBody_prototypes : (s.setBody b).prototypes = s.prototypes := rfl

@[simp] theorem setBody_lowered : (s.setBody b).lowered = s.lowered := rfl

@[simp] theorem setBody_symbols : (s.setBody b).symbols = s.symbols := rfl

@[simp] theorem setBody_setBody : (s.setBody b).setBody b' = s.setBody b' := rfl

@[simp] theorem setBody_self : s.setBody s.body = s := rfl

end

end State

namespace Lower

variable {α β : Type} {s s' : State}

/-! ## Sequencing and failing -/

@[simp] theorem bind_eq_ok {x : Lower α} {f : α → Lower β} {b : β} :
    (x >>= f) s = .ok b s' ↔ ∃ a s₁, x s = .ok a s₁ ∧ f a s₁ = .ok b s' := by
  change EStateM.bind x f s = _ ↔ _
  cases hx : x s with
  | ok a s₁ =>
    simp only [EStateM.bind, hx, EStateM.Result.ok.injEq]
    constructor
    · intro h
      exact ⟨a, s₁, ⟨rfl, rfl⟩, h⟩
    · rintro ⟨_, _, ⟨rfl, rfl⟩, hf⟩
      exact hf
  | error e s₁ => simp [EStateM.bind, hx]

theorem bind_of_ok {x : Lower α} {f : α → Lower β} {a : α} (h : x s = .ok a s') :
    (x >>= f) s = f a s' := by
  change EStateM.bind x f s = _
  simp only [EStateM.bind, h]

@[simp] theorem map_eq_ok {x : Lower α} {f : α → β} {b : β} :
    (f <$> x) s = .ok b s' ↔ ∃ a, x s = .ok a s' ∧ f a = b := by
  rw [map_eq_pure_bind, bind_eq_ok]
  constructor
  · rintro ⟨a, s₁, hx, hf⟩
    cases hf
    exact ⟨a, hx, rfl⟩
  · rintro ⟨a, hx, rfl⟩
    exact ⟨a, s', hx, rfl⟩

@[simp] theorem pure_eq_ok {a b : α} : (pure a : Lower α) s = .ok b s' ↔ a = b ∧ s = s' := by
  change (EStateM.Result.ok a s : EStateM.Result Fault State α) = _ ↔ _
  simp

@[simp] theorem discard_eq_ok {x : Lower α} {u : PUnit} :
    (discard x : Lower PUnit) s = .ok u s' ↔ ∃ a, x s = .ok a s' := by
  change ((fun _ => PUnit.unit) <$> x) s = _ ↔ _
  simp

@[simp] theorem reject_ne_ok {p : Position} {c : Cause} {a : α} :
    (reject p c : Lower α) s = .ok a s' ↔ False := by
  constructor <;> intro h <;> cases h

@[simp] theorem breach_ne_ok {b : Breach} {a : α} :
    (breach b : Lower α) s = .ok a s' ↔ False := by
  constructor <;> intro h <;> cases h

@[simp] theorem orBreach_eq_ok {r : Except Breach α} {a : α} :
    orBreach r s = .ok a s' ↔ r = .ok a ∧ s = s' := by
  cases r <;> simp [orBreach]

@[simp] theorem ite_eq_ok {p : Prop} [Decidable p] {x y : Lower α} {a : α} :
    (if p then x else y) s = .ok a s' ↔ (p ∧ x s = .ok a s') ∨ (¬p ∧ y s = .ok a s') := by
  by_cases hp : p <;> simp [hp]

/-! ## Steps that cannot fail -/

@[simp] theorem get_bind_apply (f : State → Lower α) : (get >>= f) s = f s s := rfl

@[simp] theorem get_apply : (get : Lower State) s = .ok s s := rfl

@[simp] theorem set_bind_apply (t : State) (f : PUnit → Lower α) :
    ((set t : Lower PUnit) >>= f) s = f ⟨⟩ t := rfl

@[simp] theorem modify_apply (f : State → State) :
    (modify f : Lower PUnit) s = .ok ⟨⟩ (f s) := rfl

@[simp] theorem modify_bind_apply (f : State → State) (g : PUnit → Lower α) :
    ((modify f : Lower PUnit) >>= g) s = g ⟨⟩ (f s) := rfl

@[simp] theorem report_apply (e : Event) :
    report e s = .ok () { s with trace := s.trace ++ [e] } := rfl

@[simp] theorem report_bind_apply (e : Event) (g : Unit → Lower α) :
    (report e >>= g) s = g () { s with trace := s.trace ++ [e] } := rfl

@[simp] theorem modifyBody_apply (f : Body → Body) :
    modifyBody f s = .ok () (s.setBody (f s.body)) := rfl

@[simp] theorem modifyBody_bind_apply (f : Body → Body) (g : Unit → Lower α) :
    (modifyBody f >>= g) s = g () (s.setBody (f s.body)) := rfl

@[simp] theorem moveTo_apply (l : Ir.Label) :
    moveTo l s = .ok () (s.setBody (s.body.goto l)) := rfl

@[simp] theorem moveTo_bind_apply (l : Ir.Label) (g : Unit → Lower α) :
    (moveTo l >>= g) s = g () (s.setBody (s.body.goto l)) := rfl

@[simp] theorem moveNowhere_apply : moveNowhere s = .ok () (s.setBody s.body.halt) := rfl

@[simp] theorem openBlock_bind_apply (name : String) (g : Ir.Label → Lower α) :
    (openBlock name >>= g) s =
      g (s.body.nextLabel name) (s.setBody (s.body.addBlock name)) := rfl

/-! ## Steps that need something -/

@[simp] theorem siteOf_eq_ok {e : Expr} {a : Site} :
    siteOf e s = .ok a s' ↔ e.site? = some a ∧ s = s' := by
  unfold siteOf
  cases e.site? <;> simp

@[simp] theorem cursor_eq_ok {l : Ir.Label} :
    cursor s = .ok l s' ↔ s.body.cursor = some l ∧ s = s' := by
  unfold cursor
  simp only [get_bind_apply]
  cases hc : s.body.cursor <;> simp

@[simp] theorem terminate_eq_ok {t : Ir.Term} {u : Unit} :
    terminate t s = .ok u s' ↔
      s.body.cursor.isSome ∧ s.setBody (s.body.finish t) = s' := by
  unfold terminate
  simp only [bind_eq_ok, cursor_eq_ok, modifyBody_apply]
  constructor
  · rintro ⟨l, _, ⟨hl, rfl⟩, h⟩
    cases h
    simp [Body.finish, hl]
  · rintro ⟨hl, rfl⟩
    obtain ⟨l, hl⟩ := Option.isSome_iff_exists.mp hl
    exact ⟨l, s, ⟨hl, rfl⟩, by simp [Body.finish, hl]⟩

@[simp] theorem emitAt_vars_eq_ok {inst : Ir.Inst} {type : Ir.Ty} {v : Ir.Value} :
    emitAt .vars inst type s = .ok v s' ↔
      v = .computed s.body.fn s.body.lineCount type ∧
        s' = s.setBody (s.body.addVarsLine inst type) := by
  constructor
  · intro h
    cases h
    exact ⟨rfl, rfl⟩
  · rintro ⟨rfl, rfl⟩
    rfl

@[simp] theorem emitAt_cursor_eq_ok {inst : Ir.Inst} {type : Ir.Ty} {v : Ir.Value} :
    emitAt .cursor inst type s = .ok v s' ↔
      s.body.cursor.isSome ∧ v = .computed s.body.fn s.body.lineCount type ∧
        s' = s.setBody (s.body.emit inst type) := by
  simp only [emitAt, get_bind_apply, bind_eq_ok, cursor_eq_ok, modifyBody_bind_apply, pure_eq_ok]
  constructor
  · rintro ⟨l, _, ⟨hl, rfl⟩, rfl, rfl⟩
    simp [Body.emit, hl]
  · rintro ⟨hl, rfl, rfl⟩
    obtain ⟨l, hl⟩ := Option.isSome_iff_exists.mp hl
    exact ⟨l, s, ⟨hl, rfl⟩, rfl, by simp [Body.emit, hl]⟩

@[simp] theorem branchIfLive_eq_ok {l : Ir.Label} {r : Bool} :
    branchIfLive l s = .ok r s' ↔
      r = s.body.cursor.isSome ∧ s' = s.setBody (s.body.finish (.br l)) := by
  unfold branchIfLive
  simp only [get_bind_apply, ite_eq_ok, bind_eq_ok, terminate_eq_ok, pure_eq_ok]
  cases hc : s.body.cursor with
  | none => simp [Body.finish_eq_self hc, eq_comm]
  | some k => simp [eq_comm]

@[simp] theorem whenLive_eq_ok {m : Lower Unit} {u : Unit} :
    whenLive m s = .ok u s' ↔
      (s.body.cursor.isSome ∧ m s = .ok u s') ∨ (s.body.cursor = none ∧ s = s') := by
  unfold whenLive
  simp

end Lower

end TreeLowering
