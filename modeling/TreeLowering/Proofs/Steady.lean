import TreeLowering.Proofs.Run
import TreeLowering.Lower.Literal

/-!
Steps that leave the body alone. `Calm s s'` says what every expression leaves as it was: the
bindings of variables, the prototypes, the lowered definitions, the symbols, and the functions of
the module, but for declarations added at the end. `Steady m` says that a step is calm and does not
touch the body. The instruction types of source types are steady, and so is every question to the
analysis.
-/
namespace TreeLowering

/-- What expressions leave as it was. -/
structure Calm (s s' : State) : Prop where
  values : s'.values = s.values
  prototypes : s'.prototypes = s.prototypes
  lowered : s'.lowered = s.lowered
  symbols : s'.symbols = s.symbols
  funcs : ∃ more : List Ir.Function,
    s'.module.funcs.toList = s.module.funcs.toList ++ more ∧ ∀ f ∈ more, f.blocks = []

namespace Calm

theorem of_funcs_eq {s s' : State} (hv : s'.values = s.values)
    (hp : s'.prototypes = s.prototypes) (hl : s'.lowered = s.lowered)
    (hs : s'.symbols = s.symbols) (hf : s'.module.funcs = s.module.funcs) : Calm s s' :=
  ⟨hv, hp, hl, hs, [], by simp [hf], by simp⟩

theorem refl (s : State) : Calm s s := of_funcs_eq rfl rfl rfl rfl rfl

theorem setBody (s : State) (b : Body) : Calm s (s.setBody b) := of_funcs_eq rfl rfl rfl rfl rfl

theorem trans {s₁ s₂ s₃ : State} (h₁ : Calm s₁ s₂) (h₂ : Calm s₂ s₃) : Calm s₁ s₃ := by
  obtain ⟨m₁, e₁, n₁⟩ := h₁.funcs
  obtain ⟨m₂, e₂, n₂⟩ := h₂.funcs
  refine ⟨h₂.values.trans h₁.values, h₂.prototypes.trans h₁.prototypes,
    h₂.lowered.trans h₁.lowered, h₂.symbols.trans h₁.symbols, m₁ ++ m₂, ?_, ?_⟩
  · rw [e₂, e₁, List.append_assoc]
  · intro f hf
    rcases List.mem_append.mp hf with h | h
    · exact n₁ f h
    · exact n₂ f h

/-- The functions that were there stay as they are. -/
theorem getElem?_funcs {s s' : State} (h : Calm s s') {i : Nat} {f : Ir.Function}
    (hf : s.module.funcs[i]? = some f) : s'.module.funcs[i]? = some f := by
  obtain ⟨more, hm, -⟩ := h.funcs
  rw [← Array.getElem?_toList] at hf ⊢
  rw [hm, List.getElem?_append_left (List.getElem?_eq_some_iff.mp hf).1, hf]

end Calm

namespace Lower

variable {α β : Type}

/-- A relation between the states before and after a step that steps in a row keep. -/
class Lasting (r : State → State → Prop) : Prop where
  refl : ∀ s, r s s
  trans : ∀ {s₁ s₂ s₃}, r s₁ s₂ → r s₂ s₃ → r s₁ s₃

/-- Every run of the step that succeeds relates the state before to the state after. -/
def Always (r : State → State → Prop) (m : Lower α) : Prop :=
  ∀ s a s', m s = .ok a s' → r s s'

namespace Always

variable {r : State → State → Prop} [Lasting r]

theorem pure' (a : α) : Always r (pure a : Lower α) := by
  intro s b s' h
  obtain ⟨-, rfl⟩ := pure_eq_ok.mp h
  exact Lasting.refl s

theorem bind' {m : Lower α} {f : α → Lower β} (hm : Always r m) (hf : ∀ a, Always r (f a)) :
    Always r (m >>= f) := by
  intro s b s' h
  obtain ⟨a, s₁, h₁, h₂⟩ := bind_eq_ok.mp h
  exact Lasting.trans (hm s a s₁ h₁) (hf a s₁ b s' h₂)

omit [Lasting r] in
theorem get_bind {f : State → Lower α} (hf : ∀ s, Always r (f s)) : Always r (get >>= f) :=
  fun s a s' h => hf s s a s' h

omit [Lasting r] in
theorem reject' (p : Position) (c : Cause) : Always r (reject p c : Lower α) :=
  fun _ _ _ h => (reject_ne_ok.mp h).elim

omit [Lasting r] in
theorem reject_bind {p : Position} {c : Cause} {f : α → Lower β} :
    Always r (reject p c >>= f) := by
  intro s b s' h
  simp at h

omit [Lasting r] in
theorem breach' (b : Breach) : Always r (breach b : Lower α) :=
  fun _ _ _ h => (breach_ne_ok.mp h).elim

omit [Lasting r] in
theorem ite' {p : Prop} [Decidable p] {x y : Lower α} (hx : Always r x) (hy : Always r y) :
    Always r (if p then x else y) := by
  split
  · exact hx
  · exact hy

omit [Lasting r] in
theorem modify' {f : State → State} (hf : ∀ s, r s (f s)) :
    Always r (modify f : Lower PUnit) := by
  intro s a s' h
  cases h
  exact hf s

theorem mapM' {f : α → Lower β} (hf : ∀ a, Always r (f a)) (l : List α) :
    Always r (l.mapM f) := by
  induction l with
  | nil => exact .pure' _
  | cons a l ih =>
    rw [List.mapM_cons]
    exact .bind' (hf a) fun _ => .bind' ih fun _ => .pure' _

theorem forM' {f : α → Lower PUnit} (hf : ∀ a, Always r (f a)) (l : List α) :
    Always r (l.forM f) := by
  induction l with
  | nil => exact .pure' _
  | cons a l ih => exact .bind' (hf a) fun _ => ih

omit [Lasting r] in
theorem mono {r' : State → State → Prop} {m : Lower α} (h : Always r m)
    (hr : ∀ {s s'}, r s s' → r' s s') : Always r' m :=
  fun s a s' hm => hr (h s a s' hm)

end Always

/-- Calm, and the body is left alone. -/
def Still (s s' : State) : Prop := s'.body = s.body ∧ Calm s s'

instance : Lasting Still where
  refl s := ⟨rfl, .refl s⟩
  trans h₁ h₂ := ⟨h₂.1.trans h₁.1, h₁.2.trans h₂.2⟩

/-- The step is calm and leaves the body alone. -/
def Steady (m : Lower α) : Prop := Always Still m

/-! ## Questions to the analysis -/

theorem steady_siteOf (e : Expr) : Steady (siteOf e) := by
  unfold siteOf
  split
  · exact .pure' _
  · exact .breach' _

theorem steady_orBreach (r : Except Breach α) : Steady (orBreach r) := by
  cases r with
  | ok a => exact .pure' a
  | error b => exact .breach' b

theorem steady_described (e : Expr) : Steady (described e) := steady_orBreach _

theorem steady_report (e : Event) : Steady (report e) :=
  .modify' fun _ => ⟨rfl, .of_funcs_eq rfl rfl rfl rfl rfl⟩

theorem steady_variableAt (c : Context) (name : String) (site : Site) :
    Steady (variableAt c name site) := by
  unfold variableAt
  split
  · exact .pure' _
  · exact .reject' _ _

theorem steady_boundTo (c : Context) (v : ObjectId) (site : Site) :
    Steady (boundTo c v site) := by
  refine .get_bind fun s => ?_
  split
  · exact .pure' _
  · exact .reject' _ _

theorem steady_knownType (t : Ty) (p : Position) (kind : String) :
    Steady (knownType t p kind) :=
  .ite' (.reject' _ _) (.pure' _)

theorem steady_typeOfExpr (c : Context) (e : Expr) : Steady (typeOfExpr c e) := by
  unfold typeOfExpr
  split
  · exact .bind' (steady_siteOf e) fun _ => .reject' _ _
  · exact .pure' _

theorem steady_typeOfRef (c : Context) (t : Option TypeRef) : Steady (typeOfRef c t) := by
  unfold typeOfRef
  split
  · exact steady_knownType _ _ _
  · exact .breach' _

theorem steady_isLocal (c : Context) (site : Site) : Steady (isLocal c site) := by
  unfold isLocal
  split
  · exact .pure' _
  · exact .get_bind fun _ => .pure' _

/-! ## Globals -/

theorem steady_addGlobal (name : String) (content : Ir.Ty) : Steady (addGlobal name content) := by
  intro s a s' h
  cases h
  exact ⟨rfl, .of_funcs_eq rfl rfl rfl rfl rfl⟩

theorem steady_modifyGlobal (id : Ir.GlobalId) (f : Ir.Global → Ir.Global) :
    Steady (modifyGlobal id f) :=
  .modify' fun _ => ⟨rfl, .of_funcs_eq rfl rfl rfl rfl rfl⟩

theorem steady_copyIntrinsic : Steady copyIntrinsic := by
  refine .get_bind fun s => ?_
  split
  · exact .pure' _
  · intro s a s' h
    cases h
    refine ⟨rfl, rfl, rfl, rfl, rfl, [_], Array.toList_push, ?_⟩
    simp

theorem steady_internedData (content : Bytes) : Steady (internedData content) := by
  refine .get_bind fun s => ?_
  split
  · exact .pure' _
  · exact .bind' (steady_addGlobal _ _) fun g => .bind' (steady_modifyGlobal _ _) fun _ =>
      .bind' (.modify' fun _ => ⟨rfl, .of_funcs_eq rfl rfl rfl rfl rfl⟩) fun _ => .pure' _

/-! ## Instruction types -/

section
variable {store : Store} {named : NamedId → Lower Ir.Ty}

mutual

theorem steady_mapType (hn : ∀ id, Steady (named id)) :
    ∀ t, Steady (mapType store named t)
  | .missing => .breach' _
  | .scalar _ => .pure' _
  | .string => .pure' _
  | .array t => .bind' (steady_mapType hn t) fun _ => .pure' _
  | .pointer t => by
    unfold mapType
    exact .ite' (.pure' _) (.bind' (steady_mapType hn t) fun _ => .pure' _)
  | .struct fields => .bind' (steady_mapFields hn fields) fun _ => .pure' _
  | .func params result _ => by
    unfold mapType
    have rest : ∀ r : Ir.Ty, Steady (do
        let ps ← mapFields store named params
        pure (Ir.Ty.pointer (.func r ps))) :=
      fun _ => .bind' (steady_mapFields hn params) fun _ => .pure' _
    split
    · exact .bind' (.pure' _) rest
    · exact .bind' (steady_mapType hn result) rest
  | .named id => hn id

theorem steady_mapFields (hn : ∀ id, Steady (named id)) :
    ∀ fields, Steady (mapFields store named fields)
  | [] => .pure' _
  | (_, t) :: rest =>
    .bind' (steady_mapType hn t) fun _ => .bind' (steady_mapFields hn rest) fun _ => .pure' _

end

end

theorem steady_remember (id : NamedId) (t : Ir.Ty) : Steady (remember id t) :=
  .modify' fun _ => ⟨rfl, .of_funcs_eq rfl rfl rfl rfl rfl⟩

theorem steady_addTypeDef (name : String) : Steady (addTypeDef name) := by
  intro s a s' h
  cases h
  exact ⟨rfl, .of_funcs_eq rfl rfl rfl rfl rfl⟩

theorem steady_setFields (t : Ir.Ty) (fields : List Ir.Ty) : Steady (setFields t fields) := by
  unfold setFields
  split
  · exact .modify' fun _ => ⟨rfl, .of_funcs_eq rfl rfl rfl rfl rfl⟩
  · exact .pure' _

theorem steady_declaredType {store : Store} {map : Ty → Lower Ir.Ty} (hm : ∀ t, Steady (map t))
    (id : NamedId) : Steady (declaredType store map id) := by
  refine .get_bind fun s => ?_
  split
  · exact .pure' _
  · split
    · split
      · exact .breach' _
      · exact .bind' (steady_addTypeDef _) fun t => .bind' (steady_remember _ _) fun _ =>
          .bind' (.mapM' (fun _ => hm _) _) fun ts =>
            .bind' (steady_setFields _ _) fun _ => .pure' _
    · exact .bind' (hm _) fun t => .bind' (steady_remember _ _) fun _ => .pure' _

theorem steady_instructionTypeWithin (store : Store) (depth : Nat) :
    ∀ t, Steady (instructionTypeWithin store depth t) := by
  induction depth with
  | zero => exact steady_mapType (steady_declaredType fun _ => .breach' _)
  | succ depth ih => exact steady_mapType (steady_declaredType ih)

theorem steady_instructionType (c : Context) (t : Ty) : Steady (instructionType c t) :=
  steady_instructionTypeWithin _ _ t

theorem steady_instructionSignature (c : Context) (params : List (String × Ty)) (result : Ty) :
    Steady (instructionSignature c params result) := by
  unfold instructionSignature
  have rest : ∀ r : Ir.Ty, Steady (do
      let ps ← params.mapM fun p => instructionType c p.2
      pure (r, ps)) :=
    fun _ => .bind' (.mapM' (fun _ => steady_instructionType c _) _) fun _ => .pure' _
  split
  · exact .bind' (.pure' _) rest
  · exact .bind' (steady_instructionType _ _) rest

end Lower

end TreeLowering
