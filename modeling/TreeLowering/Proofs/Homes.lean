import TreeLowering.Proofs.Function
import TreeLowering.Proofs.Ownership

/-!
Variables and the definitions they live in.

Stack slots belong to one function, but the bindings of variables are shared by all: a definition
inside another one sees the slots of the outer one. `Node.Homed` says that this does not happen:
every variable with a slot has a home, the definition in whose body it is defined, and is named
there only. `Homely` is what lowering then keeps: variables are bound to constants or to slots of
the function of their home, and the body and all functions are self-contained.
-/
namespace TreeLowering

open Lower

/-- A definition with a body, or the top-level code. -/
abbrev Owner := Option NodeId

section
variable (c : Context) (home : ObjectId → Option Owner)

/-- A name in the body of an owner denotes a variable without a home, or one at home there. -/
def AtHome (o : Owner) (name : String) (site : Site) : Prop :=
  ∀ v, c.analysis.resolve name (some site) = some v → home v = none ∨ home v = some o

/-- A name denotes a variable whose home is the owner. -/
def Settles (o : Owner) (name : String) (site : Site) : Prop :=
  ∀ v, c.analysis.resolve name (some site) = some v → home v = some o

/-- Whether a variable that is not marked global is local where it is defined. -/
def VarDecl.isLocal (o : Owner) (d : VarDecl) : Bool :=
  match d.site.scope with
  | some s => (c.analysis.store.enclosingFunction s).isSome
  | none => o.isSome

/-- A definition of a variable in the body of an owner, which is its home if it gets a slot. -/
structure VarDecl.Homed (o : Owner) (d : VarDecl) : Prop where
  value : d.value.Names (AtHome c home o)
  settles : ∀ v, c.analysis.resolve d.name (some d.site) = some v →
    (variableFlags c v).isGlobal = false → d.isLocal c o = true → home v = some o

mutual

/-- In the body of an owner, and in the definitions inside it, variables are at home. -/
def Node.Homed (o : Owner) : Node → Prop
  | .labelled _ _ x => x.Homed o
  | .expr e => e.Names (AtHome c home o)
  | .varDecl d => d.Homed c home o
  | .funcDecl h body =>
    (∀ site, body.site? = some site → ∀ name ∈ h.params.map Prod.fst,
      Settles c home (some h.site.id) name site) ∧ body.Homed (some h.site.id)
  | .space _ _ decls => Node.HomedAll o decls
  | .block b => b.Homed o
  | .ifStmt _ cond yes elifs no =>
    cond.Names (AtHome c home o) ∧ yes.Homed o ∧ Elif.HomedAll o elifs ∧ no.Homed o
  | .forStmt _ init cond iter body =>
    Node.HomedAll o init ∧ cond.Names (AtHome c home o) ∧ Node.HomedAll o iter ∧ body.Homed o
  | .whileStmt _ cond body => cond.Names (AtHome c home o) ∧ body.Homed o
  | .ret _ result => result.Names (AtHome c home o)
  | .structDecl _ | .branch _ _ | .typeRef _ | .program _ _ | .file _ | .elif _ => True

/-- The same for a block. -/
def Block.Homed (o : Owner) : Block → Prop
  | .missing => True
  | .mk _ stmts => Node.HomedAll o stmts

/-- The same for a list of nodes. -/
def Node.HomedAll (o : Owner) : List Node → Prop
  | [] => True
  | n :: ns => n.Homed o ∧ Node.HomedAll o ns

/-- The same for the `elif` arms of a conditional. -/
def Elif.HomedAll (o : Owner) : List Elif → Prop
  | [] => True
  | .missing :: rest => Elif.HomedAll o rest
  | .mk _ cond body :: rest =>
    cond.Names (AtHome c home o) ∧ body.Homed o ∧ Elif.HomedAll o rest

end

end

/-! ## The invariant -/

/-- What lowering keeps while variables are at home; `homes` gives the functions of the owners whose
    bodies were begun. -/
structure Homely (home : ObjectId → Option Owner) (homes : Owner → Option Ir.FuncId) (s : State) :
    Prop where
  here : homes s.body.owner = some s.body.fn
  begun : ∀ key, (homes (some key)).isSome → key ∈ s.lowered
  values : ∀ v x, s.values.lookup v = some x → x.isConstant = true ∨
    ∃ o g, home v = some o ∧ homes o = some g ∧ x.BelongsTo g
  body : s.body.SelfContained
  funcs : ∀ i f, s.module.funcs[i]? = some f → Ir.SelfContained i f.blocks

namespace Homely

variable {home : ObjectId → Option Owner} {homes : Owner → Option Ir.FuncId} {s s' : State}

theorem setBody (h : Homely home homes s) {b : Body} (ho : b.owner = s.body.owner)
    (hfn : b.fn = s.body.fn) (hb : b.SelfContained) : Homely home homes (s.setBody b) :=
  { h with
    here := by
      rw [State.setBody_body, ho, hfn]
      exact h.here
    body := hb }

/-- A variable is bound to a constant, or to something of the function of its home. -/
theorem bind (h : Homely home homes s) {v : ObjectId} {x : Ir.Value}
    (hx : x.isConstant = true ∨ home v = some s.body.owner ∧ x.BelongsTo s.body.fn) :
    Homely home homes { s with values := (v, x) :: s.values } :=
  { h with
    values := by
      intro v' x' hl
      rw [List.lookup_cons] at hl
      split at hl
      · rename_i he
        cases hl
        rw [eq_of_beq he]
        exact hx.imp_right fun ⟨hh, hb⟩ => ⟨_, _, hh, h.here, hb⟩
      · exact h.values v' x' hl }

/-- Steps that leave variables alone and add declarations only. -/
theorem of_calm (h : Homely home homes s) (hc : Calm s s') (ho : s'.body.owner = s.body.owner)
    (hfn : s'.body.fn = s.body.fn) (hb : s'.body.SelfContained) : Homely home homes s' where
  here := by
    rw [ho, hfn]
    exact h.here
  begun key hk := by
    rw [hc.lowered]
    exact h.begun key hk
  values v x hl := h.values v x (by rwa [← hc.values])
  body := hb
  funcs i f hf := by
    obtain ⟨more, he, hm⟩ := hc.funcs
    rw [← Array.getElem?_toList, he, List.getElem?_append] at hf
    split at hf
    · exact h.funcs i f (by rwa [← Array.getElem?_toList])
    · rw [hm f (List.mem_of_getElem? hf)]
      exact fun _ hb => nomatch hb

end Homely

/-! ## Steps -/

namespace Lower

variable {α β : Type}

/-- In the body of an owner, lowered to a function, the step keeps variables at home, and its result
    satisfies `R`. -/
def Stays (home : ObjectId → Option Owner) (o : Owner) (fn : Ir.FuncId) (m : Lower α)
    (R : α → Prop) : Prop :=
  ∀ homes s a s', m s = .ok a s' → s.body.owner = o → s.body.fn = fn → Homely home homes s →
    R a ∧ s'.body.owner = o ∧ s'.body.fn = fn ∧
      ∃ homes', (∀ o g, homes o = some g → homes' o = some g) ∧ Homely home homes' s'

variable {home : ObjectId → Option Owner} {o : Owner} {fn : Ir.FuncId}

namespace Stays

theorem of_homely {m : Lower α} {R : α → Prop}
    (h : ∀ homes s a s', m s = .ok a s' → s.body.owner = o → s.body.fn = fn →
      Homely home homes s →
      R a ∧ s'.body.owner = s.body.owner ∧ s'.body.fn = s.body.fn ∧ Homely home homes s') :
    Stays home o fn m R := by
  intro homes s a s' hm ho hfn hh
  obtain ⟨hr, ho', hfn', hh'⟩ := h homes s a s' hm ho hfn hh
  exact ⟨hr, ho'.trans ho, hfn'.trans hfn, homes, fun _ _ hg => hg, hh'⟩

theorem pure' {a : α} {R : α → Prop} (h : R a) : Stays home o fn (pure a) R :=
  of_homely fun _ _ _ _ hm _ _ hh => by
    obtain ⟨rfl, rfl⟩ := pure_eq_ok.mp hm
    exact ⟨h, rfl, rfl, hh⟩

theorem bind' {m : Lower α} {f : α → Lower β} {R : α → Prop} {R' : β → Prop}
    (hm : Stays home o fn m R) (hf : ∀ a, R a → Stays home o fn (f a) R') :
    Stays home o fn (m >>= f) R' := by
  intro homes s b s' h ho hfn hh
  obtain ⟨a, s₁, h₁, h₂⟩ := bind_eq_ok.mp h
  obtain ⟨r₁, ho₁, hfn₁, homes₁, hx₁, hh₁⟩ := hm homes s a s₁ h₁ ho hfn hh
  obtain ⟨r₂, ho₂, hfn₂, homes₂, hx₂, hh₂⟩ := hf a r₁ homes₁ s₁ b s' h₂ ho₁ hfn₁ hh₁
  exact ⟨r₂, ho₂, hfn₂, homes₂, fun o g hg => hx₂ o g (hx₁ o g hg), hh₂⟩

theorem get_bind {f : State → Lower α} {R : α → Prop} (hf : ∀ s, Stays home o fn (f s) R) :
    Stays home o fn (get >>= f) R := fun homes s a s' h => hf s homes s a s' h

theorem reject' {R : α → Prop} (p : Position) (c : Cause) : Stays home o fn (reject p c) R :=
  fun _ _ _ _ h => (reject_ne_ok.mp h).elim

theorem reject_bind {R : β → Prop} {p : Position} {c : Cause} {f : α → Lower β} :
    Stays home o fn (reject p c >>= f) R :=
  bind' (R := fun _ => False) (reject' p c) fun _ hf => hf.elim

theorem breach' {R : α → Prop} (b : Breach) : Stays home o fn (breach b) R :=
  fun _ _ _ _ h => (breach_ne_ok.mp h).elim

theorem ite' {p : Prop} [Decidable p] {x y : Lower α} {R : α → Prop} (hx : Stays home o fn x R)
    (hy : Stays home o fn y R) : Stays home o fn (if p then x else y) R := by
  split
  · exact hx
  · exact hy

theorem discard' {m : Lower α} {R : α → Prop} (hm : Stays home o fn m R) :
    Stays home o fn (discard m) fun _ => True := by
  intro homes s u s' h ho hfn hh
  obtain ⟨a, ha⟩ := discard_eq_ok.mp h
  exact ⟨trivial, (hm homes s a s' ha ho hfn hh).2⟩

theorem whenLive' {m : Lower Unit} (hm : Stays home o fn m fun _ => True) :
    Stays home o fn (whenLive m) fun _ => True :=
  .get_bind fun _ => .ite' hm (.pure' trivial)

theorem forM' {f : α → Lower PUnit} {l : List α}
    (hf : ∀ a ∈ l, Stays home o fn (f a) fun _ => True) :
    Stays home o fn (l.forM f) fun _ => True := by
  induction l with
  | nil => exact .pure' trivial
  | cons a l ih =>
    exact .bind' (hf a List.mem_cons_self) fun _ _ => ih fun a' ha =>
      hf a' (List.mem_cons_of_mem _ ha)

/-- A change of the body. -/
theorem modifyBody' {f : Body → Body} (hk : ∀ b, (f b).owner = b.owner ∧ (f b).fn = b.fn)
    (hf : ∀ b, b.SelfContained → (f b).SelfContained) :
    Stays home o fn (modifyBody f) fun _ => True :=
  of_homely fun homes s u s' hm _ _ hh => by
    cases hm
    obtain ⟨ho, hfn⟩ := hk s.body
    exact ⟨trivial, ho, hfn, hh.setBody ho hfn (hf _ hh.body)⟩

end Stays

/-- What may be named and be an operand in the body of an owner. -/
def atHome (home : ObjectId → Option Owner) (o : Owner) (fn : Ir.FuncId) : Policy where
  fn := fn
  Operand := Ir.Value.BelongsTo fn
  Variable v := home v = none ∨ home v = some o
  Bindings _ := True
  constant _ h _ := Ir.Value.belongsTo_of_isConstant h
  bit b := Ir.Value.belongsTo_of_isConstant (by cases b <;> rfl)
  computed _ _ := rfl

theorem Stays.of_emits {m : Lower α} {R : α → Prop} (h : Emits (atHome home o fn) m R) :
    Stays home o fn m R :=
  of_homely fun homes s a s' hm ho hfn hh => by
    have covers : (atHome home o fn).Covers s.values := by
      refine ⟨trivial, fun v x hv hl => ?_⟩
      rcases hh.values v x hl with hx | ⟨o', g, hhome, hg, hx⟩
      · exact Ir.Value.belongsTo_of_isConstant hx
      · rcases hv with hv | hv
        · rw [hhome] at hv
          cases hv
        · cases hhome.symm.trans hv
          have hhere := hh.here
          rw [ho, hg, hfn] at hhere
          cases hhere
          exact hx
    obtain ⟨hr, calm, code, hg⟩ := h s a s' hm hfn covers
    exact ⟨hr, hg.kept.owner, hg.kept.fn,
      hh.of_calm calm hg.kept.owner hg.kept.fn (hg.selfContained hfn hh.body)⟩

theorem Stays.of_steady {m : Lower α} (h : Steady m) : Stays home o fn m fun _ => True :=
  .of_emits (.of_steady h fun _ _ _ _ => trivial)

section
variable {c : Context}

theorem admits_atHome {e : Expr} (h : e.Names (AtHome c home o)) : (atHome home o fn).Admits c e :=
  Policy.admits_of_names e h fun _ _ _ _ => trivial

theorem stays_valueOf {e : Expr} (h : e.Names (AtHome c home o)) :
    Stays home o fn (valueOf c e) (Ir.Value.BelongsTo fn) :=
  .of_emits (emits_valueOf e (admits_atHome h))

theorem stays_valueAs {e : Expr} (h : e.Names (AtHome c home o)) (t : Ty) :
    Stays home o fn (valueAs c e t) (Ir.Value.BelongsTo fn) :=
  .of_emits (emits_valueAs e t (admits_atHome h))

theorem stays_condition {e : Expr} (h : e.Names (AtHome c home o)) :
    Stays home o fn (condition c e) (Ir.Value.BelongsTo fn) :=
  .of_emits (emits_condition e (admits_atHome h))

theorem stays_stackSlot (type : Ir.Ty) :
    Stays home o fn (stackSlot type none) (Ir.Value.BelongsTo fn) :=
  .of_emits (emits_stackSlot type (by simp))

theorem stays_storeAt (spot : Place) {value place : Ir.Value} (hv : value.BelongsTo fn)
    (hp : place.BelongsTo fn) : Stays home o fn (storeAt spot value place) fun _ => True :=
  .of_emits (emits_storeAt spot hv hp)

theorem stays_bindVariable {v : ObjectId} {x : Ir.Value}
    (hx : x.isConstant = true ∨ home v = some o ∧ x.BelongsTo fn) :
    Stays home o fn (bindVariable v x) fun _ => True :=
  .of_homely fun homes s u s' hm ho hfn hh => by
    cases hm
    exact ⟨trivial, rfl, rfl, hh.bind (by rwa [ho, hfn])⟩

theorem stays_terminate {t : Ir.Term} (ht : ∀ v ∈ t.operands, v.BelongsTo fn) :
    Stays home o fn (terminate t) fun _ => True :=
  .of_homely fun homes s u s' hm ho hfn hh => by
    obtain ⟨-, rfl⟩ := terminate_eq_ok.mp hm
    have hk := Body.Kept.finish s.body t
    exact ⟨trivial, hk.owner, hk.fn, hh.setBody hk.owner hk.fn (hh.body.finish (hfn.symm ▸ ht))⟩

theorem stays_br (l : Ir.Label) : Stays home o fn (terminate (.br l)) fun _ => True :=
  stays_terminate (by simp [Ir.Term.operands])

theorem stays_condBr {v : Ir.Value} (hv : v.BelongsTo fn) (yes no : Ir.Label) :
    Stays home o fn (terminate (.condBr v yes no)) fun _ => True :=
  stays_terminate (by simpa [Ir.Term.operands] using hv)

theorem stays_openBlock (name : String) : Stays home o fn (openBlock name) fun _ => True :=
  .of_homely fun homes s l s' hm _ _ hh => by
    cases hm
    exact ⟨trivial, rfl, rfl, hh.setBody rfl rfl (hh.body.addBlock name)⟩

theorem stays_moveTo (l : Ir.Label) : Stays home o fn (moveTo l) fun _ => True :=
  .modifyBody' (fun _ => ⟨rfl, rfl⟩) fun _ hb => hb

theorem stays_moveNowhere : Stays home o fn moveNowhere fun _ => True :=
  .modifyBody' (fun _ => ⟨rfl, rfl⟩) fun _ hb => hb

theorem stays_branchIfLive (l : Ir.Label) : Stays home o fn (branchIfLive l) fun _ => True :=
  .get_bind fun _ => .ite' (.bind' (stays_br l) fun _ _ => .pure' trivial) (.pure' trivial)

end

end Lower

end TreeLowering
