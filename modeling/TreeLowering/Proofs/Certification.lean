import TreeLowering.Proofs.Completion
import TreeLowering.Proofs.Supply

/-!
Every function of a lowered unit has a certificate of dominance.

A statement leads from a world to one that `Follows` it: what is known on entry to blocks that are
there already stays as it is, so the targets of loops and joins can be branched to from anywhere.
Values computed before a statement are of no use after it, but for the stack slots that variables
are bound to. A function inside gets a world of its own. That its body is begun only once is what
makes this sound: no variable is bound to a slot of the body before it is begun.
-/
namespace TreeLowering

open Lower

variable {c : Context} {F : Definitions} {s s' : State}

/-! ## Bodies that were begun -/

/-- The body of the function was begun; the init function comes first. -/
def Begun (F : Definitions) (s : State) (fn : Ir.FuncId) : Prop :=
  fn = 0 ∨ ∃ h, Owns F s h fn ∧ h.site.id ∈ s.lowered

theorem Begun.mono {K : NodeId → Prop} {fn : Ir.FuncId} (h : Begun F s fn)
    (p : Bookkeeping c F K s s') : Begun F s' fn := by
  rcases h with h | ⟨h, ho, hl⟩
  · exact .inl h
  · exact .inr ⟨h, p.owns h fn ho, p.lowered hl⟩

/-- The function of a definition that waits for its body was not begun. -/
theorem Ledger.not_begun (L : Ledger c F s) {h : FuncHead} {id : Ir.FuncId} (ho : Owns F s h id)
    (hn : h.site.id ∉ s.lowered) : ¬Begun F s id := by
  obtain ⟨hs, hi⟩ := L.symbol h id ho
  rintro (rfl | ⟨h', ho', hl⟩)
  · exact hi (L.inj _ _ _ hs L.init)
  · -- Two owners of one function are one.
    have he := L.inj _ _ _ hs (L.symbol h' id ho').1
    exact hn (L.single h h' id id ho ho' he ▸ hl)

/-! ## Sound states -/

/-- The blocks of a function are certified, or it is a declaration. -/
def Attested (fn : Ir.FuncId) (blocks : List Ir.Block) : Prop :=
  blocks = [] ∨ ∃ known b, Certified known b ∧ b.fn = fn ∧ blocks = b.closed

theorem Ir.dominated_nil (fn : Ir.FuncId) : Ir.Dominated fn [] := by
  have empty : ∀ seen b, ¬Ir.Walk [] seen b := by
    intro seen b hw
    cases hw with
    | start h => cases h
    | step _ _ hm _ => cases hm
  exact ⟨List.nodup_nil, fun seen b hw => absurd hw (empty seen b), fun b hm => (nomatch hm),
    fun seen b hw => absurd hw (empty seen b)⟩

theorem Attested.dominated {fn : Ir.FuncId} {blocks : List Ir.Block} (h : Attested fn blocks) :
    Ir.Dominated fn blocks := by
  rcases h with rfl | ⟨known, b, hc, rfl, rfl⟩
  · exact Ir.dominated_nil fn
  · exact hc.dominated

/-- What holds between any two statements. -/
structure Sound (c : Context) (F : Definitions) (s : State) : Prop where
  ledger : Ledger c F s
  current : Begun F s s.body.fn
  slots : ∀ x ∈ s.values, ∀ fn k t, x.2 = .computed fn k t → Begun F s fn
  funcs : ∀ i f, s.module.funcs[i]? = some f → Attested i f.blocks

/-- Functions that were there, and declarations. -/
theorem attested_append {funcs funcs' : Array Ir.Function} {more : List Ir.Function}
    (h : ∀ i f, funcs[i]? = some f → Attested i f.blocks)
    (he : funcs'.toList = funcs.toList ++ more) (hm : ∀ f ∈ more, f.blocks = []) :
    ∀ i f, funcs'[i]? = some f → Attested i f.blocks := by
  intro i f hf
  rw [← Array.getElem?_toList, he, List.getElem?_append] at hf
  split at hf
  · rw [Array.getElem?_toList] at hf
    exact h i f hf
  · exact .inl (hm f (List.mem_of_getElem? hf))

theorem Sound.of_calm (S : Sound c F s) (hc : Calm s s') (hfn : s'.body.fn = s.body.fn) :
    Sound c F s' := by
  have p : Bookkeeping c F (fun _ => True) s s' := books_of_calm S.ledger hc
  obtain ⟨more, he, hm⟩ := hc.funcs
  refine ⟨p.ledger, ?_, ?_, attested_append S.funcs he hm⟩
  · rw [hfn]
    exact S.current.mono p
  · intro x hx fn k t hv
    rw [hc.values] at hx
    exact (S.slots x hx fn k t hv).mono p

/-- A world after statements: what is known on entry to old blocks stays as it is, and variables are
    bound anew only to slots of the body or of bodies begun meanwhile. -/
structure Follows (c : Context) (F : Definitions) (w w' : World) : Prop where
  fn : w'.body.fn = w.body.fn
  blockCount : w.body.blockCount ≤ w'.body.blockCount
  known : Known.Extends (w.body.blockCount + 2) w.known w'.known
  books : Bookkeeping c F (fun _ => True) w.state w'.state
  fresh : ∀ x ∈ w'.state.values, x ∈ w.state.values ∨
    ∀ fn k t, x.2 = .computed fn k t → fn = w.body.fn ∨ ¬Begun F w.state fn
  sound : Sound c F w'.state

namespace Follows

variable {w w₁ w₂ : World} {l : Ir.Label}

theorem of_calm (S : Sound c F w.state) (hc : Calm w.state w₁.state)
    (hfn : w₁.body.fn = w.body.fn) (hb : w.body.blockCount ≤ w₁.body.blockCount)
    (hk : Known.Extends (w.body.blockCount + 2) w.known w₁.known) : Follows c F w w₁ where
  fn := hfn
  blockCount := hb
  known := hk
  books := books_of_calm S.ledger hc
  fresh _ hx := .inl (hc.values ▸ hx)
  sound := S.of_calm hc hfn

theorem of_le (S : Sound c F w.state) (h : w ≤ w₁) : Follows c F w w₁ :=
  of_calm S h.calm h.kept.fn h.kept.blockCount h.known

theorem refl (S : Sound c F w.state) : Follows c F w w := of_le S w.le_refl

theorem trans (h₁ : Follows c F w w₁) (h₂ : Follows c F w₁ w₂) : Follows c F w w₂ where
  fn := h₂.fn.trans h₁.fn
  blockCount := Nat.le_trans h₁.blockCount h₂.blockCount
  known := h₁.known.trans h₂.known (Nat.add_le_add_right h₁.blockCount 2)
  books := h₁.books.trans h₂.books
  fresh x hx := by
    rcases h₂.fresh x hx with hx | hnew
    · exact h₁.fresh x hx
    · refine .inr fun fn k t he => ?_
      rcases hnew fn k t he with hfn | hnot
      · exact .inl (hfn.trans h₁.fn)
      · exact .inr fun hb => hnot (hb.mono h₁.books)
  sound := h₂.sound

theorem plain (h : Follows c F w w₁) (hl : w.body.Plain w.known l) :
    w₁.body.Plain w₁.known l := hl.mono h.blockCount h.known

theorem made (h : Follows c F w w₁) (hl : w.body.Made l) : w₁.body.Made l :=
  hl.mono h.blockCount

end Follows

/-- A state with the same body, in which variables are bound anew to slots of the body and to
    constants. -/
theorem World.follows_rebind {w : World} (S : Sound c F w.state)
    (p : Bookkeeping c F (fun _ => True) w.state s) (hb : s.body = w.body)
    (hv : ∀ x ∈ s.values, x ∈ w.state.values ∨
      x.2.Sourced w.body.fn w.body.Rooted ∧ ∀ fn k t, x.2 = .computed fn k t → fn = w.body.fn)
    (hf : ∀ i f, s.module.funcs[i]? = some f → Attested i f.blocks) :
    ∃ w', w'.state = s ∧ Follows c F w w' := by
  have bound : ∀ x ∈ s.values, x.2.Sourced w.body.fn w.body.Rooted := by
    intro x hx
    rcases hv x hx with hx | hx
    · exact w.bound x hx
    · exact hx.1
  have current : Begun F s s.body.fn := by
    rw [hb]
    exact S.current.mono p
  refine ⟨w.rebind hb bound, rfl, congrArg Body.fn hb, Nat.le_of_eq (congrArg _ hb.symm),
    .refl _ _, p, fun x hx => ?_, p.ledger, current, fun x hx fn k t he => ?_, hf⟩
  · rcases hv x hx with hx | hx
    · exact .inl hx
    · exact .inr fun fn k t he => .inl (hx.2 fn k t he)
  · rcases hv x hx with hx | hx
    · exact (S.slots x hx fn k t he).mono p
    · rw [hx.2 fn k t he]
      exact S.current.mono p

/-! ## Steps -/

namespace Lower

variable {α β : Type} {w : World}

/-- From a sound world the step leads to one that follows it, and the result satisfies `R`. -/
def Carries (c : Context) (F : Definitions) (w : World) (m : Lower α)
    (R : World → α → Prop) : Prop :=
  Sound c F w.state → ∀ a s', m w.state = .ok a s' →
    ∃ w', w'.state = s' ∧ Follows c F w w' ∧ R w' a

namespace Carries

variable {R : World → α → Prop} {R' : World → β → Prop}

theorem of_supplies {m : Lower α} (hm : Supplies w m R) : Carries c F w m R := by
  intro S a s' h
  obtain ⟨w', hw, le, r⟩ := hm a s' h
  exact ⟨w', hw, .of_le S le, r⟩

theorem pure' {a : α} (h : R w a) : Carries c F w (pure a) R := of_supplies (.pure' h)

theorem bind' {m : Lower α} {f : α → Lower β} (hm : Carries c F w m R)
    (hf : ∀ w' a, Follows c F w w' → R w' a → Carries c F w' (f a) R') :
    Carries c F w (m >>= f) R' := by
  intro S b s' h
  obtain ⟨a, s₁, h₁, h₂⟩ := bind_eq_ok.mp h
  obtain ⟨w₁, rfl, f₁, r₁⟩ := hm S a s₁ h₁
  obtain ⟨w₂, rfl, f₂, r₂⟩ := hf w₁ a f₁ r₁ f₁.sound b s' h₂
  exact ⟨w₂, rfl, f₁.trans f₂, r₂⟩

/-- A step after which what was ready is ready, then another one. -/
theorem supplies_bind {m : Lower α} {f : α → Lower β} (hm : Supplies w m R)
    (hf : ∀ w' a, w ≤ w' → R w' a → Carries c F w' (f a) R') : Carries c F w (m >>= f) R' := by
  intro S b s' h
  obtain ⟨a, s₁, h₁, h₂⟩ := bind_eq_ok.mp h
  obtain ⟨w₁, rfl, le₁, r₁⟩ := hm a s₁ h₁
  have f₁ : Follows c F w w₁ := .of_le S le₁
  obtain ⟨w₂, rfl, f₂, r₂⟩ := hf w₁ a le₁ r₁ f₁.sound b s' h₂
  exact ⟨w₂, rfl, f₁.trans f₂, r₂⟩

theorem steady_bind {m : Lower α} {f : α → Lower β} (hm : Steady m)
    (hf : ∀ w' a, w ≤ w' → Carries c F w' (f a) R') : Carries c F w (m >>= f) R' :=
  supplies_bind (R := fun _ _ => True) (.of_steady hm fun _ _ _ _ _ => trivial)
    fun w' a le _ => hf w' a le

theorem get_bind {f : State → Lower α} (hf : Carries c F w (f w.state) R) :
    Carries c F w (get >>= f) R := fun S a s' h => hf S a s' h

theorem reject' (pos : Position) (cause : Cause) : Carries c F w (reject pos cause) R :=
  of_supplies (.reject' pos cause)

theorem reject_bind {pos : Position} {cause : Cause} {f : α → Lower β} :
    Carries c F w (reject pos cause >>= f) R' := by
  intro S b s' h
  simp at h

theorem breach' (b : Breach) : Carries c F w (breach b) R := of_supplies (.breach' b)

theorem breach_bind {b : Breach} {f : α → Lower β} : Carries c F w (breach b >>= f) R' := by
  intro S b s' h
  simp at h

theorem ite' {p : Prop} [Decidable p] {x y : Lower α} (hx : Carries c F w x R)
    (hy : Carries c F w y R) : Carries c F w (if p then x else y) R := by
  split
  · exact hx
  · exact hy

theorem whenLive' {m : Lower Unit} (hm : Carries c F w m fun _ _ => True) :
    Carries c F w (whenLive m) fun _ _ => True :=
  get_bind (ite' hm (pure' trivial))

theorem forM' {f : α → Lower PUnit} {l : List α}
    (hf : ∀ a ∈ l, ∀ w, Carries c F w (f a) fun _ _ => True) :
    ∀ w, Carries c F w (l.forM f) fun _ _ => True := by
  induction l with
  | nil => exact fun w => pure' trivial
  | cons a l ih =>
    intro w
    refine bind' (hf a List.mem_cons_self w) fun w' _ _ _ => ?_
    exact ih (fun b hb => hf b (List.mem_cons_of_mem _ hb)) w'

end Carries

/-! ## Blocks and branches -/

/-- Nothing is known on entry to a new block. -/
theorem supplies_openBlock (name : String) :
    Supplies w (openBlock name) fun w' l => w'.body.Plain w'.known l ∧ 1 < l.id := by
  intro l s' h
  cases h
  have E : Known.Extends (w.body.blockCount + 2) w.known
      fun id k => w.known id k ∨ id = w.body.blockCount + 2 ∧ False :=
    ⟨fun _ _ h => .inl h, fun _ _ _ h => h.elim id fun h => h.2.elim⟩
  refine ⟨_, rfl, w.le_grow (w.certified.addBlock name fun _ => False) (.addBlock _ _)
    (.addBlock _ _) E rfl, ⟨?_, fun k hk => ?_⟩, ?_⟩
  · exact ⟨Nat.succ_pos _, Nat.lt_succ_self _⟩
  · rcases hk with hk | hk
    · exact Nat.lt_irrefl _ (w.certified.entry _ k hk).2
    · exact hk.2
  · exact Nat.succ_lt_succ (Nat.succ_pos _)

/-- A terminator that uses what is ready and leads where nothing is known. -/
theorem le_finish {t : Ir.Term} (ho : ∀ v ∈ t.operands, w.Ready .cursor v)
    (hs : ∀ q ∈ t.successors, w.body.Plain w.known q) :
    ∃ w', w'.state = w.state.setBody (w.body.finish t) ∧ w ≤ w' := by
  cases hc : w.body.cursor with
  | none => exact ⟨w, by rw [Body.finish_eq_self hc, State.setBody_self], w.le_refl⟩
  | some l =>
    have cert := w.certified.finish (t := t) hc
      (fun v hv => Ir.Value.Sourced.mono (ho v hv) fun k hk => hk l hc)
      fun q hq => ⟨(hs q hq).1.2, fun k hk => absurd hk ((hs q hq).2 k)⟩
    exact ⟨_, rfl, w.le_grow cert (.finish _ _) (.finish _ _) (.refl _ _) (by simp)⟩

theorem supplies_terminate {t : Ir.Term} (ho : ∀ v ∈ t.operands, w.Ready .cursor v)
    (hs : ∀ q ∈ t.successors, w.body.Plain w.known q) :
    Supplies w (terminate t) fun _ _ => True := by
  intro u s' h
  obtain ⟨-, rfl⟩ := terminate_eq_ok.mp h
  obtain ⟨w', hw, le⟩ := le_finish ho hs
  exact ⟨w', hw, le, trivial⟩

/-- A branch to a block on entry to which nothing is known. -/
theorem supplies_br {l : Ir.Label} (hl : w.body.Plain w.known l) :
    Supplies w (terminate (.br l)) fun _ _ => True :=
  supplies_terminate (fun _ hv => nomatch hv) fun q hq => by
    rw [List.mem_singleton.mp hq]
    exact hl

theorem supplies_condBr {v : Ir.Value} {yes no : Ir.Label} (hv : w.Ready .cursor v)
    (hy : w.body.Plain w.known yes) (hn : w.body.Plain w.known no) :
    Supplies w (terminate (.condBr v yes no)) fun _ _ => True := by
  refine supplies_terminate ?_ ?_
  · simpa [Ir.Term.operands] using hv
  · simpa [Ir.Term.successors] using ⟨hy, hn⟩

theorem supplies_branchIfLive {l : Ir.Label} (hl : w.body.Plain w.known l) :
    Supplies w (branchIfLive l) fun _ _ => True := by
  intro r s' h
  obtain ⟨-, rfl⟩ := branchIfLive_eq_ok.mp h
  obtain ⟨w', hw, le⟩ := le_finish (w := w) (t := .br l) (fun v hv => nomatch hv) fun q hq => by
    rw [List.mem_singleton.mp hq]
    exact hl
  exact ⟨w', hw, le, trivial⟩

end Lower

/-- The world with another cursor, or with other loops around it. -/
def World.steer (w : World) (cursor : Option Ir.Label) (loops : List Loop)
    (hc : ∀ l, cursor = some l → w.body.Made l)
    (hl : ∀ loop ∈ loops, w.body.Plain w.known loop.exit ∧ w.body.Plain w.known loop.next) :
    World where
  state := w.state.setBody { w.body with cursor, loops }
  known := w.known
  certified := w.certified.steer cursor loops
  bound := w.bound
  cursor := hc
  loops := hl

theorem World.follows_steer {w : World} (S : Sound c F w.state) (cursor : Option Ir.Label)
    {loops : List Loop} (hc : ∀ l, cursor = some l → w.body.Made l)
    (hl : ∀ loop ∈ loops, w.body.Plain w.known loop.exit ∧ w.body.Plain w.known loop.next) :
    Follows c F w (w.steer cursor loops hc hl) :=
  .of_calm S (.of_funcs_eq rfl rfl rfl rfl rfl) rfl (Nat.le_refl _) (.refl _ _)

namespace Lower

variable {w : World}

theorem carries_moveTo {l : Ir.Label} (hl : w.body.Made l) :
    Carries c F w (moveTo l) fun _ _ => True := by
  intro S u s' h
  cases h
  refine ⟨_, rfl, World.follows_steer S (some l) (fun _ he => ?_) w.loops, trivial⟩
  cases he
  exact hl

theorem carries_moveNowhere : Carries c F w moveNowhere fun _ _ => True := by
  intro S u s' h
  cases h
  exact ⟨_, rfl, World.follows_steer S none (fun _ he => nomatch he) w.loops, trivial⟩

/-! ## Conditionals -/

variable {step : Lower Unit} (hstep : ∀ w, Carries c F w step fun _ _ => True)

include hstep in
theorem carries_conditionalArm {done : Ir.Label} (cond : Expr) (otherwise : Option String)
    (hd : w.body.Plain w.known done) :
    Carries c F w (conditionalArm c done cond step otherwise) fun _ _ => True := by
  have rest : ∀ (w : World) (v : Ir.Value) (yes no : Ir.Label), w.Ready .cursor v →
      w.body.Plain w.known done → w.body.Plain w.known yes → w.body.Plain w.known no →
      Carries c F w (do
        terminate (.condBr v yes no)
        moveTo yes
        step
        let joined ← branchIfLive done
        moveTo no
        pure (joined || otherwise.isNone)) fun _ _ => True := by
    intro w v yes no hv hd hy hn
    refine .supplies_bind (supplies_condBr hv hy hn) fun w₁ _ le₁ _ => ?_
    refine .bind' (carries_moveTo (le₁.plain hy).1) fun w₂ _ f₂ _ => ?_
    refine .bind' (hstep w₂) fun w₃ _ f₃ _ => ?_
    have hd := f₃.plain (f₂.plain (le₁.plain hd))
    have hn := f₃.plain (f₂.plain (le₁.plain hn))
    refine .supplies_bind (supplies_branchIfLive hd) fun w₄ _ le₄ _ => ?_
    exact .bind' (carries_moveTo (le₄.plain hn).1) fun _ _ _ _ => .pure' trivial
  refine .supplies_bind (supplies_condition cond) fun w₁ v le₁ hv => ?_
  refine .supplies_bind (supplies_openBlock _) fun w₂ yes le₂ hy => ?_
  have hd := le₂.plain (le₁.plain hd)
  split
  · refine .supplies_bind (supplies_openBlock _) fun w₃ no le₃ hn => ?_
    exact rest w₃ v yes no (le₃.ready (le₂.ready hv)) (le₃.plain hd) (le₃.plain hy.1) hn.1
  · refine .supplies_bind (R := fun w l => w.body.Plain w.known l) (.pure' hd)
      fun w₃ no le₃ hn => ?_
    exact rest w₃ v yes no (le₃.ready (le₂.ready hv)) (le₃.plain hd) (le₃.plain hy.1) hn

theorem carries_closeConditional {done : Ir.Label} (hd : w.body.Made done) (h1 : 1 < done.id)
    (reached : Bool) : Carries c F w (closeConditional done reached) fun _ _ => True := by
  intro S u s' h
  have hs : s' = w.state.setBody (w.body.closeJoin done reached) := by
    cases reached <;> cases h <;> rfl
  have cert := w.certified.closeJoin (Nat.ne_of_gt h1) reached
  refine ⟨w.grow cert (.closeJoin _ _ _) (.closeJoin _ _ _) (.refl _ _) ?_, hs.symm,
    .of_calm S (.of_funcs_eq rfl rfl rfl rfl rfl) (Body.Kept.closeJoin _ _ _).fn
      (Body.Kept.closeJoin _ _ _).blockCount (.refl _ _), trivial⟩
  intro l hl
  cases reached with
  | true =>
    cases hl
    exact hd
  | false => cases hl

/-! ## Loops -/

theorem carries_enterLoop {loop : Loop} (he : w.body.Plain w.known loop.exit)
    (hn : w.body.Plain w.known loop.next) :
    Carries c F w (modifyBody fun b => { b with loops := loop :: b.loops }) fun _ _ => True := by
  intro S u s' h
  cases h
  refine ⟨_, rfl, World.follows_steer S _ w.cursor fun l hl => ?_, trivial⟩
  rcases List.mem_cons.mp hl with rfl | hl
  · exact ⟨he, hn⟩
  · exact w.loops l hl

theorem carries_exitLoop :
    Carries c F w (modifyBody fun b => { b with loops := b.loops.tail }) fun _ _ => True := by
  intro S u s' h
  cases h
  exact ⟨_, rfl, World.follows_steer S _ w.cursor fun l hl => w.loops l (List.mem_of_mem_tail hl),
    trivial⟩

include hstep in
theorem carries_runLoop {loop : Loop} {start : Ir.Label} (hs : w.body.Made start)
    (he : w.body.Plain w.known loop.exit) (hn : w.body.Plain w.known loop.next) :
    Carries c F w (runLoop loop start step) fun _ _ => True := by
  refine .bind' (carries_enterLoop he hn) fun w₁ _ f₁ _ => ?_
  refine .bind' (carries_moveTo (f₁.made hs)) fun w₂ _ f₂ _ => ?_
  refine .bind' (hstep w₂) fun w₃ _ f₃ _ => ?_
  have hn := f₃.plain (f₂.plain (f₁.plain hn))
  exact .supplies_bind (.discard' (supplies_branchIfLive hn)) fun _ _ _ _ => carries_exitLoop

include hstep in
theorem carries_whileLoop (cond : Expr) :
    Carries c F w (whileLoop c cond step) fun _ _ => True := by
  refine .supplies_bind (supplies_openBlock _) fun w₁ test _ ht => ?_
  refine .supplies_bind (supplies_openBlock _) fun w₂ start le₂ hs => ?_
  refine .supplies_bind (supplies_openBlock _) fun w₃ exit le₃ he => ?_
  have ht := le₃.plain (le₂.plain ht.1)
  have hs := le₃.plain hs.1
  refine .supplies_bind (supplies_br ht) fun w₄ _ le₄ _ => ?_
  refine .bind' (carries_moveTo (le₄.plain ht).1) fun w₅ _ f₅ _ => ?_
  refine .supplies_bind (supplies_condition cond) fun w₆ v le₆ hv => ?_
  have ht := le₆.plain (f₅.plain (le₄.plain ht))
  have hs := le₆.plain (f₅.plain (le₄.plain hs))
  have he := le₆.plain (f₅.plain (le₄.plain he.1))
  refine .supplies_bind (supplies_condBr hv hs he) fun w₇ _ le₇ _ => ?_
  have he := le₇.plain he
  refine .bind' (carries_runLoop hstep (le₇.plain hs).1 he (le₇.plain ht)) fun w₈ _ f₈ _ => ?_
  exact carries_moveTo (f₈.plain he).1

include hstep in
theorem carries_forLoop (cond : Expr) {iter : Lower Unit}
    (hiter : ∀ w, Carries c F w iter fun _ _ => True) :
    Carries c F w (forLoop c cond iter step) fun _ _ => True := by
  refine .supplies_bind (supplies_openBlock _) fun w₁ test _ ht => ?_
  refine .supplies_bind (supplies_openBlock _) fun w₂ start le₂ hs => ?_
  refine .supplies_bind (supplies_openBlock _) fun w₃ next le₃ hn => ?_
  refine .supplies_bind (supplies_openBlock _) fun w₄ exit le₄ he => ?_
  have ht := le₄.plain (le₃.plain (le₂.plain ht.1))
  have hs := le₄.plain (le₃.plain hs.1)
  have hn := le₄.plain hn.1
  refine .supplies_bind (supplies_br ht) fun w₅ _ le₅ _ => ?_
  refine .bind' (carries_moveTo (le₅.plain ht).1) fun w₆ _ f₆ _ => ?_
  have ht := f₆.plain (le₅.plain ht)
  have hs := f₆.plain (le₅.plain hs)
  have hn := f₆.plain (le₅.plain hn)
  have he := f₆.plain (le₅.plain he.1)
  have rest : ∀ w, w₆ ≤ w → Carries c F w (do
      runLoop ⟨exit, next⟩ start step
      moveTo next
      iter
      discard (branchIfLive test)
      moveTo exit) fun _ _ => True := by
    intro w le
    have he := le.plain he
    have hn := le.plain hn
    refine .bind' (carries_runLoop hstep (le.plain hs).1 he hn) fun w₇ _ f₇ _ => ?_
    refine .bind' (carries_moveTo (f₇.plain hn).1) fun w₈ _ f₈ _ => ?_
    refine .bind' (hiter w₈) fun w₉ _ f₉ _ => ?_
    have ht := f₉.plain (f₈.plain (f₇.plain (le.plain ht)))
    refine .supplies_bind (.discard' (supplies_branchIfLive ht)) fun w' _ le' _ => ?_
    exact carries_moveTo (le'.plain (f₉.plain (f₈.plain (f₇.plain he)))).1
  refine .ite' ?_ ?_
  · exact .supplies_bind (supplies_br hs) fun w _ le _ => rest w le
  · refine .supplies_bind (supplies_condition cond) fun w₇ v le₇ hv => ?_
    refine .supplies_bind (supplies_condBr hv (le₇.plain hs) (le₇.plain he)) fun w₈ _ le₈ _ => ?_
    exact rest w₈ (World.le_trans le₇ le₈)

/-! ## Jumps -/

theorem carries_jump (site : Site) (token : Token) :
    Carries c F w (jump site token) fun _ _ => True := by
  refine .get_bind ?_
  split
  · exact .reject' _ _
  · rename_i loop rest hl
    have plain := w.loops loop (by rw [hl]; exact List.mem_cons_self)
    refine .supplies_bind (supplies_br ?_) fun _ _ _ _ => carries_moveNowhere
    split
    · exact plain.1
    · exact plain.2

theorem carries_ret {value : Option Ir.Value} (hv : ∀ v ∈ value, w.Ready .cursor v) :
    Carries c F w (terminate (.ret value) >>= fun _ => moveNowhere) fun _ _ => True := by
  refine .supplies_bind (supplies_terminate ?_ fun q hq => nomatch hq) fun _ _ _ _ =>
    carries_moveNowhere
  simpa [Ir.Term.operands] using hv

theorem carries_leave (site : Site) (result : Expr) :
    Carries c F w (leave c site result) fun _ _ => True := by
  refine .get_bind ?_
  dsimp only
  cases w.state.body.head with
  | none => exact .reject' _ _
  | some h =>
    refine .ite' (.ite' (carries_ret (by simp)) .reject_bind) (.ite' .reject_bind ?_)
    refine .supplies_bind (supplies_valueAs _ _) fun w₁ v _ hv => carries_ret ?_
    simpa using hv

theorem carries_closeBody : Carries c F w (closeBody c) fun _ _ => True :=
  .get_bind (.ite' (.ite'
    (.of_supplies (supplies_terminate (fun _ hv => nomatch hv) fun _ hq => nomatch hq))
    (.of_supplies (supplies_terminate (fun _ hv => nomatch hv) fun _ hq => nomatch hq)))
    (.pure' trivial))

/-! ## Variables -/

/-- A variable is bound to a slot of the body, or to a constant. -/
theorem carries_bindVariable (v : ObjectId) {x : Ir.Value} (hx : w.Ready .vars x)
    (hown : ∀ fn k t, x = .computed fn k t → fn = w.body.fn) :
    Carries c F w (bindVariable v x) fun _ _ => True := by
  intro S u s' h
  cases h
  have p : Bookkeeping c F (fun _ => True) w.state
      { w.state with values := (v, x) :: w.state.values } := .of_funcs_eq S.ledger rfl rfl rfl rfl
  have values : ∀ y ∈ (v, x) :: w.state.values, y ∈ w.state.values ∨
      y.2.Sourced w.body.fn w.body.Rooted ∧
        ∀ fn k t, y.2 = .computed fn k t → fn = w.body.fn := by
    intro y hy
    rcases List.mem_cons.mp hy with rfl | hy
    · exact .inr ⟨hx, hown⟩
    · exact .inl hy
  obtain ⟨w', hw, f⟩ := World.follows_rebind S p rfl values S.funcs
  exact ⟨w', hw, f, trivial⟩

/-- A slot is made and filled, and a variable bound to it. -/
theorem carries_slot (v : ObjectId) (type : Ir.Ty) (spot : Place) {init : Ir.Value}
    (hi : w.Ready spot init) : Carries c F w (do
      let slot ← stackSlot type none
      storeAt spot init slot
      bindVariable v slot) fun _ _ => True := by
  have made : Supplies w (stackSlot type none) fun w' slot =>
      w'.Ready .vars slot ∧ ∀ fn k t, slot = .computed fn k t → fn = w'.body.fn := by
    intro slot s' h
    obtain ⟨w', hw, le, hs⟩ := supplies_stackSlot type (by simp) slot s' h
    refine ⟨w', hw, le, hs, fun fn k t he => ?_⟩
    rw [(emitAt_vars_eq_ok.mp h).1] at he
    cases he
    exact le.kept.fn.symm
  refine .supplies_bind made fun w₁ slot le₁ hs => ?_
  refine .supplies_bind (supplies_storeAt spot (le₁.ready hi) hs.1.everywhere)
    fun w₂ _ le₂ _ => ?_
  refine carries_bindVariable v (le₂.ready hs.1) fun fn k t he => ?_
  exact (hs.2 fn k t he).trans le₂.kept.fn.symm

theorem carries_defineGlobal (d : VarDecl) (v : ObjectId) (type : Ir.Ty) :
    Carries c F w (defineGlobal c d v type) fun _ _ => True := by
  have bind : ∀ w g, Carries c F w (bindVariable v (.global g type)) fun _ _ => True :=
    fun w g => carries_bindVariable v (.of_constant rfl) fun _ _ _ he => nomatch he
  refine .steady_bind (steady_addGlobal _ _) fun w₁ g _ => .ite' (bind w₁ g) ?_
  refine .supplies_bind (supplies_valueAs _ _) fun w₂ init _ hi => .ite' ?_ ?_
  · exact .steady_bind (steady_modifyGlobal _ _) fun w₃ _ _ => bind w₃ g
  · exact .supplies_bind (supplies_store hi (.of_constant rfl)) fun w₃ _ _ _ => bind w₃ g

theorem carries_defineLocal (d : VarDecl) (v : ObjectId) (type : Ir.Ty) :
    Carries c F w (defineLocal c d v type) fun _ _ => True := by
  refine .ite' ?_ ?_
  · exact .supplies_bind (R := fun w x => w.Ready .cursor x) (.pure' (.of_constant rfl))
      fun _ _ _ hi => carries_slot v type .cursor hi
  · exact .supplies_bind (supplies_valueAs _ _) fun _ _ _ hi => carries_slot v type .cursor hi

theorem carries_defineVariable (d : VarDecl) :
    Carries c F w (defineVariable c d) fun _ _ => True := by
  refine .steady_bind (steady_variableAt c _ _) fun _ v _ => .ite' (.reject' _ _) ?_
  refine .steady_bind (steady_instructionType c _) fun _ type _ => ?_
  refine .ite' (carries_defineGlobal d v type) ?_
  exact .steady_bind (steady_isLocal c _) fun _ _ _ =>
    .ite' (carries_defineLocal d v type) (carries_defineGlobal d v type)

theorem carries_storeParams (fn : Ir.FuncId) (site : Site) :
    ∀ (params : List (String × Ir.Ty)) (i : Nat) (w : World),
      Carries c F w (storeParams c fn site i params) fun _ _ => True
  | [], _, _ => .pure' trivial
  | (_, type) :: rest, i, w => by
    refine .steady_bind (steady_variableAt c _ _) fun w₁ v _ => ?_
    have slot : Carries c F w₁ (do
        let slot ← stackSlot type none
        storeAt .vars (.param fn i type) slot
        bindVariable v slot) fun _ _ => True :=
      carries_slot v type .vars fun _ _ he => nomatch he
    have both := Carries.bind' slot fun w₂ _ _ _ => carries_storeParams fn site rest (i + 1) w₂
    simpa only [bind_assoc] using both

end Lower

/-! ## Prototypes -/

/-- What declaring functions does: variables are bound to functions, and declarations are added. -/
structure Declaring (s s' : State) : Prop where
  body : s'.body = s.body
  values : ∀ x ∈ s'.values, x ∈ s.values ∨ x.2.isConstant = true
  funcs : ∃ more : List Ir.Function,
    s'.module.funcs.toList = s.module.funcs.toList ++ more ∧ ∀ f ∈ more, f.blocks = []

namespace Lower

instance : Lasting Declaring where
  refl s := ⟨rfl, fun _ h => .inl h, [], by simp, by simp⟩
  trans h₁ h₂ := by
    obtain ⟨more₁, e₁, n₁⟩ := h₁.funcs
    obtain ⟨more₂, e₂, n₂⟩ := h₂.funcs
    refine ⟨h₂.body.trans h₁.body, fun x hx => ?_, more₁ ++ more₂, ?_, ?_⟩
    · rcases h₂.values x hx with hx | hx
      · exact h₁.values x hx
      · exact .inr hx
    · rw [e₂, e₁, List.append_assoc]
    · intro f hf
      rcases List.mem_append.mp hf with hf | hf
      · exact n₁ f hf
      · exact n₂ f hf

theorem declaring_of_steady {α : Type} {m : Lower α} (hm : Steady m) : Always Declaring m := by
  intro s a s' h
  obtain ⟨hb, hc⟩ := hm s a s' h
  exact ⟨hb, fun x hx => .inl (hc.values ▸ hx), hc.funcs⟩

theorem declaring_notePrototype (h : FuncHead) (f : Option Ir.FuncId) :
    Always Declaring (notePrototype h f) :=
  .modify' fun _ => ⟨rfl, fun _ hx => .inl hx, [], by simp, by simp⟩

theorem declaring_declareSymbol (h : FuncHead) (hasBody : Bool) (result : Ir.Ty)
    (params : List Ir.Ty) : Always Declaring (declareSymbol h hasBody result params) := by
  intro s id s' hr
  rcases declareSymbol_eq_ok hr with ⟨-, -, f, -, hb, -, rfl⟩ | ⟨-, -, rfl⟩
  · exact ⟨rfl, fun _ hx => .inl hx, [f], by simp [State.declare], by simpa using hb⟩
  · exact Lasting.refl _

theorem declaring_declarePrototype (h : FuncHead) (body : Block) (v : ObjectId)
    (sig : Signature) : Always Declaring (declarePrototype c h body v sig) := by
  refine .ite' .reject_bind ?_
  refine .bind' (declaring_of_steady (steady_instructionSignature c _ _)) fun r => ?_
  refine .bind' (declaring_declareSymbol _ _ _ _) fun id => ?_
  refine .bind' (declaring_notePrototype _ _) fun _ => .get_bind fun s => ?_
  refine .bind' (.modify' fun s => ⟨rfl, fun x hx => ?_, [], by simp, by simp⟩) fun _ =>
    declaring_of_steady (steady_report _)
  rcases List.mem_cons.mp hx with rfl | hx
  · exact .inr rfl
  · exact .inl hx

theorem declaring_enterPrototype (h : FuncHead) (body : Block) :
    Always Declaring (enterPrototype c h body) := by
  refine .bind' (declaring_of_steady (steady_signatureOf c h)) fun sig => ?_
  refine .ite' (.bind' (declaring_notePrototype _ _) fun _ =>
    declaring_of_steady (steady_report _)) ?_
  refine .bind' (declaring_of_steady (steady_variableAt c _ _)) fun v => ?_
  refine .ite' (.ite' .reject_bind ?_) (declaring_declarePrototype h body v sig)
  exact .bind' (declaring_of_steady (steady_report _)) fun _ =>
    declaring_declarePrototype h body v sig

theorem carries_enterPrototype {w : World} {h : FuncHead} {body : Block} (ident : F.Identified)
    (hd : F h body) : Carries c F w (enterPrototype c h body) fun _ _ => True := by
  intro S u s' hr
  have p : Bookkeeping c F (fun _ => True) w.state s' :=
    (enterPrototype_books ident hd hr S.ledger).mono fun _ _ => trivial
  have D := declaring_enterPrototype h body _ _ _ hr
  obtain ⟨more, he, hm⟩ := D.funcs
  have values : ∀ x ∈ s'.values, x ∈ w.state.values ∨
      x.2.Sourced w.body.fn w.body.Rooted ∧
        ∀ fn k t, x.2 = .computed fn k t → fn = w.body.fn := by
    intro x hx
    rcases D.values x hx with hx | hx
    · exact .inl hx
    · refine .inr ⟨.of_constant hx, fun fn k t hv => ?_⟩
      rw [hv] at hx
      cases hx
  obtain ⟨w', hw, f⟩ := World.follows_rebind S p D.body values (attested_append S.funcs he hm)
  exact ⟨w', hw, f, trivial⟩

/-! ## Bodies -/

variable {h : FuncHead} {body : Block}

theorem attested_modify {funcs : Array Ir.Function} {id : Nat} {g : Ir.Function → Ir.Function}
    (hf : ∀ i f, funcs[i]? = some f → Attested i f.blocks)
    (hg : ∀ f, (g f).blocks = f.blocks ∨ Attested id (g f).blocks) :
    ∀ i f, (funcs.modify id g)[i]? = some f → Attested i f.blocks := by
  intro i f hi
  rw [Array.getElem?_modify] at hi
  split at hi
  · rename_i he
    subst he
    obtain ⟨f₀, h₀, rfl⟩ := Option.map_eq_some_iff.mp hi
    rcases hg f₀ with hb | hb
    · rw [hb]
      exact hf id f₀ h₀
    · exact hb
  · exact hf i f hi

/-- A body that was not begun begins in a sound world of its own. -/
theorem World.exists_begin {w : World} (S : Sound c F w.state) {id : Ir.FuncId}
    (ho : Owns F w.state h id) (hnew : h.site.id ∉ w.state.lowered) (exported : Bool)
    (result : Ty) :
    ∃ w₀ : World, w₀.state = (w.state.beginBody h.site.id id exported).setBody
        { fn := id, head := some h, result } ∧ Sound c F w₀.state ∧
      ∀ fn, Begun F w.state fn → Begun F w₀.state fn := by
  have fresh := S.ledger.not_begun ho hnew
  have bound : ∀ x ∈ w.state.values, x.2.Sourced id fun _ => False := by
    intro x hx k t he
    exact fresh (S.slots x hx id k t he)
  have begun : ∀ fn, Begun F w.state fn → Begun F ((w.state.beginBody h.site.id id
      exported).setBody { fn := id, head := some h, result }) fn := by
    rintro fn (hz | ⟨h', ho', hl⟩)
    · exact .inl hz
    · exact .inr ⟨h', ⟨ho'.1, ho'.2⟩, List.mem_cons_of_mem _ hl⟩
  refine ⟨⟨(w.state.beginBody h.site.id id exported).setBody { fn := id, head := some h, result },
    fun _ _ => False, .start id (some h) result, fun x hx => ?_, fun l hl => ?_,
    fun loop hl => absurd hl List.not_mem_nil⟩, rfl, ⟨ledger_begin S.ledger ho hnew exported _,
    .inr ⟨h, ⟨ho.1, ho.2⟩, List.mem_cons_self⟩, fun x hx fn k t he => ?_, ?_⟩, begun⟩
  · exact (bound x hx).mono fun _ => False.elim
  · cases hl
    exact ⟨Nat.one_pos, Nat.lt_succ_self 1⟩
  · exact begun fn (S.slots x hx fn k t he)
  · cases exported with
    | true => exact attested_modify S.funcs fun _ => .inl rfl
    | false => exact S.funcs

/-- The init function is the first one, and its body the first to be begun. -/
theorem World.exists_init {f : Ir.Function} (hf : f.name = Abi.initFunction)
    (hb : f.blocks = []) (hm : s.module.funcs = #[]) (hv : s.values = []) (hy : s.symbols = [])
    (hp : s.prototypes = []) (hl : s.lowered = []) :
    ∃ w : World, w.state = (s.declare f).setBody { fn := s.module.funcs.size } ∧
      Sound c F w.state := by
  have hz : s.module.funcs.size = 0 := by rw [hm]; rfl
  have empty : ∀ x, x ∉ s.values := by
    intro x hx
    rw [hv] at hx
    cases hx
  have books : Bookkeeping c F (fun _ => True) (s.declare f)
      ((s.declare f).setBody { fn := s.module.funcs.size }) :=
    .of_funcs_eq (ledger_init hf hz hy hp hl) rfl rfl rfl rfl
  have funcs : (s.declare f).module.funcs.toList = (#[] : Array Ir.Function).toList ++ [f] := by
    rw [State.declare, hm]
    rfl
  refine ⟨⟨(s.declare f).setBody { fn := s.module.funcs.size }, fun _ _ => False,
    .start s.module.funcs.size none .missing, fun x hx => absurd hx (empty x), fun l hl => ?_,
    fun loop hl => absurd hl List.not_mem_nil⟩, rfl, books.ledger, .inl hz,
    fun x hx => absurd hx (empty x), attested_append (by simp) funcs (by simpa using hb)⟩
  cases hl
  exact ⟨Nat.one_pos, Nat.lt_succ_self 1⟩

/-- Lowering a body certifies its function, and leaves the world around it as it was. -/
theorem carries_fillBody {w : World} (hd : F h body) {step : Lower Unit} {R : Reading}
    (hreal : Realizes step R) (htracks : Always (Tracks c F fun _ => True) step)
    (hstep : ∀ w, Carries c F w step fun _ _ => True) :
    Carries c F w (fillBody c h body step) fun _ _ => True := by
  intro S u s' hf
  have p := (fillBody_books hd hreal htracks hf S.ledger).1
  by_cases henter : h.hasBody body = true ∧ h.Active c
  · obtain ⟨hb, hdecl, params, result, htype⟩ := henter
    obtain ⟨id, site, types, exported, s₁, trace, hproto, -, hnew, hs, rfl⟩ :=
      fillBody_enters hb hdecl htype hf
    have ho : Owns F w.state h id := ⟨⟨body, hd, hb⟩, hproto⟩
    have fresh := S.ledger.not_begun ho hnew
    obtain ⟨w₀, hw₀, S₀, begun⟩ := World.exists_begin S ho hnew exported result
    rw [← hw₀] at hs
    have steps : Carries c F w₀
        (bodySteps c id site ((h.params.map Prod.fst).zip types) step) fun _ _ => True :=
      .bind' (carries_storeParams id site _ 0 w₀) fun w₁ _ _ _ =>
        .bind' (hstep w₁) fun w₂ _ _ _ => carries_closeBody
    obtain ⟨w₁, rfl, f₁, -⟩ := steps S₀ _ _ hs
    -- What was bound inside is no slot of a body that had been begun outside.
    have foreign : ∀ x ∈ w₁.state.values, x ∈ w.state.values ∨
        ∀ fn k t, x.2 = .computed fn k t → ¬Begun F w.state fn := by
      intro x hx
      rcases f₁.fresh x hx with hx | hnew
      · rw [hw₀] at hx
        exact .inl hx
      · refine .inr fun fn k t he hbegun => ?_
        rcases hnew fn k t he with hfn | hnot
        · have hid : w₀.body.fn = id := by rw [World.body, hw₀]; rfl
          exact fresh ((hfn.trans hid) ▸ hbegun)
        · exact hnot (begun fn hbegun)
    have bound : ∀ x ∈ w₁.state.values, x.2.Sourced w.body.fn w.body.Rooted := by
      intro x hx
      rcases foreign x hx with hx | hx
      · exact w.bound x hx
      · exact fun k t he => absurd S.current (hx _ k t he)
    have p₁ : Bookkeeping c F (fun _ => True) w₁.state
        { w₁.state.install w.state.body with trace } := install_books f₁.sound.ledger _ _
    have sound : Sound c F { w₁.state.install w.state.body with trace } :=
      ⟨p.ledger, S.current.mono p,
        fun x hx fn k t he => (f₁.sound.slots x hx fn k t he).mono p₁,
        attested_modify f₁.sound.funcs fun _ =>
          .inr (.inr ⟨w₁.known, w₁.body, w₁.certified, rfl, rfl⟩)⟩
    refine ⟨⟨{ w₁.state.install w.state.body with trace }, w.known, w.certified, bound, w.cursor,
      w.loops⟩, rfl, ⟨rfl, Nat.le_refl _, .refl _ _, p, fun x hx => ?_, sound⟩, trivial⟩
    exact (foreign x hx).imp_right fun hx fn k t he => .inr (hx fn k t he)
  · rw [fillBody_skips henter hf]
    exact ⟨w, rfl, .refl S, trivial⟩

/-! ## Statements -/

theorem carries_runEntry {w : World} (funcs : List (FuncHead × Block)) :
    Carries c F w (runEntry c funcs) fun _ _ => True := by
  refine .steady_bind (steady_entryFunc c funcs) fun w₁ found _ => ?_
  split
  · exact .pure' trivial
  · refine .get_bind (.ite' (.of_supplies (.discard' (supplies_callAt .cursor ?_ ?_)))
      (.reject' _ _))
    · exact .of_constant rfl
    · simp

section
variable (ident : F.Identified)
include ident

theorem carries_funcDecl {w : World} (hd : F h body)
    (htracks : Always (Tracks c F fun _ => True) (blockStatements c body))
    (hstep : ∀ w, Carries c F w (blockStatements c body) fun _ _ => True) :
    Carries c F w (statement c (.funcDecl h body)) fun _ _ => True := by
  have fill : ∀ w, Carries c F w (fillBody c h body (blockStatements c body)) fun _ _ => True :=
    fun w => carries_fillBody hd (realizes_blockStatements c body) htracks hstep
  unfold statement
  refine .whenLive' (.get_bind (.ite' ?_ (fill w)))
  exact .bind' (carries_enterPrototype ident hd) fun w₁ _ _ _ => fill w₁

theorem carries_emitLeading {inSpace : Bool} {decls : List Node}
    (hF : ∀ n ∈ decls, ∀ h body, n.unwrap = .funcDecl h body → F h body) (w : World) :
    Carries c F w (emitLeading c (emissionOrder c.analysis inSpace decls)) fun _ _ => True := by
  refine .bind' (.forM' (fun p hp w => ?_) w) fun w₁ _ _ _ => ?_
  · obtain ⟨n, hn, he⟩ := mem_funcs_emissionOrder.mp hp
    exact carries_enterPrototype ident (hF n hn _ _ he)
  · exact .bind' (.forM' (fun d _ w => carries_defineVariable d) w₁) fun w₂ _ _ _ =>
      .forM' (fun d _ w => carries_defineVariable d) w₂

set_option linter.unusedSectionVars false in
mutual

theorem carries_statement (n : Node) (hn : ∀ m ∈ n.parts, Settled c F (fun _ => True) m) :
    ∀ w, Carries c F w (statement c n) fun _ _ => True := by
  intro w
  match n with
  | .labelled _ _ x =>
    unfold Node.parts at hn
    unfold statement
    exact carries_statement x (List.forall_mem_cons.mp hn).2 w
  | .expr e =>
    unfold statement
    exact .whenLive' (.of_supplies (.discard' (supplies_valueOf e w)))
  | .varDecl d =>
    unfold statement
    exact .whenLive' (carries_defineVariable d)
  | .funcDecl head body =>
    unfold Node.parts at hn
    obtain ⟨here, inside⟩ := List.forall_mem_cons.mp hn
    exact carries_funcDecl ident (here.function head body rfl)
      ((handles_tracks ident).blockStatements body inside) (carries_blockStatements body inside)
  | .structDecl d =>
    unfold statement
    exact .whenLive' (.of_supplies
      (.of_steady (steady_enterStruct c d) fun _ _ _ _ _ => trivial))
  | .space site name decls =>
    unfold Node.parts at hn
    have inside := (List.forall_mem_cons.mp hn).2
    unfold statement
    refine .whenLive' (.steady_bind (steady_report _) fun w₁ _ _ => ?_)
    exact .bind' (carries_emitLeading ident (Settled.definition inside) w₁) fun w₂ _ _ _ =>
      carries_statementsWhere decls inside _ w₂
  | .block b =>
    unfold Node.parts at hn
    unfold statement
    exact .whenLive' (carries_blockStatements b (List.forall_mem_cons.mp hn).2 w)
  | .ifStmt _ cond yes elifs no =>
    unfold Node.parts at hn
    simp only [List.forall_mem_cons, List.forall_mem_append] at hn
    obtain ⟨-, hyes, helifs, hno⟩ := hn
    unfold statement
    refine .whenLive' (.ite' ?_ ?_)
    · exact .breach_bind
    refine .supplies_bind (supplies_openBlock _) fun w₁ done _ hd => ?_
    refine .bind' (carries_conditionalArm (carries_blockStatements yes hyes) cond _ hd.1)
      fun w₂ _ f₂ _ => ?_
    refine .bind' (carries_elifArms no elifs helifs w₂ (f₂.plain hd.1)) fun w₃ _ f₃ _ => ?_
    have hdone := f₃.plain (f₂.plain hd.1)
    refine .ite' ?_ ?_
    · exact .bind' (R := fun _ _ => True) (.pure' trivial) fun w₄ _ f₄ _ =>
        carries_closeConditional (f₄.plain hdone).1 hd.2 _
    · refine .bind' (carries_blockStatements no hno w₃) fun w₄ _ f₄ _ => ?_
      refine .supplies_bind (supplies_branchIfLive (f₄.plain hdone)) fun w₅ _ le₅ _ => ?_
      exact carries_closeConditional (le₅.plain (f₄.plain hdone)).1 hd.2 _
  | .forStmt _ init cond iter body =>
    unfold Node.parts at hn
    simp only [List.forall_mem_cons, List.forall_mem_append] at hn
    obtain ⟨-, hinit, hiter, hbody⟩ := hn
    unfold statement
    refine .whenLive' (.bind' (carries_statementsWhere init hinit _ w) fun w₁ _ _ _ => ?_)
    exact .whenLive' (carries_forLoop (carries_blockStatements body hbody) cond
      (carries_statementsWhere iter hiter _))
  | .whileStmt _ cond body =>
    unfold Node.parts at hn
    unfold statement
    exact .whenLive' (carries_whileLoop
      (carries_blockStatements body (List.forall_mem_cons.mp hn).2) cond)
  | .branch site token =>
    unfold statement
    exact .whenLive' (carries_jump site token)
  | .ret site result =>
    unfold statement
    exact .whenLive' (carries_leave site result)
  | .typeRef _ | .program _ _ | .file _ | .elif _ =>
    unfold statement misplaced
    refine .whenLive' ?_
    split
    · exact .reject' _ _
    · exact .breach' _

theorem carries_blockStatements (b : Block)
    (hb : ∀ m ∈ b.parts, Settled c F (fun _ => True) m) :
    ∀ w, Carries c F w (blockStatements c b) fun _ _ => True := by
  intro w
  match b with
  | .missing =>
    unfold blockStatements
    exact .breach' _
  | .mk _ stmts =>
    unfold Block.parts at hb
    unfold blockStatements
    exact carries_statementsWhere stmts hb _ w

theorem carries_statementsWhere (ns : List Node)
    (hn : ∀ m ∈ Node.partsAll ns, Settled c F (fun _ => True) m) (keep : Node → Bool) :
    ∀ w, Carries c F w (statementsWhere c keep ns) fun _ _ => True := by
  intro w
  match ns with
  | [] =>
    unfold statementsWhere
    exact .pure' trivial
  | n :: ns =>
    unfold Node.partsAll at hn
    obtain ⟨here, later⟩ := List.forall_mem_append.mp hn
    unfold statementsWhere
    refine .ite' ?_ (carries_statementsWhere ns later keep w)
    exact .bind' (carries_statement n here w) fun w₁ _ _ _ =>
      carries_statementsWhere ns later keep w₁

theorem carries_elifArms {done : Ir.Label} (no : Block) (es : List Elif)
    (he : ∀ m ∈ Elif.partsAll es, Settled c F (fun _ => True) m) :
    ∀ w, w.body.Plain w.known done → Carries c F w (elifArms c done no es) fun _ _ => True := by
  intro w hd
  match es with
  | [] =>
    unfold elifArms
    exact .pure' trivial
  | .missing :: _ =>
    unfold elifArms
    exact .breach' _
  | .mk _ cond body :: rest =>
    unfold Elif.partsAll Elif.parts at he
    obtain ⟨here, later⟩ := List.forall_mem_append.mp he
    unfold elifArms
    refine .bind' (carries_conditionalArm (carries_blockStatements body here) cond _ hd)
      fun w₁ _ f₁ _ => ?_
    exact .bind' (carries_elifArms no rest later w₁ (f₁.plain hd)) fun _ _ _ _ => .pure' trivial

end

/-! ## Units -/

theorem carries_topLevel {w : World} {decls : List Node}
    (hn : ∀ m ∈ Node.partsAll decls, Settled c F (fun _ => True) m) :
    Carries c F w (topLevel c decls) fun _ _ => True := by
  refine .bind' (carries_emitLeading ident (Settled.definition hn) w) fun w₁ _ _ _ => ?_
  refine .bind' (carries_statementsWhere ident decls hn _ w₁) fun w₂ _ _ _ => ?_
  refine .get_bind (.ite' .reject_bind ?_)
  refine .bind' (carries_runEntry _) fun w₃ _ _ _ => ?_
  refine .of_supplies (supplies_terminate ?_ fun q hq => nomatch hq)
  intro v hv
  split at hv
  · rw [List.mem_singleton.mp hv]
    exact .of_constant rfl
  · cases hv

theorem wholeUnit_attested {decls : List Node} {u : Unit}
    (hn : ∀ m ∈ Node.partsAll decls, Settled c F (fun _ => True) m)
    (hm : s.module.funcs = #[]) (hv : s.values = []) (hy : s.symbols = [])
    (hp : s.prototypes = []) (hl : s.lowered = []) (hr : wholeUnit c decls s = .ok u s') :
    ∀ i f, s'.module.funcs[i]? = some f → Attested i f.blocks := by
  obtain ⟨trace, s₁, h₁, rfl⟩ := wholeUnit_eq_ok hr
  obtain ⟨w₀, hw₀, S₀⟩ := World.exists_init (c := c) (F := F) (s := { s with trace })
    (initFunction_name c.config) (initFunction_blocks c.config) hm hv hy hp hl
  rw [← hw₀] at h₁
  obtain ⟨w₁, rfl, f₁, -⟩ := carries_topLevel ident hn S₀ _ _ h₁
  exact attested_modify f₁.sound.funcs fun _ =>
    .inr (.inr ⟨w₁.known, w₁.body, w₁.certified, rfl, rfl⟩)

end

end Lower

/-- In a lowered module every value is computed before it is used: on no way through the blocks of a
    function, from the stack slots on, is a value used that was not computed on the way. -/
theorem lowerUnit_dominated (analysis : Analysis) (config : Config) (decls : List Node)
    (m : Ir.Module) (ident : (definitionsOf decls).Identified)
    (h : (lowerUnit analysis config decls).result = .ok m) :
    ∀ i f, m.funcs[i]? = some f → Ir.Dominated i f.blocks := by
  intro i f hf
  obtain ⟨s, hs, rfl⟩ := lowerUnit_eq_ok h
  have settled : ∀ n ∈ Node.partsAll decls,
      Settled ⟨analysis, config⟩ (definitionsOf decls) (fun _ => True) n := fun n hn =>
    ⟨fun h body he => by rwa [definitionsOf, ← he], fun _ _ _ _ => .inr fun _ => trivial⟩
  exact (wholeUnit_attested ident settled rfl rfl rfl rfl rfl hs i f hf).dominated

theorem lowerUnit_dominated_shortCircuitLoop :
    (definitionsOf shortCircuitLoop).Identified ∧
      ∃ m : Ir.Module, (lowerUnit default {} shortCircuitLoop).result = .ok m ∧
        ∃ f, m.funcs[0]? = some f ∧ f.blocks ≠ [] ∧ Ir.Dominated 0 f.blocks := by
  have identified : (definitionsOf shortCircuitLoop).Identified := by
    intro h body h' body' hd
    simp [definitionsOf, shortCircuitLoop, Node.partsAll, Node.parts, Block.parts] at hd
  exact ⟨identified, _, rfl, _, rfl, List.cons_ne_nil _ _,
    lowerUnit_dominated default {} shortCircuitLoop _ identified rfl 0 _ rfl⟩

end TreeLowering
