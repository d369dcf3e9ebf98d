import TreeLowering.Proofs.Expression
import TreeLowering.Proofs.Finished
import TreeLowering.Proofs.Reading

/-!
What lowering statements does to the state: it builds the flow that they stand for
(`realizes_statement`), and it finishes the functions among them. Nothing else happens to the
functions of the module but new declarations.
-/
namespace TreeLowering

/-! ## Functions of the module -/

/-- Every function is a declaration, has the blocks it had, or was finished. -/
def Advances (s s' : State) : Prop :=
  ∀ i f', s'.module.funcs[i]? = some f' → f'.blocks = [] ∨
    (∃ f, s.module.funcs[i]? = some f ∧ f'.blocks = f.blocks) ∨ Finished i f'.blocks

namespace Advances

theorem of_funcs_eq {s s' : State} (h : s'.module.funcs = s.module.funcs) : Advances s s' :=
  fun _ f' hf => .inr (.inl ⟨f', h ▸ hf, rfl⟩)

theorem trans {s₁ s₂ s₃ : State} (h₁ : Advances s₁ s₂) (h₂ : Advances s₂ s₃) :
    Advances s₁ s₃ := by
  intro i f hf
  rcases h₂ i f hf with h | ⟨f₂, hf₂, he⟩ | h
  · exact .inl h
  · rw [he]
    exact h₁ i f₂ hf₂
  · exact .inr (.inr h)

theorem of_setBody {s s' : State} {b : Body} (h : Advances (s.setBody b) s') : Advances s s' := h

theorem setBody {s s' : State} (h : Advances s s') (b : Body) : Advances s (s'.setBody b) := h

theorem of_calm {s s' : State} (h : Calm s s') : Advances s s' := by
  obtain ⟨more, he, hm⟩ := h.funcs
  intro i f hf
  rw [← Array.getElem?_toList, he, List.getElem?_append] at hf
  split at hf
  · exact .inr (.inl ⟨f, by rwa [← Array.getElem?_toList], rfl⟩)
  · exact .inl (hm f (List.mem_of_getElem? hf))

/-- A change of a function that leaves its blocks. -/
theorem modify {s s' : State} {id : Ir.FuncId} {g : Ir.Function → Ir.Function}
    (h : s'.module.funcs = s.module.funcs.modify id g)
    (hg : ∀ f, (g f).blocks = f.blocks ∨ Finished id (g f).blocks) : Advances s s' := by
  intro i f hf
  rw [h, Array.getElem?_modify] at hf
  split at hf
  · rename_i hi
    subst hi
    obtain ⟨f₀, hf₀, rfl⟩ := Option.map_eq_some_iff.mp hf
    rcases hg f₀ with hb | hb
    · exact .inr (.inl ⟨f₀, hf₀, hb⟩)
    · exact .inr (.inr hb)
  · exact .inr (.inl ⟨f, hf, rfl⟩)

end Advances

namespace Lower

variable {α β : Type}

/-! ## Steps that lay out code -/

/-- Functions advance, and the body is left alone. -/
def Aside (s s' : State) : Prop := Advances s s' ∧ s'.body = s.body

instance : Lasting Aside where
  refl _ := ⟨.of_funcs_eq rfl, rfl⟩
  trans h₁ h₂ := ⟨h₁.1.trans h₂.1, h₂.2.trans h₁.2⟩

/-- The step advances the functions and leaves the body alone. -/
def Declares (m : Lower α) : Prop := Always Aside m

theorem Declares.of_steady {m : Lower α} (h : Steady m) : Declares m :=
  h.mono fun hs => ⟨.of_calm hs.2, hs.1⟩

/-- Functions advance, and the body grows by code. -/
def Onward (s s' : State) : Prop := Advances s s' ∧ ∃ code, GrowsBy s.body code s'.body

instance : Lasting Onward where
  refl s := ⟨.of_funcs_eq rfl, .nil, .nil _⟩
  trans h₁ h₂ := by
    obtain ⟨a₁, c₁, g₁⟩ := h₁
    obtain ⟨a₂, c₂, g₂⟩ := h₂
    exact ⟨a₁.trans a₂, .seq c₁ c₂, .seq g₁ g₂⟩

/-- The step advances the functions and lays out code. -/
def Lays (m : Lower α) : Prop := Always Onward m

namespace Lays

theorem of_emits {m : Lower α} {R : Ir.FuncId → α → Prop}
    (h : ∀ fn, Emits (Policy.free fn) m (R fn)) : Lays m := by
  intro s a s' hm
  obtain ⟨-, calm, code, hg⟩ := h s.body.fn s a s' hm rfl (Policy.free_covers _ _)
  exact ⟨.of_calm calm, code, hg⟩

theorem of_declares {m : Lower α} (h : Declares m) : Lays m :=
  h.mono fun hs => ⟨hs.1, .nil, hs.2 ▸ .nil _⟩

theorem of_steady {m : Lower α} (h : Steady m) : Lays m := of_declares (.of_steady h)

end Lays

theorem admits_free (fn : Ir.FuncId) (c : Context) (e : Expr) : (Policy.free fn).Admits c e :=
  Policy.admits_of_names e (Expr.names_of_forall (fun _ _ _ _ => trivial) e) fun _ _ _ _ => trivial

theorem lays_valueOf (c : Context) (e : Expr) : Lays (valueOf c e) :=
  .of_emits fun fn => emits_valueOf e (admits_free fn c e)

theorem lays_placeOf (c : Context) (e : Expr) : Lays (placeOf c e) :=
  .of_emits fun fn => emits_placeOf e (admits_free fn c e)

theorem lays_valueAs (c : Context) (e : Expr) (t : Ty) : Lays (valueAs c e t) :=
  .of_emits fun fn => emits_valueAs e t (admits_free fn c e)

theorem lays_condition (c : Context) (e : Expr) : Lays (condition c e) :=
  .of_emits fun fn => emits_condition e (admits_free fn c e)

theorem lays_stackSlot (type : Ir.Ty) : Lays (stackSlot type none) :=
  .of_emits fun _ => emits_stackSlot _ (by simp)

theorem lays_storeAt (spot : Place) (value place : Ir.Value) : Lays (storeAt spot value place) :=
  .of_emits fun _ => emits_storeAt spot trivial trivial

theorem declares_bindVariable (v : ObjectId) (value : Ir.Value) :
    Declares (bindVariable v value) :=
  .modify' fun _ => ⟨.of_funcs_eq rfl, rfl⟩

theorem lays_bindVariable (v : ObjectId) (value : Ir.Value) : Lays (bindVariable v value) :=
  Lays.of_declares (declares_bindVariable v value)

/-! ## Definitions -/

theorem lays_defineGlobal (c : Context) (d : VarDecl) (v : ObjectId) (type : Ir.Ty) :
    Lays (defineGlobal c d v type) := by
  refine .bind' (Lays.of_steady (steady_addGlobal _ _)) fun g => ?_
  refine .ite' (lays_bindVariable _ _) ?_
  refine .bind' (lays_valueAs c _ _) fun init => ?_
  exact .ite' (.bind' (Lays.of_steady (steady_modifyGlobal _ _)) fun _ => lays_bindVariable _ _)
    (.bind' (lays_storeAt _ _ _) fun _ => lays_bindVariable _ _)

theorem lays_defineLocal (c : Context) (d : VarDecl) (v : ObjectId) (type : Ir.Ty) :
    Lays (defineLocal c d v type) := by
  have rest : ∀ init, Lays (do
      let slot ← stackSlot type none
      store init slot
      bindVariable v slot) :=
    fun init => .bind' (lays_stackSlot _) fun _ => .bind' (lays_storeAt _ _ _) fun _ =>
      lays_bindVariable _ _
  exact .ite' (.bind' (.pure' _) rest) (.bind' (lays_valueAs c _ _) rest)

theorem lays_defineVariable (c : Context) (d : VarDecl) : Lays (defineVariable c d) := by
  refine .bind' (Lays.of_steady (steady_variableAt c _ _)) fun v => .ite' (.reject' _ _) ?_
  refine .bind' (Lays.of_steady (steady_instructionType c _)) fun type => ?_
  refine .ite' (lays_defineGlobal c d v type) ?_
  exact .bind' (Lays.of_steady (steady_isLocal c _)) fun _ =>
    .ite' (lays_defineLocal c d v type) (lays_defineGlobal c d v type)

theorem lays_storeParams (c : Context) (fn : Ir.FuncId) (site : Site) :
    ∀ (i : Nat) (params : List (String × Ir.Ty)), Lays (storeParams c fn site i params)
  | _, [] => .pure' _
  | i, (_, _) :: rest =>
    .bind' (Lays.of_steady (steady_variableAt c _ _)) fun _ => .bind' (lays_stackSlot _) fun _ =>
      .bind' (lays_storeAt _ _ _) fun _ => .bind' (lays_bindVariable _ _) fun _ =>
        lays_storeParams c fn site (i + 1) rest

theorem steady_signatureOf (c : Context) (h : FuncHead) : Steady (signatureOf c h) := by
  refine .bind' (steady_knownType _ _ _) fun t => ?_
  split
  · exact .pure' _
  · exact .reject' _ _

theorem declares_notePrototype (h : FuncHead) (f : Option Ir.FuncId) :
    Declares (notePrototype h f) :=
  .modify' fun _ => ⟨.of_funcs_eq rfl, rfl⟩

/-- A new function is a declaration until it is finished. -/
theorem declares_addSymbol {f : Ir.Function} (hf : f.blocks = []) : Declares (addSymbol f) := by
  intro s id s' h
  cases h
  refine ⟨fun i f' hi => ?_, rfl⟩
  change (s.module.funcs.push f)[i]? = some f' at hi
  rw [Array.getElem?_push] at hi
  split at hi
  · cases hi
    exact .inl hf
  · exact .inr (.inl ⟨f', hi, rfl⟩)

theorem declares_declareSymbol (h : FuncHead) (hasBody : Bool) (result : Ir.Ty)
    (params : List Ir.Ty) : Declares (declareSymbol h hasBody result params) := by
  refine .get_bind fun s => ?_
  dsimp only
  split
  · exact .ite' (.reject' _ _) (declares_addSymbol rfl)
  · exact .ite' (.reject' _ _) (.pure' _)

theorem declares_report (e : Event) : Declares (report e) := .of_steady (steady_report e)

theorem declares_declarePrototype (c : Context) (h : FuncHead) (body : Block) (v : ObjectId)
    (sig : Signature) : Declares (declarePrototype c h body v sig) := by
  refine .ite' .reject_bind ?_
  refine .bind' (Declares.of_steady (steady_instructionSignature c _ _)) fun r => ?_
  refine .bind' (declares_declareSymbol _ _ _ _) fun id => ?_
  refine .bind' (declares_notePrototype _ _) fun _ => .get_bind fun s => ?_
  exact .bind' (declares_bindVariable _ _) fun _ => declares_report _

theorem declares_enterPrototype (c : Context) (h : FuncHead) (body : Block) :
    Declares (enterPrototype c h body) := by
  have declare := fun v sig => declares_declarePrototype c h body v sig
  refine .bind' (Declares.of_steady (steady_signatureOf c h)) fun sig => ?_
  refine .ite' (.bind' (declares_notePrototype _ _) fun _ => declares_report _) ?_
  refine .bind' (Declares.of_steady (steady_variableAt c _ _)) fun v => ?_
  refine .ite' (.ite' .reject_bind ?_) (declare v sig)
  exact .bind' (declares_report _) fun _ => declare v sig

theorem lays_emitLeading (c : Context) (b : EmissionOrder) : Lays (emitLeading c b) :=
  .bind' (.forM' (fun _ => Lays.of_declares (declares_enterPrototype c _ _)) _) fun _ =>
    .bind' (.forM' (lays_defineVariable c) _) fun _ => .forM' (lays_defineVariable c) _

theorem lays_enterSpace (c : Context) (name : String) (decls : List Node) :
    Lays (enterSpace c name decls) :=
  .bind' (Lays.of_declares (declares_report _)) fun _ => lays_emitLeading c _

/-! ## Conditions -/

/-- The truth of a bit is the bit. -/
theorem truth_bit {e : Expr} {fn : Ir.FuncId} {id : Nat} :
    truth e (.computed fn id (.int 1)) = pure (.computed fn id (.int 1)) := rfl

theorem condition_leaf (c : Context) (e : Expr) {s s' : State} {v : Ir.Value}
    (h : condition c e s = .ok v s') :
    Calm s s' ∧ ∃ code, e.ReadsLeaf c s (.leaf code v) s' := by
  have emits := emits_condition (p := Policy.free s.body.fn) e (admits_free _ c e)
  obtain ⟨-, calm, code, hg⟩ := emits s v s' h rfl (Policy.free_covers _ _)
  exact ⟨calm, code, code, v, rfl, h, hg⟩

theorem condition_logical {c : Context} {site : Site} {op : Coded BinaryOp} {x y : Expr}
    {s s' : State} {v : Ir.Value} (hop : BinaryOp.codedIsLogical op = true)
    (h : condition c (.binary site op x y) s = .ok v s') :
    shortCircuit (op = .known .condAnd) x y (valueOf c x) (valueOf c y) s = .ok v s' := by
  obtain ⟨w, s₁, hw, ht⟩ := bind_eq_ok.mp h
  unfold valueOf binaryValue at hw
  rw [if_pos hop] at hw
  obtain ⟨_, _, _, _, _, _, _, _, _, _, hbit, _⟩ := shortCircuit_eq_ok hw
  -- A short circuit gives a bit, which is its own truth.
  rw [hbit, truth_bit, pure_eq_ok] at ht
  obtain ⟨rfl, rfl⟩ := ht
  rwa [hbit] at hw

theorem condition_not {c : Context} {site : Site} {x : Expr} {s s' : State} {v : Ir.Value}
    (h : condition c (.unary site (.known .not) x) s = .ok v s') :
    ∃ xt s₁, condition c x s = .ok xt s₁ ∧ s₁.body.cursor.isSome ∧
      v = .computed s₁.body.fn s₁.body.lineCount (.int 1) ∧
      s' = s₁.setBody (s₁.body.emit (.arith .xor xt .bitTrue) (.int 1)) := by
  obtain ⟨w, s₂, hw, ht⟩ := bind_eq_ok.mp h
  unfold valueOf unaryValue at hw
  simp only at hw
  -- What the operand is negated from is its truth, so a condition again.
  rw [← bind_assoc, bind_eq_ok] at hw
  obtain ⟨xt, s₁, hx, hw⟩ := hw
  obtain ⟨hl, rfl, rfl⟩ := emitAt_cursor_eq_ok.mp hw
  obtain ⟨rfl, rfl⟩ := pure_eq_ok.mp ht
  exact ⟨xt, s₁, hx, hl, rfl, rfl⟩

/-- A condition is lowered to what it stands for. -/
theorem condition_reads (c : Context) : ∀ (e : Expr) {s s' : State} {v : Ir.Value},
    condition c e s = .ok v s' → s.body.cursor.isSome →
    Calm s s' ∧ ∃ k, e.ReadsCond c s k s' ∧ k.value s.body.fn = v
  | .binary site op x y, s, s', v, h, hl => by
    by_cases hop : BinaryOp.codedIsLogical op = true
    · obtain ⟨xt, s₁, start, yt, s₂, finish, hx, hs, hy, hf, rfl, rfl⟩ :=
        shortCircuit_eq_ok (condition_logical hop h)
      obtain ⟨calm₁, kx, rx, rfl⟩ := condition_reads c x hx hl
      obtain ⟨calm₂, ky, ry, vy⟩ := condition_reads c y hy rfl
      -- Both operands are conditions of the same function.
      have hfn : (s₁.body.fork (op = .known .condAnd) (kx.value s.body.fn)).fn = s.body.fn :=
        (Body.Kept.fork _ _ _).fn.trans (Expr.ReadsCond.grows c x rx hl).kept.fn
      have hfn₂ : s₂.body.fn = s.body.fn := (Expr.ReadsCond.grows c y ry rfl).kept.fn.trans hfn
      rw [State.setBody_body, hfn] at vy
      have calm : Calm s₁ s₂ := (Calm.setBody s₁ _).trans calm₂
      refine ⟨(calm₁.trans calm).trans (.setBody _ _), .both (op = .known .condAnd) kx ky
        ⟨s₂.body.lineCount, Body.joined (op = .known .condAnd) start finish yt, .int 1⟩, ?_, ?_⟩
      · unfold Expr.ReadsCond
        rw [if_pos hop]
        exact ⟨_, kx, ky, _, s₁, s₂, rfl, rfl, rx, ry, start, finish, hs, hf, by rw [vy], rfl⟩
      · simp only [Cond.value, Cond.bitOf, hfn₂]
    · obtain ⟨calm, code, hr⟩ := condition_leaf c _ h
      refine ⟨calm, .leaf code v, ?_, rfl⟩
      unfold Expr.ReadsCond
      rwa [if_neg hop]
  | .unary site op x, s, s', v, h, hl => by
    by_cases hop : op = .known .not
    · subst hop
      obtain ⟨xt, s₁, hx, -, rfl, rfl⟩ := condition_not h
      obtain ⟨calm, kx, rx, rfl⟩ := condition_reads c x hx hl
      refine ⟨calm.trans (.setBody _ _), .not kx s₁.body.lineCount, ?_, ?_⟩
      · unfold Expr.ReadsCond
        rw [if_pos rfl]
        exact ⟨kx, s₁, rfl, rx, rfl⟩
      · simp only [Cond.value, Cond.bitOf, (Expr.ReadsCond.grows c x rx hl).kept.fn]
    · obtain ⟨calm, code, hr⟩ := condition_leaf c _ h
      refine ⟨calm, .leaf code v, ?_, rfl⟩
      unfold Expr.ReadsCond
      rwa [if_neg hop]
  | .absent, _, _, v, h, _ | .varRef _ _ _, _, _, v, h, _ | .structLit _ _ _, _, _, v, h, _
  | .call _ _ _, _, _, v, h, _ | .arrayLit _ _, _, _, v, h, _ | .arrayAlloc _ _ _, _, _, v, h, _
  | .selector _ _ _ _, _, _, v, h, _ | .index _ _ _, _, _, v, h, _ | .assign _ _ _, _, _, v, h, _
  | .cast _ _ _, _, _, v, h, _ | .intLit _ _, _, _, v, h, _ | .floatLit _ _, _, _, v, h, _
  | .boolLit _ _, _, _, v, h, _ | .stringLit _ _, _, _, v, h, _ => by
    obtain ⟨calm, code, hr⟩ := condition_leaf c _ h
    exact ⟨calm, .leaf code v, by unfold Expr.ReadsCond; exact hr, rfl⟩

/-! ## Steps that build a flow -/

/-- The step does nothing where there is no place for instructions; elsewhere it advances the
    functions and is read as some flow. Whatever flow it is read as, it has built. -/
structure Realizes (m : Lower Unit) (R : Reading) : Prop where
  dead : ∀ s u s', m s = .ok u s' → s.body.cursor = none → s' = s
  live : ∀ s u s', m s = .ok u s' → s.body.cursor.isSome → Advances s s' ∧ ∃ f, R s f s'
  built : R.Built none

namespace Realizes

variable {m : Lower Unit} {R : Reading}

theorem of_live (hb : R.Built none)
    (h : ∀ s u s', m s = .ok u s' → s.body.cursor.isSome → Advances s s' ∧ ∃ f, R s f s') :
    Realizes (whenLive m) R where
  dead s u s' hm hc := by
    rcases whenLive_eq_ok.mp hm with ⟨hl, -⟩ | ⟨-, rfl⟩
    · rw [hc] at hl
      cases hl
    · rfl
  live s u s' hm hl := by
    rcases whenLive_eq_ok.mp hm with ⟨-, hm⟩ | ⟨hc, -⟩
    · exact h s u s' hm hl
    · rw [hc] at hl
      cases hl
  built := hb

/-- The flow that a step is read as, with what the step built. -/
theorem builds (h : Realizes m R) {s s' : State} {u : Unit} (hm : m s = .ok u s')
    (hl : s.body.cursor.isSome) :
    Advances s s' ∧ ∃ f, R s f s' ∧ Builds none s.body f (!f.diverts) s'.body := by
  obtain ⟨ha, f, hf⟩ := h.live s u s' hm hl
  exact ⟨ha, f, hf, h.built s f s' hf hl⟩

/-- Code is a flow. -/
theorem of_lays (h : Lays m) :
    Realizes (whenLive m) fun s f s' => ∃ code, f = .code code ∧ LaysCode m s () code s' := by
  refine .of_live ?_ fun s u s' hm hl => ?_
  · rintro s f s' ⟨code, rfl, -, hg⟩ hl
    exact .code hl hg
  · obtain ⟨ha, code, hg⟩ := h s u s' hm
    exact ⟨ha, .code code, code, rfl, hm, hg⟩

/-- One flow after another; the second is not built if the first diverts. -/
theorem seq {m' : Lower Unit} {R' : Reading} (h : Realizes m R) (h' : Realizes m' R') :
    Realizes (do m; m') (.follows R R') where
  dead s u s' hm hc := by
    obtain ⟨_, s₁, h₁, h₂⟩ := bind_eq_ok.mp hm
    cases h.dead s _ s₁ h₁ hc
    exact h'.dead _ _ _ h₂ hc
  live s u s' hm hl := by
    obtain ⟨_, s₁, h₁, h₂⟩ := bind_eq_ok.mp hm
    obtain ⟨a₁, f, hf, b₁⟩ := h.builds h₁ hl
    have live := b₁.cursor_isSome
    cases hd : f.diverts with
    | false =>
      rw [hd] at live
      obtain ⟨a₂, g, hg⟩ := h'.live s₁ u s' h₂ live
      exact ⟨a₁.trans a₂, .seq f g, f, s₁, hf, by simpa [hd] using hg⟩
    | true =>
      -- The first flow diverts, and nothing comes after it.
      have hc : s₁.body.cursor = none := by simpa [hd] using live
      cases h'.dead s₁ u s' h₂ hc
      exact ⟨a₁, f, f, _, hf, by simp [hd]⟩
  built := h.built.follows h'.built

end Realizes

theorem realizes_pure : Realizes (pure ()) .skips where
  dead s u s' h _ := (pure_eq_ok.mp h).2.symm
  live s u s' h _ := by
    obtain ⟨-, rfl⟩ := pure_eq_ok.mp h
    exact ⟨.of_funcs_eq rfl, .skip, rfl, rfl⟩
  built := .skips

/-- A step that leaves the body alone is skipped over. -/
theorem Realizes.of_body_eq {m : Lower Unit}
    (h : ∀ s u s', m s = .ok u s' → Advances s s' ∧ s'.body = s.body) :
    Realizes (whenLive m) fun s f s' => f = .skip ∧ whenLive m s = .ok () s' := by
  refine .of_live ?_ fun s u s' hm hl => ?_
  · rintro s f s' ⟨rfl, hm⟩ hl
    rcases whenLive_eq_ok.mp hm with ⟨-, hm⟩ | ⟨-, rfl⟩
    · rw [(h s () s' hm).2]
      exact .skip hl
    · exact .skip hl
  · exact ⟨(h s u s' hm).1, .skip, rfl, whenLive_eq_ok.mpr (.inl ⟨hl, hm⟩)⟩

/-! ## Jumps -/

theorem realizes_jump (c : Context) (site : Site) (token : Token) :
    Realizes (whenLive (jump site token)) (Node.Reads c (.branch site token)) := by
  unfold Node.Reads
  refine .of_live ?_ fun s u s' h hl => ?_
  · rintro s f s' ⟨rfl, loop, rest, hloops, rfl⟩ hl
    exact .jump _ hl hloops
  unfold jump at h
  simp only [get_bind_apply] at h
  cases hloops : s.body.loops with
  | nil => simp [hloops] at h
  | cons loop rest =>
    simp only [hloops, bind_eq_ok, terminate_eq_ok, moveNowhere_apply] at h
    obtain ⟨_, _, ⟨-, rfl⟩, h⟩ := h
    cases h
    exact ⟨.of_funcs_eq rfl, _, rfl, loop, rest, rfl, rfl⟩

theorem realizes_leave (c : Context) (site : Site) (result : Expr) :
    Realizes (whenLive (leave c site result)) (Node.Reads c (.ret site result)) := by
  unfold Node.Reads
  refine .of_live ?_ fun s u s' h hl => ?_
  · intro s f s' h hl
    split at h
    · obtain ⟨rfl, rfl⟩ := h
      exact .ret none hl (.nil _)
    · obtain ⟨code, v, s₁, rfl, ⟨-, hg⟩, rfl⟩ := h
      exact .ret _ hl hg
  unfold leave at h
  simp only [get_bind_apply] at h
  cases hh : s.body.head with
  | none => simp [hh] at h
  | some head =>
    simp only [hh] at h
    by_cases ha : result.isAbsent = true
    · simp only [ha, if_true, ite_eq_ok, bind_eq_ok, terminate_eq_ok, reject_ne_ok,
        moveNowhere_apply, false_and, exists_false, and_false, or_false] at h
      obtain ⟨-, _, _, ⟨-, rfl⟩, h⟩ := h
      cases h
      refine ⟨.of_funcs_eq rfl, .ret .nil none, ?_⟩
      rw [if_pos ha]
      exact ⟨rfl, rfl⟩
    · simp only [ha, if_false, Bool.false_eq_true, ite_eq_ok, bind_eq_ok, terminate_eq_ok,
        reject_ne_ok, moveNowhere_apply, false_and, exists_false, and_false, false_or] at h
      obtain ⟨-, v, s₁, hv, _, _, ⟨-, rfl⟩, h⟩ := h
      cases h
      obtain ⟨adv, code, hg⟩ := lays_valueAs c result s.body.result s v s₁ hv
      refine ⟨adv.trans (.of_funcs_eq rfl), .ret code (some v), ?_⟩
      rw [if_neg ha]
      exact ⟨code, v, s₁, rfl, ⟨hv, hg⟩, rfl⟩

/-! ## Loops -/

theorem runLoop_reads {loop : Loop} {start : Ir.Label} {step : Lower Unit} {R : Reading}
    (h : Realizes step R) {s s' : State} {u : Unit} (hr : runLoop loop start step s = .ok u s') :
    Advances s s' ∧ ∃ f, R.inLoop loop start s f s' := by
  simp only [runLoop, modifyBody_bind_apply, moveTo_bind_apply, bind_eq_ok, discard_eq_ok,
    branchIfLive_eq_ok, modifyBody_apply] at hr
  obtain ⟨_, s₁, hs, _, _, ⟨_, -, rfl⟩, hr⟩ := hr
  cases hr
  obtain ⟨ha, f, hf⟩ := h.live _ _ _ hs rfl
  exact ⟨ha.trans (.of_funcs_eq rfl), f, s₁, hf, rfl⟩

theorem realizes_whileLoop (c : Context) (site : Site) (cond : Expr) {body : Block}
    (h : Realizes (blockStatements c body) (body.Reads c)) :
    Realizes (whenLive (whileLoop c cond (blockStatements c body)))
      (Node.Reads c (.whileStmt site cond body)) := by
  unfold Node.Reads
  refine .of_live (h.built.whileLoop c cond) fun s u s' hw hl => ?_
  simp only [whileLoop, openBlock_bind_apply, bind_eq_ok, terminate_eq_ok, moveTo_bind_apply,
    moveTo_apply, State.setBody_setBody, State.setBody_body] at hw
  obtain ⟨_, _, ⟨-, rfl⟩, v, s₁, hv, _, _, ⟨-, rfl⟩, _, s₂, hr, hw⟩ := hw
  cases hw
  change condition c cond (s.setBody s.body.whileTest) = _ at hv
  change runLoop s.body.whileLoop s.body.whileStart _ (s₁.setBody
    (s₁.body.finish (.condBr v s.body.whileStart s.body.whileExit))) = _ at hr
  obtain ⟨calm, k, hk, rfl⟩ := condition_reads c cond hv rfl
  obtain ⟨adv, f, hf⟩ := runLoop_reads h hr
  refine ⟨?_, .loop (some k) f .skip, k, f, _, s₂, rfl, ⟨s₁, hk, rfl⟩, hf, rfl⟩
  exact ((Advances.of_calm calm).of_setBody.trans adv.of_setBody).setBody _

/-- The test of a `for` loop, and what is left of the loop after it. -/
theorem forLoop_tests {c : Context} {cond : Expr} {iter step : Lower Unit} {s s' : State} {u : Unit}
    (h : forLoop c cond iter step s = .ok u s') :
    ∃ k s₁, cond.ReadsTest c s.body.forStart s.body.forExit (s.setBody s.body.forTest) k s₁ ∧
      Advances s s₁ ∧
      (do
        runLoop s.body.forLoop s.body.forStart step
        moveTo s.body.forNext
        iter
        discard (branchIfLive (s.body.nextLabel "for.cond"))
        moveTo s.body.forExit : Lower Unit) s₁ = .ok u s' := by
  simp only [forLoop, openBlock_bind_apply, bind_eq_ok (x := terminate _), terminate_eq_ok,
    moveTo_bind_apply, State.setBody_setBody, State.setBody_body] at h
  obtain ⟨_, _, ⟨-, rfl⟩, h⟩ := h
  rcases ite_eq_ok.mp h with ⟨ha, h⟩ | ⟨ha, h⟩
  · obtain ⟨_, _, ht, h⟩ := bind_eq_ok.mp h
    obtain ⟨-, rfl⟩ := terminate_eq_ok.mp ht
    exact ⟨none, _, ⟨ha, rfl⟩, (Advances.of_funcs_eq rfl).setBody _, h⟩
  · obtain ⟨v, s₁, hv, h⟩ := bind_eq_ok.mp h
    obtain ⟨_, _, ht, h⟩ := bind_eq_ok.mp h
    obtain ⟨-, rfl⟩ := terminate_eq_ok.mp ht
    change condition c cond (s.setBody s.body.forTest) = _ at hv
    obtain ⟨calm, k, hk, rfl⟩ := condition_reads c cond hv rfl
    exact ⟨some k, _, ⟨by simpa using ha, s₁, hk, rfl⟩,
      (Advances.of_calm calm).of_setBody.setBody _, h⟩

theorem realizes_forLoop (c : Context) (cond : Expr) {body : Block} {iter : List Node}
    (h : Realizes (blockStatements c body) (body.Reads c))
    (hi : Realizes (statementsWhere c (fun _ => true) iter)
      (Node.ReadsAll c (fun _ => true) iter)) :
    Realizes (whenLive (forLoop c cond (statementsWhere c (fun _ => true) iter)
      (blockStatements c body)))
      (.forLoop (cond.ReadsTest c) (body.Reads c) (Node.ReadsAll c (fun _ => true) iter)) := by
  refine .of_live (h.built.forLoop c cond hi.built) fun s u s' hw hl => ?_
  obtain ⟨k, s₁, hk, adv₁, hw⟩ := forLoop_tests hw
  simp only [bind_eq_ok, moveTo_bind_apply, discard_eq_ok, branchIfLive_eq_ok, moveTo_apply] at hw
  obtain ⟨_, s₂, hr, _, s₃, hn, _, _, ⟨_, -, rfl⟩, hw⟩ := hw
  cases hw
  obtain ⟨adv₂, f, hf⟩ := runLoop_reads h hr
  obtain ⟨adv₃, g, hg⟩ := hi.live _ _ _ hn rfl
  exact ⟨((adv₁.trans adv₂).trans adv₃.of_setBody).setBody _ |>.setBody _, .loop k f g,
    k, f, g, s₁, s₂, s₃, rfl, hk, hf, hg, rfl⟩

/-! ## Conditionals -/

/-- An arm is lowered from where its condition holds, and what follows from where it fails. -/
theorem conditionalArm_reads {c : Context} {cond : Expr} {done : Ir.Label} {arm : Lower Unit}
    {otherwise : Option String} {R : Reading} (h : Realizes arm R) {s s' : State} {r : Bool}
    (hl : s.body.cursor.isSome) (ha : conditionalArm c done cond arm otherwise s = .ok r s') :
    Advances s s' ∧ ∃ k y s₁ s₂, cond.ReadsCond c s k s₁ ∧
      R (s₁.setBody (s₁.body.armOr done otherwise (k.value s.body.fn))) y s₂ ∧
      r = (!y.diverts || otherwise.isNone) ∧
      s' = s₂.setBody ((s₂.body.finish (.br done)).goto (s₁.body.failLabel done otherwise)) := by
  obtain ⟨v, s₁, hv, ha⟩ := bind_eq_ok.mp ha
  obtain ⟨s₂, harm, rfl, rfl⟩ : ∃ s₂,
      arm (s₁.setBody (s₁.body.armOr done otherwise v)) = .ok () s₂ ∧
      r = (s₂.body.cursor.isSome || otherwise.isNone) ∧
      s' = s₂.setBody ((s₂.body.finish (.br done)).goto (s₁.body.failLabel done otherwise)) := by
    cases otherwise with
    | none =>
      simp only [openBlock_bind_apply, pure_bind, bind_eq_ok, terminate_eq_ok, moveTo_bind_apply,
        branchIfLive_eq_ok, pure_eq_ok, State.setBody_setBody, State.setBody_body] at ha
      obtain ⟨_, _, ⟨-, rfl⟩, _, s₂, harm, _, _, ⟨rfl, rfl⟩, rfl, rfl⟩ := ha
      exact ⟨s₂, harm, rfl, rfl⟩
    | some name =>
      simp only [openBlock_bind_apply, bind_eq_ok, terminate_eq_ok, moveTo_bind_apply,
        branchIfLive_eq_ok, pure_eq_ok, State.setBody_setBody, State.setBody_body] at ha
      obtain ⟨_, _, ⟨-, rfl⟩, _, s₂, harm, _, _, ⟨rfl, rfl⟩, rfl, rfl⟩ := ha
      exact ⟨s₂, harm, rfl, rfl⟩
  obtain ⟨calm, k, hk, rfl⟩ := condition_reads c cond hv hl
  have live : (s₁.body.armOr done otherwise (k.value s.body.fn)).cursor.isSome := by
    cases otherwise <;> rfl
  obtain ⟨adv, y, hy, hb⟩ := h.builds harm live
  have advances : Advances s s₂ := (Advances.of_calm calm).trans adv.of_setBody
  exact ⟨advances.setBody _, k, y, s₁, s₂, hk, hy, by rw [hb.cursor_isSome], rfl⟩

/-- The statements of an arm are lowered to what they stand for. -/
def Realized (c : Context) : Elif → Prop
  | .missing => True
  | .mk _ _ body => Realizes (blockStatements c body) (body.Reads c)

/-- What stands for the final block of a conditional. -/
def ReadsFinal (c : Context) (done : Ir.Label) (no : Block) : Reading :=
  if no.isMissing then .skips else .final done (no.Reads c)

/-- The final block of a conditional, if there is one; says whether it can reach the join. -/
def finalArm (c : Context) (done : Ir.Label) (no : Block) : Lower Bool :=
  if no.isMissing then pure false
  else do
    blockStatements c no
    branchIfLive done

theorem otherwiseName_eq_none {more : List Elif} {no : Block} :
    otherwiseName more no = none ↔ more = [] ∧ no.isMissing = true := by
  unfold otherwiseName
  cases more <;> cases no <;> simp [Block.isMissing]

section
variable {c : Context} {done : Ir.Label} {no : Block}
  (hno : no.isMissing = false → Realizes (blockStatements c no) (no.Reads c))
include hno

/-- The arms of a conditional and its final block are lowered to the choices they stand for, and the
    join is reached unless these divert. -/
theorem arms_read : ∀ (arms : List Elif), (∀ e ∈ arms, Realized c e) →
    otherwiseName arms no ≠ none → ∀ {s s₁ s' : State} {later last : Bool}, s.body.cursor.isSome →
    elifArms c done no arms s = .ok later s₁ → finalArm c done no s₁ = .ok last s' →
    Advances s s' ∧ ∃ n, Elif.ReadsRest c done no (ReadsFinal c done no) arms s n s' ∧
      (later || last) = !n.diverts := by
  intro arms
  induction arms with
  | nil =>
    intro _ hname s s₁ s' later last hl ha hf
    unfold elifArms at ha
    obtain ⟨rfl, rfl⟩ := pure_eq_ok.mp ha
    -- There are no arms left, so there is a final block.
    have hm : no.isMissing = false := by
      simpa [otherwiseName_eq_none] using hname
    simp only [finalArm, hm, Bool.false_eq_true, if_false, bind_eq_ok, branchIfLive_eq_ok] at hf
    obtain ⟨_, s₂, hb, rfl, rfl⟩ := hf
    obtain ⟨adv, n, hn, hb⟩ := (hno hm).builds hb hl
    refine ⟨adv.setBody _, n, ?_, ?_⟩
    · unfold Elif.ReadsRest ReadsFinal
      rw [if_neg (by simp [hm])]
      exact ⟨s₂, hn, rfl⟩
    · rw [hb.cursor_isSome, Bool.false_or]
  | cons e arms ih =>
    intro hr _ s s₁ s' later last hl ha hf
    cases e with
    | missing =>
      unfold elifArms at ha
      exact (breach_ne_ok.mp ha).elim
    | mk site cond body =>
      have hbody : Realizes (blockStatements c body) (body.Reads c) := hr _ List.mem_cons_self
      unfold elifArms at ha
      simp only [bind_eq_ok, pure_eq_ok] at ha
      obtain ⟨first, s₂, hfirst, later', _, hlater, rfl, rfl⟩ := ha
      obtain ⟨adv, k, y, s₃, s₄, hk, hy, rfl, rfl⟩ := conditionalArm_reads hbody hl hfirst
      unfold Elif.ReadsRest
      cases hname : otherwiseName arms no with
      | none =>
        -- This arm is the last one, and there is no final block.
        obtain ⟨rfl, hm⟩ := otherwiseName_eq_none.mp hname
        rw [hname] at hy
        unfold elifArms at hlater
        obtain ⟨rfl, rfl⟩ := pure_eq_ok.mp hlater
        simp only [finalArm, hm, if_true, pure_eq_ok] at hf
        obtain ⟨rfl, rfl⟩ := hf
        refine ⟨adv, .choose k y .skip, ⟨k, y, .skip, s₃, s₄, rfl, hk, hy, ?_⟩, ?_⟩
        · unfold Elif.ReadsRest ReadsFinal
          rw [if_pos hm]
          exact ⟨rfl, by rw [hname]⟩
        · simp [Flow.diverts]
      | some name =>
        rw [hname] at hy hlater
        obtain ⟨adv', n, hn, hreach⟩ := ih (fun e he => hr e (List.mem_cons_of_mem _ he))
          (by simp [hname]) rfl hlater hf
        refine ⟨adv.trans adv', .choose k y n, ⟨k, y, n, s₃, s₄, rfl, hk, hy, hn⟩, ?_⟩
        rw [Option.isNone_some, Bool.or_false, Bool.or_assoc, hreach, Flow.diverts, Bool.not_and]

/-- What is read of the arms of a conditional and of its final block is built. -/
theorem arms_built : ∀ (arms : List Elif), (∀ e ∈ arms, Realized c e) →
    otherwiseName arms no ≠ none →
    (Elif.ReadsRest c done no (ReadsFinal c done no) arms).Built (some done)
  | [], _, hname => by
    have hm : no.isMissing = false := by
      simpa [otherwiseName_eq_none] using hname
    unfold Elif.ReadsRest ReadsFinal
    rw [if_neg (by simp [hm])]
    exact (hno hm).built.final
  | .missing :: arms, _, _ => by
    unfold Elif.ReadsRest
    exact fun _ _ _ h => h.elim
  | .mk site cond body :: arms, hr, _ => by
    have hbody : Realizes (blockStatements c body) (body.Reads c) := hr _ List.mem_cons_self
    have rest := arms_built arms fun e he => hr e (List.mem_cons_of_mem _ he)
    unfold Elif.ReadsRest
    cases hname : otherwiseName arms no with
    | none =>
      obtain ⟨rfl, hm⟩ := otherwiseName_eq_none.mp hname
      unfold Elif.ReadsRest ReadsFinal
      rw [if_pos hm]
      exact hbody.built.last c cond
    | some name => exact hbody.built.arm c cond (rest (by simp [hname]))

end

theorem closeConditional_eq_ok {done : Ir.Label} {r : Bool} {s s' : State} {u : Unit} :
    closeConditional done r s = .ok u s' ↔ s' = s.setBody (s.body.closeJoin done r) := by
  unfold closeConditional
  cases r with
  | true =>
    constructor
    · intro h
      cases h
      rfl
    · rintro rfl
      rfl
  | false =>
    constructor
    · intro h
      cases h
      rfl
    · rintro rfl
      rfl

theorem realizes_conditional (c : Context) (site : Site) (cond : Expr) {yes no : Block}
    {elifs : List Elif} (hyes : Realizes (blockStatements c yes) (yes.Reads c))
    (helifs : ∀ e ∈ elifs, Realized c e)
    (hno : no.isMissing = false → Realizes (blockStatements c no) (no.Reads c)) :
    Realizes (statement c (.ifStmt site cond yes elifs no))
      (Node.Reads c (.ifStmt site cond yes elifs no)) := by
  -- The first arm is an arm like the others.
  have harms : ∀ e ∈ (Elif.mk site cond yes :: elifs), Realized c e :=
    List.forall_mem_cons.mpr ⟨hyes, helifs⟩
  have hname : otherwiseName (Elif.mk site cond yes :: elifs) no ≠ none := by
    simp [otherwiseName]
  unfold statement Node.Reads
  refine .of_live ?_ fun s u s' h hl => ?_
  · rintro s f s' ⟨s₁, hf, rfl⟩ hl
    have hb : Reading.Built (some (s.body.nextLabel "if.done")) _ := arms_built hno _ harms hname
    unfold Elif.ReadsRest at hb
    exact .choose (hb _ f s₁ hf hl)
  have hmain : ∃ reached last s₁ s₂,
      elifArms c (s.body.nextLabel "if.done") no (.mk site cond yes :: elifs)
        (s.setBody (s.body.addBlock "if.done")) = .ok reached s₁ ∧
      finalArm c (s.body.nextLabel "if.done") no s₁ = .ok last s₂ ∧
      closeConditional (s.body.nextLabel "if.done") (reached || last) s₂ = .ok u s' := by
    unfold elifArms finalArm
    rcases ite_eq_ok.mp h with ⟨-, h⟩ | ⟨-, h⟩
    · simp at h
    · simp only [openBlock_bind_apply] at h
      obtain ⟨first, s₁, h₁, h⟩ := bind_eq_ok.mp h
      obtain ⟨later, s₂, h₂, h⟩ := bind_eq_ok.mp h
      have hr : (do
          let first ← conditionalArm c (s.body.nextLabel "if.done") cond (blockStatements c yes)
            (otherwiseName elifs no)
          let later ← elifArms c (s.body.nextLabel "if.done") no elifs
          pure (first || later)) (s.setBody (s.body.addBlock "if.done")) =
            .ok (first || later) s₂ :=
        bind_eq_ok.mpr ⟨first, s₁, h₁, bind_eq_ok.mpr ⟨later, s₂, h₂, rfl⟩⟩
      rcases ite_eq_ok.mp h with ⟨hm, h⟩ | ⟨hm, h⟩
      · exact ⟨_, false, s₂, s₂, hr, by rw [if_pos hm]; rfl, h⟩
      · obtain ⟨_, s₃, h₃, h⟩ := bind_eq_ok.mp h
        obtain ⟨last, s₄, h₄, h⟩ := bind_eq_ok.mp h
        exact ⟨_, last, s₂, s₄, hr, by rw [if_neg hm]; exact bind_eq_ok.mpr ⟨_, s₃, h₃, h₄⟩, h⟩
  obtain ⟨reached, last, s₁, s₂, ha, hf, hc⟩ := hmain
  obtain ⟨adv, f, hr, hreach⟩ := arms_read hno _ harms hname
    (s := s.setBody (s.body.addBlock "if.done")) hl ha hf
  cases closeConditional_eq_ok.mp hc
  unfold Elif.ReadsRest at hr
  exact ⟨adv.of_setBody.setBody _, f, s₂, hr, by rw [hreach]⟩

end Lower

end TreeLowering
