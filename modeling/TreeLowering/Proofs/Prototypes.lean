import TreeLowering.Proofs.Traversal

/-!
Prototypes and the bodies that are to follow them.

A definition with a body owns the function of its prototype: the symbol was free when it was
declared, and nobody with a body gets it again. `Ledger` is what lowering keeps of this, and
`Bookkeeping` is what every step does about it. Functions get blocks when the bodies of their owners
are lowered, and keep them. A step may leave owners behind that still wait for their bodies;
`Bookkeeping` names those that a step may add.
-/
namespace TreeLowering

open Lower

/-! ## Tables -/

section
variable {α β : Type} [BEq α] [LawfulBEq α] {k k' : α} {v w : β} {l : List (α × β)}

theorem lookup_cons_of_ne (h : k' ≠ k) (v : β) (l : List (α × β)) :
    ((k, v) :: l).lookup k' = l.lookup k' := by
  rw [List.lookup_cons, beq_false_of_ne h]

/-- A new key hides no other. -/
theorem lookup_cons_of_fresh (hk : l.lookup k = none) (h : l.lookup k' = some w) :
    ((k, v) :: l).lookup k' = some w := by
  have hne : k' ≠ k := by
    rintro rfl
    cases hk.symm.trans h
  rw [lookup_cons_of_ne hne, h]

theorem lookup_cons_cases (h : ((k, v) :: l).lookup k' = some w) :
    l.lookup k' = some w ∨ k' = k ∧ w = v := by
  by_cases he : k' = k
  · subst he
    exact .inr ⟨rfl, Option.some.inj (h.symm.trans List.lookup_cons_self)⟩
  · exact .inl ((lookup_cons_of_ne he v l).symm.trans h)

end

theorem getElem?_push_of_some {α : Type} {xs : Array α} {x y : α} {i : Nat} (h : xs[i]? = some y) :
    (xs.push x)[i]? = some y := by
  rw [Array.getElem?_push, if_neg (Nat.ne_of_lt (Array.getElem?_eq_some_iff.mp h).1), h]

theorem getElem?_push_cases {α : Type} {xs : Array α} {x y : α} {i : Nat}
    (h : (xs.push x)[i]? = some y) : xs[i]? = some y ∨ i = xs.size ∧ y = x := by
  rw [Array.getElem?_push] at h
  split at h
  · exact .inr ⟨‹_›, (Option.some.inj h).symm⟩
  · exact .inl h

/-! ## Owners -/

/-- Function definitions with their bodies. -/
abbrev Definitions := FuncHead → Block → Prop

/-- The function definitions of a unit, at any depth. -/
def definitionsOf (decls : List Node) : Definitions :=
  fun h body => .funcDecl h body ∈ Node.partsAll decls

/-- Occurrences with one identity are occurrences of one definition. -/
def Definitions.Identified (F : Definitions) : Prop :=
  ∀ h body h' body', F h body → F h' body' → h.site.id = h'.site.id → h = h' ∧ body = body'

/-- A definition with a body owns the function of its prototype. -/
structure Owns (F : Definitions) (s : State) (h : FuncHead) (id : Ir.FuncId) : Prop where
  defined : ∃ body, F h body ∧ h.hasBody body = true
  prototype : s.prototypes.lookup h.site.id = some (some id)

/-- A function has blocks. -/
def Filled (s : State) (id : Ir.FuncId) : Prop :=
  ∃ f, s.module.funcs[id]? = some f ∧ f.blocks ≠ []

/-- The definition is compiled in and has a symbol. -/
def FuncHead.Active (c : Context) (h : FuncHead) : Prop :=
  h.isTypeDecl = false ∧ ∃ params result, c.analysis.typeOfFunc h = .func params result false

/-- What holds of symbols, prototypes and lowered bodies between any two steps. -/
structure Ledger (c : Context) (F : Definitions) (s : State) : Prop where
  init : s.symbols.lookup Abi.initFunction = some 0
  size : ∀ name id, s.symbols.lookup name = some id → id < s.module.funcs.size
  inj : ∀ name name' id, s.symbols.lookup name = some id → s.symbols.lookup name' = some id →
    name = name'
  active : ∀ h id, Owns F s h id → h.Active c
  symbol : ∀ h id, Owns F s h id →
    s.symbols.lookup h.symbol = some id ∧ h.symbol ≠ Abi.initFunction
  single : ∀ h h' id id', Owns F s h id → Owns F s h' id' → h.symbol = h'.symbol →
    h.site.id = h'.site.id
  begun : ∀ key ∈ s.lowered, ∃ h id, h.site.id = key ∧ Owns F s h id
  nodup : s.lowered.Nodup

/-- A definition waits for its body. -/
def Waits (F : Definitions) (s : State) (h : FuncHead) : Prop :=
  (∃ id, Owns F s h id) ∧ h.site.id ∉ s.lowered

/-- What a step does: owners keep their functions, filled functions stay filled, a body that was
    lowered filled its function, and only definitions with identities in `K` begin to wait. -/
structure Bookkeeping (c : Context) (F : Definitions) (K : NodeId → Prop) (s s' : State) :
    Prop where
  ledger : Ledger c F s'
  owns : ∀ h id, Owns F s h id → Owns F s' h id
  filled : ∀ id, Filled s id → Filled s' id
  lowered : s.lowered ⊆ s'.lowered
  done : ∀ key ∈ s'.lowered, key ∉ s.lowered →
    ∃ h id, h.site.id = key ∧ Owns F s' h id ∧ Filled s' id
  waits : ∀ h, Waits F s' h → Waits F s h ∨ K h.site.id

namespace Bookkeeping

variable {c : Context} {F : Definitions} {K K' : NodeId → Prop} {s s' s'' : State}

theorem refl (h : Ledger c F s) : Bookkeeping c F K s s where
  ledger := h
  owns _ _ ho := ho
  filled _ hf := hf
  lowered _ hk := hk
  done _ hk hn := absurd hk hn
  waits _ hw := .inl hw

theorem trans (h₁ : Bookkeeping c F K s s') (h₂ : Bookkeeping c F K s' s'') :
    Bookkeeping c F K s s'' where
  ledger := h₂.ledger
  owns h id ho := h₂.owns h id (h₁.owns h id ho)
  filled id hf := h₂.filled id (h₁.filled id hf)
  lowered _ hk := h₂.lowered (h₁.lowered hk)
  done key hk hn := by
    by_cases hm : key ∈ s'.lowered
    · obtain ⟨h, id, he, ho, hf⟩ := h₁.done key hm hn
      exact ⟨h, id, he, h₂.owns h id ho, h₂.filled id hf⟩
    · exact h₂.done key hk hm
  waits h hw := by
    rcases h₂.waits h hw with hw | hk
    · exact h₁.waits h hw
    · exact .inr hk

theorem mono (h : Bookkeeping c F K s s') (hK : ∀ key, K key → K' key) : Bookkeeping c F K' s s' :=
  { h with waits := fun f hw => (h.waits f hw).imp_right (hK _) }

/-- Those who begin to wait are fewer if some of them do not wait in the end. -/
theorem settle (p : Bookkeeping c F K' s s')
    (h : ∀ f, Waits F s' f → K' f.site.id → K f.site.id) : Bookkeeping c F K s s' :=
  { p with waits := fun f hw => (p.waits f hw).imp_right (h f hw) }

/-- Steps that leave symbols, prototypes and lowered bodies alone. -/
theorem of_same (h : Ledger c F s) (hy : s'.symbols = s.symbols)
    (hp : s'.prototypes = s.prototypes) (hl : s'.lowered = s.lowered)
    (hs : s.module.funcs.size ≤ s'.module.funcs.size)
    (hf : ∀ id, Filled s id → Filled s' id) : Bookkeeping c F K s s' := by
  have owns : ∀ f id, Owns F s' f id → Owns F s f id := fun f id ho => ⟨ho.1, hp ▸ ho.2⟩
  have owns' : ∀ f id, Owns F s f id → Owns F s' f id := fun f id ho => ⟨ho.1, hp ▸ ho.2⟩
  refine
    { ledger := ?_, owns := owns', filled := hf, lowered := hl ▸ List.Subset.refl _,
      done := fun key hk hn => absurd (hl ▸ hk) hn, waits := ?_ }
  · exact
      { init := hy ▸ h.init
        size := fun name id hn => Nat.lt_of_lt_of_le (h.size name id (hy ▸ hn)) hs
        inj := fun a b id ha hb => h.inj a b id (hy ▸ ha) (hy ▸ hb)
        active := fun f id ho => h.active f id (owns f id ho)
        symbol := fun f id ho => hy ▸ h.symbol f id (owns f id ho)
        single := fun f g i j hi hj => h.single f g i j (owns f i hi) (owns g j hj)
        begun := fun key hk => by
          obtain ⟨f, id, he, ho⟩ := h.begun key (hl ▸ hk)
          exact ⟨f, id, he, owns' f id ho⟩
        nodup := hl ▸ h.nodup }
  · rintro f ⟨⟨id, ho⟩, hn⟩
    exact .inl ⟨⟨id, owns f id ho⟩, hl ▸ hn⟩

theorem of_funcs_eq (h : Ledger c F s) (hy : s'.symbols = s.symbols)
    (hp : s'.prototypes = s.prototypes) (hl : s'.lowered = s.lowered)
    (hf : s'.module.funcs = s.module.funcs) : Bookkeeping c F K s s' :=
  of_same h hy hp hl (hf ▸ Nat.le_refl _) fun _ hi => by rwa [Filled, hf]

end Bookkeeping

theorem Filled.push {s s' : State} {id : Ir.FuncId} {f : Ir.Function} (h : Filled s id)
    (hf : s'.module.funcs = s.module.funcs.push f) : Filled s' id := by
  obtain ⟨g, hg, hb⟩ := h
  exact ⟨g, hf ▸ getElem?_push_of_some hg, hb⟩

theorem Filled.modify {s s' : State} {id : Ir.FuncId} {i : Nat} {g : Ir.Function → Ir.Function}
    (h : Filled s id) (hf : s'.module.funcs = s.module.funcs.modify i g)
    (hg : ∀ f, f.blocks ≠ [] → (g f).blocks ≠ []) : Filled s' id := by
  obtain ⟨f, hi, hb⟩ := h
  rw [Filled, hf, Array.getElem?_modify]
  split
  · exact ⟨g f, by rw [hi]; rfl, hg f hb⟩
  · exact ⟨f, hi, hb⟩

/-! ## Declaring -/

section
variable {c : Context} {F : Definitions} {s : State} {h : FuncHead} {body : Block}

/-- With one identity for one definition, an owner with the identity of a definition is that
    definition. -/
theorem Owns.eq_of_id (ident : F.Identified) (hd : F h body) {h' : FuncHead} {id : Ir.FuncId}
    (ho : Owns F s h' id) (he : h'.site.id = h.site.id) : h' = h ∧ h.hasBody body = true := by
  obtain ⟨body', hd', hb⟩ := ho.defined
  obtain ⟨rfl, rfl⟩ := ident h' body' h body hd' hd he
  exact ⟨rfl, hb⟩

/-- Noting a prototype for one definition leaves the others as they are. -/
theorem Owns.of_note {key : NodeId} {f : Option Ir.FuncId} {h' : FuncHead} {id : Ir.FuncId}
    (hne : h'.site.id ≠ key) : Owns F (s.note key f) h' id ↔ Owns F s h' id := by
  have hl : (s.note key f).prototypes.lookup h'.site.id = s.prototypes.lookup h'.site.id :=
    lookup_cons_of_ne hne f s.prototypes
  constructor
  · rintro ⟨hd, hp⟩
    exact ⟨hd, hl ▸ hp⟩
  · rintro ⟨hd, hp⟩
    exact ⟨hd, hl.symm ▸ hp⟩

/-- A definition that owns nothing, and is noted without owning anything. -/
theorem Bookkeeping.note (L : Ledger c F s) {f : Option Ir.FuncId}
    (before : ∀ h' id, Owns F s h' id → h'.site.id ≠ h.site.id)
    (after : ∀ h' id, Owns F (s.note h.site.id f) h' id → h'.site.id ≠ h.site.id) :
    Bookkeeping c F (· = h.site.id) s (s.note h.site.id f) := by
  have back : ∀ h' id, Owns F (s.note h.site.id f) h' id → Owns F s h' id := fun h' id ho =>
    (Owns.of_note (after h' id ho)).mp ho
  have forth : ∀ h' id, Owns F s h' id → Owns F (s.note h.site.id f) h' id := fun h' id ho =>
    (Owns.of_note (before h' id ho)).mpr ho
  refine
    { ledger := ?_, owns := forth, filled := fun _ hf => hf, lowered := List.Subset.refl _,
      done := fun _ hk hn => absurd hk hn, waits := ?_ }
  · exact
      { L with
        active := fun h' id ho => L.active h' id (back h' id ho)
        symbol := fun h' id ho => L.symbol h' id (back h' id ho)
        single := fun f g i j hi hj => L.single f g i j (back f i hi) (back g j hj)
        begun := fun key hk => by
          obtain ⟨h', id, he, ho⟩ := L.begun key hk
          exact ⟨h', id, he, forth h' id ho⟩ }
  · rintro h' ⟨⟨id, ho⟩, hn⟩
    exact .inl ⟨⟨id, back h' id ho⟩, hn⟩

/-- A definition without a body owns nothing, whatever is noted for it. -/
theorem Bookkeeping.bystander (L : Ledger c F s) (ident : F.Identified) (hd : F h body)
    (hb : ¬ h.hasBody body = true) (f : Option Ir.FuncId) :
    Bookkeeping c F (· = h.site.id) s (s.note h.site.id f) :=
  .note L (fun _ _ ho he => hb (ho.eq_of_id ident hd he).2) fun _ _ ho he =>
    hb (ho.eq_of_id ident hd he).2

/-- A function under a free symbol. -/
theorem Bookkeeping.declare (L : Ledger c F s) {K : NodeId → Prop} {f : Ir.Function}
    (hfree : s.symbols.lookup f.name = none) : Bookkeeping c F K s (s.declare f) := by
  have kept : ∀ name id, s.symbols.lookup name = some id →
      (s.declare f).symbols.lookup name = some id := fun _ _ => lookup_cons_of_fresh hfree
  have back : ∀ name id, (s.declare f).symbols.lookup name = some id →
      s.symbols.lookup name = some id ∨ name = f.name ∧ id = s.module.funcs.size :=
    fun _ _ => lookup_cons_cases
  have fresh : ∀ name, s.symbols.lookup name ≠ some s.module.funcs.size := fun name hn =>
    Nat.lt_irrefl _ (L.size name _ hn)
  refine
    { ledger := ?_, owns := fun _ _ ho => ⟨ho.1, ho.2⟩, filled := fun _ hf => hf.push rfl,
      lowered := List.Subset.refl _, done := fun _ hk hn => absurd hk hn,
      waits := fun _ hw => .inl ⟨hw.1.imp fun _ ho => ⟨ho.1, ho.2⟩, hw.2⟩ }
  have owns : ∀ h' id, Owns F (s.declare f) h' id → Owns F s h' id := fun _ _ ho => ⟨ho.1, ho.2⟩
  exact
    { init := kept _ _ L.init
      size := fun name id hn => by
        rw [show (s.declare f).module.funcs.size = s.module.funcs.size + 1 from Array.size_push _]
        rcases back name id hn with hn | ⟨-, rfl⟩
        · exact Nat.lt_succ_of_lt (L.size name id hn)
        · exact Nat.lt_succ_self _
      inj := fun a b id ha hb => by
        rcases back a id ha with ha | ⟨rfl, rfl⟩ <;> rcases back b _ hb with hb | ⟨rfl, he⟩
        · exact L.inj a b id ha hb
        · exact absurd (he ▸ ha) (fresh a)
        · exact absurd hb (fresh b)
        · rfl
      active := fun h' id ho => L.active h' id (owns h' id ho)
      symbol := fun h' id ho =>
        (L.symbol h' id (owns h' id ho)).imp_left (kept _ _)
      single := fun f g i j hi hj => L.single f g i j (owns f i hi) (owns g j hj)
      begun := fun key hk => (L.begun key hk).imp fun _ => Exists.imp fun _ => fun ⟨he, ho⟩ =>
        ⟨he, ho.1, ho.2⟩
      nodup := L.nodup }

/-- A definition with a body gets the function of a symbol that no other owner has. -/
theorem Bookkeeping.own (L : Ledger c F s) (ident : F.Identified) (hd : F h body)
    (hb : h.hasBody body = true) (ha : h.Active c) {id : Ir.FuncId}
    (hs : s.symbols.lookup h.symbol = some id) (hi : h.symbol ≠ Abi.initFunction)
    (hnew : ∀ h' id', Owns F s h' id' → h'.symbol ≠ h.symbol) :
    Bookkeeping c F (· = h.site.id) s (s.note h.site.id (some id)) := by
  have forth : ∀ h' id', Owns F s h' id' → Owns F (s.note h.site.id (some id)) h' id' := by
    intro h' id' ho
    refine (Owns.of_note fun he => ?_).mpr ho
    obtain ⟨rfl, -⟩ := ho.eq_of_id ident hd he
    exact hnew h' id' ho rfl
  have back : ∀ h' id', Owns F (s.note h.site.id (some id)) h' id' →
      Owns F s h' id' ∨ h' = h ∧ id' = id := by
    intro h' id' ho
    by_cases he : h'.site.id = h.site.id
    · obtain ⟨rfl, -⟩ := ho.eq_of_id ident hd he
      have hp := ho.prototype
      rw [State.note, List.lookup_cons_self] at hp
      cases hp
      exact .inr ⟨rfl, rfl⟩
    · exact .inl ((Owns.of_note he).mp ho)
  refine
    { ledger := ?_, owns := forth, filled := fun _ hf => hf, lowered := List.Subset.refl _,
      done := fun _ hk hn => absurd hk hn, waits := ?_ }
  · exact
      { L with
        active := fun h' id' ho => by
          rcases back h' id' ho with ho | ⟨rfl, -⟩
          · exact L.active h' id' ho
          · exact ha
        symbol := fun h' id' ho => by
          rcases back h' id' ho with ho | ⟨rfl, rfl⟩
          · exact L.symbol h' id' ho
          · exact ⟨hs, hi⟩
        single := fun f g i j hf hg he => by
          rcases back f i hf with of | ⟨rfl, -⟩ <;> rcases back g j hg with og | ⟨rfl, -⟩
          · exact L.single f g i j of og he
          · exact absurd he (hnew f i of)
          · exact absurd he.symm (hnew g j og)
          · rfl
        begun := fun key hk => by
          obtain ⟨h', id', he, ho⟩ := L.begun key hk
          exact ⟨h', id', he, forth h' id' ho⟩ }
  · rintro h' ⟨⟨id', ho⟩, hn⟩
    rcases back h' id' ho with ho | ⟨rfl, -⟩
    · exact .inl ⟨⟨id', ho⟩, hn⟩
    · exact .inr rfl

end

namespace Lower

variable {c : Context} {F : Definitions} {s s' : State} {h : FuncHead} {body : Block} {u : Unit}

theorem books_of_calm {K : NodeId → Prop} (L : Ledger c F s) (hc : Calm s s') :
    Bookkeeping c F K s s' := by
  obtain ⟨more, hm, -⟩ := hc.funcs
  refine .of_same L hc.symbols hc.prototypes hc.lowered ?_ ?_
  · rw [← Array.length_toList, ← Array.length_toList, hm, List.length_append]
    exact Nat.le_add_right _ _
  · rintro id ⟨f, hf, hb⟩
    exact ⟨f, hc.getElem?_funcs hf, hb⟩

/-- A prototype is noted with a function, which the variable is then bound to. -/
theorem declarePrototype_eq_ok {v : ObjectId} {sig : Signature}
    (hd : declarePrototype c h body v sig s = .ok u s') :
    s'.lowered = s.lowered ∧ ∃ id,
      s'.values = (v, ((s'.module.funcs[id]?).getD default).value id) :: s.values ∧
      s'.prototypes = (h.site.id, some id) :: s.prototypes := by
  unfold declarePrototype at hd
  rcases ite_eq_ok.mp hd with ⟨-, hd⟩ | ⟨-, hd⟩
  · simp at hd
  obtain ⟨types, s₁, h₁, hd⟩ := bind_eq_ok.mp hd
  have calm := (steady_instructionSignature c _ _ _ _ _ h₁).2
  obtain ⟨id, s₂, h₂, hd⟩ := bind_eq_ok.mp hd
  have same : s₂.lowered = s₁.lowered ∧ s₂.values = s₁.values ∧
      s₂.prototypes = s₁.prototypes := by
    rcases declareSymbol_eq_ok h₂ with ⟨-, -, f, -, -, -, rfl⟩ | ⟨-, -, rfl⟩
    · exact ⟨rfl, rfl, rfl⟩
    · exact ⟨rfl, rfl, rfl⟩
  cases hd
  refine ⟨same.1.trans calm.lowered, id, ?_, ?_⟩
  · exact congrArg (List.cons _) (same.2.1.trans calm.values)
  · exact congrArg (List.cons _) (same.2.2.trans calm.prototypes)

/-- A definition is noted, with a function if it is active, which its variable is then bound to. -/
theorem enterPrototype_eq_ok (hr : enterPrototype c h body s = .ok u s') :
    s'.lowered = s.lowered ∧
      ((¬h.Active c ∧ s'.values = s.values ∧
          s'.prototypes = (h.site.id, none) :: s.prototypes) ∨
        h.Active c ∧ ∃ v id, c.analysis.resolve h.name (some h.site) = some v ∧
          s'.values = (v, ((s'.module.funcs[id]?).getD default).value id) :: s.values ∧
          s'.prototypes = (h.site.id, some id) :: s.prototypes) := by
  unfold enterPrototype at hr
  obtain ⟨sig, s₁, hsig, hr⟩ := bind_eq_ok.mp hr
  have htype := (signatureOf_eq_ok hsig).2
  cases (signatureOf_eq_ok hsig).1
  rcases ite_eq_ok.mp hr with ⟨hskip, hr⟩ | ⟨hactive, hr⟩
  · cases hr
    refine ⟨rfl, .inl ⟨?_, rfl, rfl⟩⟩
    rintro ⟨hdecl, params, result, hty⟩
    rw [htype, Ty.func.injEq] at hty
    simp [hdecl, hty.2.2] at hskip
  · simp only [Bool.or_eq_true, not_or, Bool.not_eq_true] at hactive
    have active : h.Active c := ⟨hactive.2, _, _, hactive.1 ▸ htype⟩
    obtain ⟨v, s₂, hv, hr⟩ := bind_eq_ok.mp hr
    have hres := (variableAt_eq_ok hv).1
    cases (variableAt_eq_ok hv).2
    rcases ite_eq_ok.mp hr with ⟨-, hr⟩ | ⟨-, hr⟩
    · rcases ite_eq_ok.mp hr with ⟨-, hr⟩ | ⟨-, hr⟩
      · simp at hr
      · obtain ⟨hl, id, hvals, hprotos⟩ := declarePrototype_eq_ok hr
        exact ⟨hl, .inr ⟨active, v, id, hres, hvals, hprotos⟩⟩
    · obtain ⟨hl, id, hvals, hprotos⟩ := declarePrototype_eq_ok hr
      exact ⟨hl, .inr ⟨active, v, id, hres, hvals, hprotos⟩⟩

theorem declarePrototype_books (ident : F.Identified) (hd : F h body) (ha : h.Active c)
    {v : ObjectId} {sig : Signature} (hr : declarePrototype c h body v sig s = .ok u s')
    (L : Ledger c F s) : Bookkeeping c F (· = h.site.id) s s' := by
  unfold declarePrototype at hr
  rcases ite_eq_ok.mp hr with ⟨-, hr⟩ | ⟨-, hr⟩
  · simp at hr
  obtain ⟨types, s₁, h₁, hr⟩ := bind_eq_ok.mp hr
  obtain ⟨id, s₂, h₂, hr⟩ := bind_eq_ok.mp hr
  have p₁ : Bookkeeping c F (· = h.site.id) s s₁ :=
    books_of_calm L (steady_instructionSignature c _ _ _ _ _ h₁).2
  have noted : Bookkeeping c F (· = h.site.id) s₁ (s₂.note h.site.id (some id)) := by
    rcases declareSymbol_eq_ok h₂ with
      ⟨hfree, -, f, hname, -, rfl, rfl⟩ | ⟨-, hb, rfl⟩
    · have p₂ : Bookkeeping c F (· = h.site.id) s₁ (s₁.declare f) :=
        .declare p₁.ledger (hname ▸ hfree)
      refine p₂.trans ?_
      -- The symbol was free, so no owner had it.
      have hnew : ∀ h' id', Owns F (s₁.declare f) h' id' → h'.symbol ≠ h.symbol := by
        intro h' id' ho he
        have hs := (p₁.ledger.symbol h' id' ⟨ho.1, ho.2⟩).1
        rw [he, hfree] at hs
        cases hs
      have hi : h.symbol ≠ Abi.initFunction := by
        intro he
        have := p₁.ledger.init
        rw [← he, hfree] at this
        cases this
      by_cases hb : h.hasBody body = true
      · refine .own p₂.ledger ident hd hb ha ?_ hi hnew
        rw [← hname]
        exact List.lookup_cons_self
      · exact .bystander p₂.ledger ident hd hb _
    · exact .bystander p₁.ledger ident hd (by simp [hb]) _
  cases hr
  exact p₁.trans (noted.trans (.of_funcs_eq noted.ledger rfl rfl rfl rfl))

/-- Only the definition that is declared begins to wait for its body. -/
theorem enterPrototype_books (ident : F.Identified) (hd : F h body)
    (hr : enterPrototype c h body s = .ok u s') (L : Ledger c F s) :
    Bookkeeping c F (· = h.site.id) s s' := by
  unfold enterPrototype at hr
  obtain ⟨sig, s₁, hsig, hr⟩ := bind_eq_ok.mp hr
  have htype := (signatureOf_eq_ok hsig).2
  cases asks_signatureOf c h _ _ _ hsig
  rcases ite_eq_ok.mp hr with ⟨hskip, hr⟩ | ⟨hactive, hr⟩
  · have noted : Bookkeeping c F (· = h.site.id) s (s.note h.site.id none) := by
      refine .note L ?_ ?_
      · intro h' id ho he
        obtain ⟨rfl, -⟩ := ho.eq_of_id ident hd he
        obtain ⟨hdecl, params, result, hty⟩ := L.active h' id ho
        have hinactive : sig.inactive = false := by
          rw [hty] at htype
          exact ((Ty.func.injEq _ _ _ _ _ _).mp htype).2.2.symm
        simp [hdecl, hinactive] at hskip
      · intro h' id ho he
        have hp := ho.prototype
        rw [he, State.note, List.lookup_cons_self] at hp
        cases hp
    cases hr
    exact noted.trans (.of_funcs_eq noted.ledger rfl rfl rfl rfl)
  · have ha : h.Active c := by
      simp only [Bool.or_eq_true, not_or, Bool.not_eq_true] at hactive
      exact ⟨hactive.2, _, _, hactive.1 ▸ htype⟩
    obtain ⟨v, s₂, hv, hr⟩ := bind_eq_ok.mp hr
    cases asks_variableAt c _ _ _ _ _ hv
    rcases ite_eq_ok.mp hr with ⟨-, hr⟩ | ⟨-, hr⟩
    · rcases ite_eq_ok.mp hr with ⟨-, hr⟩ | ⟨-, hr⟩
      · simp at hr
      · rw [report_bind_apply] at hr
        have p₁ : Bookkeeping c F (· = h.site.id) s
            { s with trace := s.trace ++ [.noReturnType h.site.position h.name] } :=
          .of_funcs_eq L rfl rfl rfl rfl
        exact p₁.trans (declarePrototype_books ident hd ha hr p₁.ledger)
    · exact declarePrototype_books ident hd ha hr L

/-! ## Steps -/

/-- The step keeps the books wherever the ledger holds. -/
def Tracks (c : Context) (F : Definitions) (K : NodeId → Prop) (s s' : State) : Prop :=
  Ledger c F s → Bookkeeping c F K s s'

instance (c : Context) (F : Definitions) (K : NodeId → Prop) : Lasting (Tracks c F K) where
  refl _ := .refl
  trans h₁ h₂ L := (h₁ L).trans (h₂ (h₁ L).ledger)

variable {K : NodeId → Prop}

theorem tolerant_tracks (c : Context) (F : Definitions) (K : NodeId → Prop) :
    Tolerant c (Tracks c F K) := .of_calm fun calm L => books_of_calm L calm

theorem tracks_defineVariable (d : VarDecl) : Always (Tracks c F K) (defineVariable c d) := by
  refine (tolerant_tracks c F K).defineVariable (fun _ _ L => .of_funcs_eq L rfl rfl rfl rfl) ?_
  intro content s g s' h L
  cases h
  exact .of_funcs_eq L rfl rfl rfl rfl

/-! ## Bodies -/

/-- When a body begins, its definition counts as lowered. -/
theorem ledger_begin (L : Ledger c F s) {id : Ir.FuncId} (ho : Owns F s h id)
    (hnew : h.site.id ∉ s.lowered) (exported : Bool) (b : Body) :
    Ledger c F ((s.beginBody h.site.id id exported).setBody b) := by
  have hsize : (s.beginBody h.site.id id exported).module.funcs.size = s.module.funcs.size := by
    cases exported with
    | true => exact Array.size_modify
    | false => rfl
  exact
    { init := L.init
      size := fun name i hn => by
        rw [State.setBody_module, hsize]
        exact L.size name i hn
      inj := L.inj
      active := fun f i hf => L.active f i ⟨hf.1, hf.2⟩
      symbol := fun f i hf => L.symbol f i ⟨hf.1, hf.2⟩
      single := fun f g i j hf hg => L.single f g i j ⟨hf.1, hf.2⟩ ⟨hg.1, hg.2⟩
      begun := fun key hk => by
        rcases List.mem_cons.mp hk with rfl | hk
        · exact ⟨h, id, rfl, ho.1, ho.2⟩
        · obtain ⟨f, i, he, hf⟩ := L.begun key hk
          exact ⟨f, i, he, hf.1, hf.2⟩
      nodup := List.nodup_cons.mpr ⟨hnew, L.nodup⟩ }

theorem filled_begin {i id : Ir.FuncId} (exported : Bool) (b : Body) {key : NodeId}
    (hi : Filled s i) : Filled ((s.beginBody key id exported).setBody b) i := by
  cases exported with
  | true => exact hi.modify (g := fun f => { f with isExported := true }) rfl fun _ hb => hb
  | false => exact hi

/-- Installing blocks fills a function and leaves the ledger alone. -/
theorem install_books (L : Ledger c F s) (outer : Body) (trace : List Event) :
    Bookkeeping c F K s { s.install outer with trace } := by
  refine .of_same L rfl rfl rfl (Nat.le_of_eq Array.size_modify.symm) fun i hi => ?_
  exact hi.modify (g := fun f => { f with blocks := s.body.closed }) rfl fun _ _ =>
    List.cons_ne_nil _ _

theorem filled_install {id : Ir.FuncId} (hid : s.body.fn = id) (hlt : id < s.module.funcs.size)
    (outer : Body) (trace : List Event) : Filled { s.install outer with trace } id := by
  refine ⟨{ s.module.funcs[id] with blocks := s.body.closed }, ?_, List.cons_ne_nil _ _⟩
  change (s.module.funcs.modify s.body.fn fun f => { f with blocks := s.body.closed })[id]? = _
  rw [Array.getElem?_modify, if_pos hid, Array.getElem?_eq_getElem hlt]
  rfl

/-- The steps inside a body keep the books, and then its function has blocks. -/
theorem books_enclose {id : Ir.FuncId} {exported : Bool} {b : Body} {s₁ : State}
    (ho : Owns F s h id) (hfn : s₁.body.fn = id)
    (p : Bookkeeping c F K ((s.beginBody h.site.id id exported).setBody b) s₁) (outer : Body)
    (trace : List Event) : Bookkeeping c F K s { s₁.install outer with trace } := by
  have p₂ : Bookkeeping c F K s₁ { s₁.install outer with trace } := install_books p.ledger _ _
  have ho₁ : Owns F s₁ h id := p.owns h id ⟨ho.1, ho.2⟩
  have hfilled : Filled { s₁.install outer with trace } id :=
    filled_install hfn (p.ledger.size _ _ (p.ledger.symbol h id ho₁).1) _ _
  refine ⟨p₂.ledger, ?_, ?_, ?_, ?_, ?_⟩
  · exact fun f i hi => p₂.owns f i (p.owns f i ⟨hi.1, hi.2⟩)
  · exact fun i hi => p₂.filled i (p.filled i (filled_begin exported _ hi))
  · exact fun key hk => p.lowered (List.mem_cons_of_mem _ hk)
  · intro key hk hn
    by_cases hkey : key = h.site.id
    · exact ⟨h, id, hkey.symm, p₂.owns h id ho₁, hfilled⟩
    · obtain ⟨f, i, he, hi, hfi⟩ := p.done key hk (by
        rintro (_ | ⟨_, hm⟩)
        · exact hkey rfl
        · exact hn hm)
      exact ⟨f, i, he, p₂.owns f i hi, p₂.filled i hfi⟩
  · intro f hw
    rcases p₂.waits f hw with hw | hk
    · rcases p.waits f hw with ⟨⟨i, hi⟩, hn⟩ | hk
      · exact .inl ⟨⟨i, hi.1, hi.2⟩, fun hm => hn (List.mem_cons_of_mem _ hm)⟩
      · exact .inr hk
    · exact .inr hk

theorem bodySteps_fn {id : Ir.FuncId} {site : Site} {params : List (String × Ir.Ty)}
    {step : Lower Unit} {R : Reading} {head : Option FuncHead} {result : Ty}
    (hreal : Realizes step R) (hs : bodySteps c id site params step
      (s.setBody { fn := id, head, result }) = .ok u s') : s'.body.fn = id := by
  obtain ⟨-, s₂, code, f, s₃, -, hg, hl, -, hf, hbody⟩ := bodySteps_reads hreal hs
  rw [hbody, Body.finish_fn]
  exact (Builds.seq (.code rfl hg) (hreal.built s₂ f s₃ hf hl)).kept.fn

/-- A body is lowered at most once, and fills the function of its definition. -/
theorem fillBody_books (hd : F h body) {step : Lower Unit} {R : Reading}
    (hreal : Realizes step R) (hstep : Always (Tracks c F K) step)
    (hf : fillBody c h body step s = .ok u s') (L : Ledger c F s) :
    Bookkeeping c F K s s' ∧ (h.hasBody body = true → h.Active c → h.site.id ∈ s'.lowered) := by
  by_cases henter : h.hasBody body = true ∧ h.Active c
  · obtain ⟨hb, hdecl, params, result, htype⟩ := henter
    obtain ⟨id, site, types, exported, s₁, trace, hproto, -, hnew, hs, rfl⟩ :=
      fillBody_enters hb hdecl htype hf
    have ho : Owns F s h id := ⟨⟨body, hd, hb⟩, hproto⟩
    have books := tolerant_tracks c F K
    have steps : Always (Tracks c F K)
        (bodySteps c id site ((h.params.map Prod.fst).zip types) step) :=
      .bind' (books.storeParams (fun _ _ L => .of_funcs_eq L rfl rfl rfl rfl) id site 0 _) fun _ =>
        .bind' hstep fun _ => books.touches.closeBody
    have p₁ := steps _ _ _ hs (ledger_begin L ho hnew exported _)
    exact ⟨books_enclose ho (bodySteps_fn hreal hs) p₁ _ _,
      fun _ _ => p₁.lowered List.mem_cons_self⟩
  · rw [fillBody_skips henter hf]
    exact ⟨.refl L, fun hb ha => absurd ⟨hb, ha⟩ henter⟩

/-- A definition among statements is declared, if it was not yet, and its body is lowered. -/
theorem funcDecl_books (ident : F.Identified) (hd : F h body)
    (hstep : Always (Tracks c F K) (blockStatements c body))
    (hr : statement c (.funcDecl h body) s = .ok u s') (L : Ledger c F s) :
    Bookkeeping c F K s s' ∧ (s.body.cursor.isSome → h.hasBody body = true → h.Active c →
      h.site.id ∈ s'.lowered) := by
  have hreal := realizes_blockStatements c body
  unfold statement at hr
  rcases whenLive_eq_ok.mp hr with ⟨-, hr⟩ | ⟨hdead, rfl⟩
  · rw [get_bind_apply] at hr
    rcases ite_eq_ok.mp hr with ⟨-, hr⟩ | ⟨-, hr⟩
    · obtain ⟨_, s₁, h₁, h₂⟩ := bind_eq_ok.mp hr
      have p₁ := enterPrototype_books ident hd h₁ L
      obtain ⟨p₂, hlow⟩ := fillBody_books hd hreal hstep h₂ p₁.ledger
      have both : Bookkeeping c F (fun key => K key ∨ key = h.site.id) s s' :=
        (p₁.mono fun _ hk => .inr hk).trans (p₂.mono fun _ hk => .inl hk)
      refine ⟨both.settle ?_, fun _ => hlow⟩
      rintro f ⟨⟨id, ho⟩, hn⟩ (hk | hk)
      · exact hk
      · -- It was declared here, so its body was lowered here.
        obtain ⟨rfl, hb⟩ := ho.eq_of_id ident hd hk
        exact absurd (hlow hb (p₂.ledger.active f id ho)) hn
    · obtain ⟨p, hlow⟩ := fillBody_books hd hreal hstep hr L
      exact ⟨p, fun _ => hlow⟩
  · refine ⟨.refl L, fun hl => ?_⟩
    rw [hdead] at hl
    cases hl

end Lower

end TreeLowering
