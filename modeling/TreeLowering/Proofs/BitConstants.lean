import TreeLowering.Ir.Print
import TreeLowering.Proofs.Oversight
import TreeLowering.Proofs.Storage
import TreeLowering.Proofs.Unit

/-!
The integer constants of one bit in a lowered unit. An integer of one bit is written as a truth
value, so only zero and one have a text (`Ir.Module.print_eq_ok`).

Lowering makes truth values of its own accord, and other integers of one bit only for an expression
that brings one (`Expr.BringsBit`). `Truthful c U s` says this of all constants in a state. Steps
that bind no name keep it if the code that they lay out has such operands (`Truthful.emits`), and
binding more names only lets more expressions bring such an integer (`Brings.mono`).

Main statement: `one_bit_constants`.
-/
namespace TreeLowering

open Lower

/-! ## Constants of one bit -/

namespace Ir

section
variable (X : Int → Prop)

/-- Whether a value is no integer of one bit besides the truth values and those in `X`. -/
def Value.BitIn (v : Value) : Prop := ∀ x, v = .int 1 x → x = 0 ∨ x = 1 ∨ X x

def Inst.BitsIn (inst : Inst) : Prop := ∀ v ∈ inst.operands, v.BitIn X

def Term.BitsIn (t : Term) : Prop := ∀ v ∈ t.operands, v.BitIn X

abbrev Block.BitsIn (block : Block) : Prop := block.All (Inst.BitsIn X) (Term.BitsIn X)

/-- The operands and the initializers of a module are no integers of one bit besides the truth
    values and those in `X`. -/
structure Module.BitsIn (m : Module) : Prop where
  blocks : ∀ f ∈ m.funcs, ∀ block ∈ f.blocks, block.BitsIn X
  inits : ∀ d ∈ m.globals, d.init.BitIn X

end

variable {X X' : Int → Prop}

theorem Value.bitIn_of_isBit {v : Value} (h : v.isBit = false) : v.BitIn X := by
  rintro x rfl
  cases h

theorem Value.bitIn_boolConstant (b : Bool) : (boolConstant b).BitIn X := by
  intro x h
  cases b <;> cases h
  · exact .inl rfl
  · exact .inr (.inl rfl)

section
variable (hX : ∀ x, X x → x = 0 ∨ x = 1 ∨ X' x)

include hX

theorem Value.BitIn.mono {v : Value} (h : v.BitIn X) : v.BitIn X' := by
  intro x hx
  rcases h x hx with rfl | rfl | hx
  · exact .inl rfl
  · exact .inr (.inl rfl)
  · exact hX x hx

theorem Block.BitsIn.mono {block : Block} (h : block.BitsIn X) : block.BitsIn X' :=
  ⟨fun line hl v hv => (h.lines line hl v hv).mono hX,
    fun t ht v hv => (h.term t ht v hv).mono hX⟩

theorem Module.BitsIn.mono {m : Module} (h : m.BitsIn X) : m.BitsIn X' :=
  ⟨fun f hf block hb => Block.BitsIn.mono hX (h.blocks f hf block hb),
    fun d hd => (h.inits d hd).mono hX⟩

end

/-! ## Texts -/

/-- A step of printing gives a result. -/
def Prints {α : Type} (x : Except Breach α) : Prop := ∃ a, x = .ok a

namespace Prints

variable {α β : Type} {x : Except Breach α}

theorem ok (a : α) : Prints (.ok a : Except Breach α) := ⟨a, rfl⟩

theorem map {f : α → β} : Prints x → Prints (x.map f) := by
  rintro ⟨a, rfl⟩
  exact ok (f a)

theorem bind {f : α → Except Breach β} (hf : ∀ a, Prints (f a)) : Prints x → Prints (x >>= f) := by
  rintro ⟨a, rfl⟩
  exact hf a

theorem mapM {f : α → Except Breach β} :
    ∀ {l : List α}, (∀ a ∈ l, Prints (f a)) → Prints (l.mapM f)
  | [], _ => ok []
  | a :: l, h => by
    obtain ⟨first, rest⟩ := List.forall_mem_cons.mp h
    rw [List.mapM_cons]
    exact first.bind fun b => (mapM rest).bind fun bs => ok (b :: bs)

end Prints

/-- No integer of one bit but a truth value. -/
abbrev Value.Writable (v : Value) : Prop := v.BitIn fun _ => False

namespace Context

variable (c : Context)

theorem prints_ident {v : Value} (h : v.Writable) : Prints (c.ident v) := by
  cases v with
  | int w x =>
    by_cases hw : w = 1
    · subst hw
      rcases h x rfl with rfl | rfl | hx
      · exact .ok "false"
      · exact .ok "true"
      · exact hx.elim
    · exact ⟨_, if_neg hw⟩
  | _ => exact ⟨_, rfl⟩

theorem prints_inst {inst : Inst} (h : inst.BitsIn fun _ => False) : Prints (c.inst inst) := by
  have second : ∀ {x y : Value}, y ∈ inst.operands → Prints (c.operands x y) := fun hy =>
    (c.prints_ident (h _ hy)).map
  cases inst with
  | arith | icmp | fcmp => exact (second (by simp [Inst.operands])).map
  | phi incoming =>
    refine Prints.bind (fun _ => ⟨_, rfl⟩) (.mapM fun p hp => ?_)
    exact (c.prints_ident (h p.1 (List.mem_map_of_mem hp))).map
  | call callee args =>
    obtain ⟨hc, ha⟩ := List.forall_mem_cons.mp h
    refine (c.prints_ident hc).bind fun _ => Prints.bind (fun _ => ⟨_, rfl⟩) (.mapM fun v hv => ?_)
    exact (c.prints_ident (ha v hv)).map
  | alloca t count => cases count <;> exact ⟨_, rfl⟩
  | _ => exact ⟨_, rfl⟩

theorem prints_block {b : Block} (h : b.BitsIn fun _ => False) (ht : b.term.isSome) :
    Prints (c.block b) := by
  obtain ⟨t, ht⟩ := Option.isSome_iff_exists.mp ht
  refine Prints.bind (fun lines => ?_) (.mapM fun l hl => (c.prints_inst (h.lines l hl)).map)
  rw [ht]
  exact ⟨_, rfl⟩

theorem prints_function (fn : FuncId) {f : Function}
    (h : ∀ b ∈ f.blocks, b.BitsIn fun _ => False) (ht : ∀ b ∈ f.blocks, b.term.isSome) :
    Prints (c.function fn f) := by
  unfold function
  cases hf : f.blocks with
  | nil => exact ⟨_, rfl⟩
  | cons first rest =>
    rw [hf] at h ht
    exact Prints.bind (fun _ => ⟨_, rfl⟩) (.mapM fun b hb => prints_block _ (h b hb) (ht b hb))

theorem prints_globalLine {g : Global} (ident : String) (h : g.init.Writable) :
    Prints (c.globalLine g ident) :=
  (c.prints_ident h).bind fun _ => ⟨_, rfl⟩

end Context

/-- A module of finished blocks has a text if its constants of one bit are truth values. -/
theorem Module.print_eq_ok {m : Module} (h : m.BitsIn fun _ => False)
    (ht : ∀ f ∈ m.funcs, ∀ b ∈ f.blocks, b.term.isSome) : ∃ text, m.print = .ok text := by
  have globals : Prints ((m.globals.toList.zip m.context.globals.toList).mapM fun p =>
      m.context.globalLine p.1 p.2) := .mapM fun p hp =>
    m.context.prints_globalLine p.2 (h.inits p.1 (Array.mem_toList_iff.mp (List.of_mem_zip hp).1))
  have funcs : Prints (m.funcs.toList.zipIdx.mapM fun p => m.context.function p.2 p.1) :=
    .mapM fun p hp => by
      have mem := Array.mem_toList_iff.mp (List.fst_mem_of_mem_zipIdx hp)
      exact m.context.prints_function p.2 (h.blocks _ mem) (ht _ mem)
  exact globals.bind fun _ => funcs.bind fun _ => ⟨_, rfl⟩

end Ir

/-! ## What a state holds -/

/-- The integers of one bit that expressions of the nodes `U` bring, where names are bound as in a
    list. -/
def Brings (c : Context) (U : Node → Prop) (names : List (ObjectId × Ir.Value)) (x : Int) : Prop :=
  ∃ n, U n ∧ ∃ e ∈ n.expressions, ∃ e' ∈ e.within, e'.BringsBit c (· ⊆ names) x

/-- The operands in a body are no integers of one bit besides the truth values and those in `X`. -/
abbrev Body.BitsIn (X : Int → Prop) (b : Body) : Prop := b.All (Ir.Inst.BitsIn X) (Ir.Term.BitsIn X)

/-- The constants of one bit in a state are truth values or brought by expressions. -/
structure Truthful (c : Context) (U : Node → Prop) (s : State) : Prop where
  module : s.module.BitsIn (Brings c U s.values)
  body : s.body.BitsIn (Brings c U s.values)
  bound : ∀ v x, s.values.lookup v = some x → x.BitIn (Brings c U s.values)

/-- Globals keep their initializers, and those of new ones are no integers of one bit. -/
def KeepsInits (s s' : State) : Prop :=
  ∀ d ∈ s'.module.globals, d ∈ s.module.globals ∨ d.init.isBit = false

section
variable {c : Context} {U : Node → Prop} {s s' : State}

theorem Expr.BringsBit.mono {B B' : List (ObjectId × Ir.Value) → Prop} {e : Expr} {x : Int}
    (h : e.BringsBit c B x) (hB : ∀ values, B values → B' values) : e.BringsBit c B' x := by
  cases h with
  | literal type => exact .literal type
  | down resolved type steps down => exact .down resolved type steps down
  | complement bound value type => exact .complement (hB _ bound) value type

/-- The more names are bound, the more integers of one bit there may be. -/
theorem Brings.mono {names names' : List (ObjectId × Ir.Value)} {x : Int}
    (h : names ⊆ names') (hx : Brings c U names x) : Brings c U names' x := by
  obtain ⟨n, hn, e, he, e', hm, hb⟩ := hx
  exact ⟨n, hn, e, he, e', hm, hb.mono fun _ hv => List.Subset.trans hv h⟩

/-! ### Globals -/

instance : Lasting KeepsInits where
  refl _ _ hd := .inl hd
  trans h₁ h₂ d hd := (h₂ d hd).elim (h₁ d) .inr

namespace KeepsInits

theorem of_eq (h : s'.module.globals = s.module.globals) : KeepsInits s s' :=
  fun _ hd => .inl (h ▸ hd)

theorem push {d : Ir.Global} (h : s'.module.globals = s.module.globals.push d)
    (hd : d.init.isBit = false) : KeepsInits s s' := by
  intro x hx
  rw [h, Array.mem_push] at hx
  rcases hx with hx | rfl
  · exact .inl hx
  · exact .inr hd

end KeepsInits

namespace Lower

theorem keepsInits_addGlobal (name : String) (type : Ir.Ty) :
    Always KeepsInits (addGlobal name type) := by
  intro s g s' h
  obtain ⟨-, unique, names, rfl⟩ := addGlobal_eq_ok h
  exact .push rfl rfl

theorem touches_keepsInits (c : Context) : Touches c KeepsInits := by
  have body : ∀ s b, KeepsInits s (s.setBody b) := fun _ _ => .of_eq rfl
  exact
    { emit := fun _ _ _ => always_emitAt body .cursor _ _
      instruction := always_emitAt body .cursor
      slot := fun _ _ => always_emitAt body .vars _ _
      openBlock := always_openBlock body
      terminate := always_terminate body
      moveTo := always_moveTo body
      buffer := keepsInits_addGlobal _
      instructionType := always_instructionType (fun _ _ => .of_eq rfl)
        (fun _ _ _ s t s' h => by cases h; exact .of_eq rfl)
        fun t ts => by
          unfold setFields
          split
          · exact .modify' fun _ => .of_eq rfl
          · exact .pure' _ }

theorem keepsInits_stringValue (site : Site) (content : Bytes) :
    Always KeepsInits (stringValue c site content) := by
  intro s v s' h
  obtain ⟨copy, g, buffer, b, b', s₀, s₁, s₂, hbuffer, h₁, h₂, -, rfl⟩ := stringValue_eq_ok h
  have k₀ : KeepsInits s s₀ := by
    split at hbuffer
    · rw [hbuffer.2]
      exact .of_eq rfl
    · exact Lasting.trans (.of_eq rfl : KeepsInits s (s.setBody b))
        (keepsInits_addGlobal _ _ _ _ _ hbuffer.2)
  have k₁ : KeepsInits (s₀.setBody b') s₁ := by
    obtain ⟨id, -, ⟨-, rfl⟩ | ⟨-, -, rfl⟩⟩ := copyIntrinsic_eq_ok h₁ <;> exact .of_eq rfl
  have k₂ : KeepsInits s₁ s₂ := by
    obtain ⟨g', -, ⟨-, rfl⟩ | ⟨-, -, d, names, isData, rfl⟩⟩ := internedData_eq_ok h₂
    · exact .of_eq rfl
    · exact .push rfl (by rw [isData.init]; rfl)
  intro d hd
  exact Lasting.trans k₀ (Lasting.trans k₁ k₂) d hd

theorem records_keepsInits (c : Context) : Records c fun _ => KeepsInits :=
  { touches_keepsInits c with string := keepsInits_stringValue }

end Lower

/-! ### Steps -/

/-- What may be an operand while names are bound as in a list. -/
def bitPolicy (c : Context) (U : Node → Prop) (fn : Ir.FuncId)
    (names : List (ObjectId × Ir.Value)) : Policy where
  fn := fn
  Operand v := v.BitIn (Brings c U names)
  Variable _ := True
  Bindings := (· ⊆ names)
  constant _ _ h := Ir.Value.bitIn_of_isBit h
  bit := Ir.Value.bitIn_boolConstant
  computed _ _ := Ir.Value.bitIn_of_isBit rfl

theorem admits_bitPolicy {n : Node} (hn : U n) {e : Expr} (he : e ∈ n.expressions)
    (fn : Ir.FuncId) (names : List (ObjectId × Ir.Value)) :
    (bitPolicy c U fn names).Admits c e := by
  refine Policy.admits_of_names e (Expr.names_of_forall (fun _ _ _ _ => trivial) e) ?_
  intro e' hm x hx y hy
  cases hy
  exact .inr (.inr ⟨n, hn, e, he, e', hm, hx⟩)

theorem Body.BitsIn.mono {X X' : Int → Prop} (hX : ∀ x, X x → x = 0 ∨ x = 1 ∨ X' x) {b : Body}
    (h : b.BitsIn X) : b.BitsIn X' :=
  ⟨fun line hl v hv => (h.vars line hl v hv).mono hX,
    fun block hm => Ir.Block.BitsIn.mono hX (h.blocks block hm)⟩

theorem Ir.Module.BitsIn.keep {X : Int → Prop} (h : s.module.BitsIn X) (hf : FillsNone s s')
    (hg : KeepsInits s s') : s'.module.BitsIn X := by
  refine ⟨fun f hm block hb => ?_, fun d hd => ?_⟩
  · obtain ⟨i, hi⟩ := Array.mem_iff_getElem?.mp hm
    obtain ⟨f₀, hf₀, he⟩ := hf i f hi (List.ne_nil_of_mem hb)
    exact h.blocks f₀ (Array.mem_of_getElem? hf₀) block (he ▸ hb)
  · rcases hg d hd with hd | hd
    · exact h.inits d hd
    · exact Ir.Value.bitIn_of_isBit hd

theorem mem_modify_cases {α : Type} {xs : Array α} {i : Nat} {f : α → α} {a : α}
    (h : a ∈ xs.modify i f) : a ∈ xs ∨ ∃ b ∈ xs, a = f b := by
  obtain ⟨j, hj⟩ := Array.mem_iff_getElem?.mp h
  rw [Array.getElem?_modify] at hj
  split at hj
  · obtain ⟨b, hb, rfl⟩ := Option.map_eq_some_iff.mp hj
    exact .inr ⟨b, Array.mem_of_getElem? hb, rfl⟩
  · exact .inl (Array.mem_of_getElem? hj)

namespace Truthful

variable (T : Truthful c U s)

include T

theorem setBody {b : Body} (hb : b.BitsIn (Brings c U s.values)) : Truthful c U (s.setBody b) :=
  ⟨T.module, hb, T.bound⟩

/-- A step that fills no function, with what it adds to the body and to the names. -/
theorem keep (hv : s.values ⊆ s'.values)
    (bound : ∀ v x, s'.values.lookup v = some x →
      s.values.lookup v = some x ∨ x.BitIn (Brings c U s.values))
    (hf : FillsNone s s') (hg : KeepsInits s s')
    (hb : s'.body.BitsIn (Brings c U s.values)) : Truthful c U s' := by
  have more : ∀ x, Brings c U s.values x → x = 0 ∨ x = 1 ∨ Brings c U s'.values x :=
    fun x hx => .inr (.inr (hx.mono hv))
  refine ⟨(T.module.keep hf hg).mono more, Body.BitsIn.mono more hb, fun v x hx => ?_⟩
  rcases bound v x hx with hx | hx
  · exact (T.bound v x hx).mono more
  · exact hx.mono more

/-- Code with operands that may be, and its result. -/
theorem emits {α : Type} {m : Lower α} {R : α → Prop} {a : α} (h : m s = .ok a s')
    (he : Emits (bitPolicy c U s.body.fn s.values) m R) (hg : Always KeepsInits m) :
    Truthful c U s' ∧ s'.values = s.values ∧ R a := by
  obtain ⟨hr, calm, code, grows⟩ :=
    he s a s' h rfl ⟨List.Subset.refl _, fun v x _ => T.bound v x⟩
  refine ⟨T.keep ?_ ?_ (.of_calm calm) (hg s a s' h) ?_, calm.values, hr⟩
  · rw [calm.values]
    exact List.Subset.refl _
  · exact fun v x hx => .inl (calm.values ▸ hx)
  · refine grows.all (fun _ ho => ho) (fun _ ho => ho) (fun isAnd => ?_) T.body
    cases isAnd with
    | true => exact Ir.Value.bitIn_boolConstant false
    | false => exact Ir.Value.bitIn_boolConstant true

/-- An expression of a node that is lowered gives a value that may be an operand. -/
theorem valueAs {n : Node} (hn : U n) {e : Expr} (he : e ∈ n.expressions) {type : Ty} {v : Ir.Value}
    (h : valueAs c e type s = .ok v s') :
    Truthful c U s' ∧ s'.values = s.values ∧ v.BitIn (Brings c U s'.values) := by
  obtain ⟨T', hv, hr⟩ := T.emits h (emits_valueAs e type (admits_bitPolicy hn he _ _))
    ((records_keepsInits c).valueAs e type)
  exact ⟨T', hv, hv ▸ hr⟩

theorem bind (v : ObjectId) {x : Ir.Value} (hx : x.BitIn (Brings c U s.values)) :
    Truthful c U { s with values := (v, x) :: s.values } := by
  refine T.keep (List.subset_cons_self _ _) (fun w y hy => ?_) (fun _ f hf _ => ⟨f, hf, rfl⟩)
    (.of_eq rfl) T.body
  rcases lookup_cons_cases hy with hy | ⟨-, rfl⟩
  · exact .inl hy
  · exact .inr hx

theorem terminate {t : Ir.Term} {u : Unit} (h : terminate t s = .ok u s')
    (ht : t.BitsIn (Brings c U s.values)) : Truthful c U s' ∧ s'.values = s.values := by
  obtain ⟨-, rfl⟩ := terminate_eq_ok.mp h
  exact ⟨T.setBody (T.body.finish ht), rfl⟩

/-- A global may get an initializer that may be an operand. -/
theorem modifyGlobal {g : Ir.GlobalId} {f : Ir.Global → Ir.Global}
    (hf : ∀ d, (f d).init.BitIn (Brings c U s.values)) :
    Truthful c U
      { s with module := { s.module with globals := s.module.globals.modify g f } } := by
  refine ⟨⟨T.module.blocks, fun d hd => ?_⟩, T.body, T.bound⟩
  rcases mem_modify_cases hd with hd | ⟨d, -, rfl⟩
  · exact T.module.inits d hd
  · exact hf d

/-- A variable gets a slot of its own, where a value is stored. -/
theorem home {spot : Place} {type : Ir.Ty} {init slot : Ir.Value}
    (hi : init.BitIn (Brings c U s.values)) {s₁ s₂ : State} {u : Unit}
    (h₁ : stackSlot type none s = .ok slot s₁) (h₂ : storeAt spot init slot s₁ = .ok u s₂)
    (v : ObjectId) : Truthful c U { s₂ with values := (v, slot) :: s₂.values } ∧
      s.values ⊆ (v, slot) :: s₂.values := by
  have body : ∀ s b, KeepsInits s (s.setBody b) := fun _ _ => .of_eq rfl
  obtain ⟨T₁, hv₁, hs⟩ := T.emits h₁ (emits_stackSlot type (by simp))
    ((touches_keepsInits c).slot _ _)
  have hs : slot.BitIn (Brings c U s₁.values) := hv₁ ▸ hs
  obtain ⟨T₂, hv₂, -⟩ := T₁.emits h₂ (emits_storeAt spot (hv₁ ▸ hi) hs)
    (always_storeAt (fun _ _ _ => always_emitAt body spot _ _) _ _)
  refine ⟨T₂.bind v (hv₂ ▸ hs), ?_⟩
  rw [hv₂, hv₁]
  exact List.subset_cons_self _ _

theorem begin (key : NodeId) (id : Ir.FuncId) (exported : Bool) :
    Truthful c U (s.beginBody key id exported) := by
  refine ⟨⟨fun f hf => ?_, ?_⟩, T.body, T.bound⟩
  · cases exported with
    | false => exact T.module.blocks f hf
    | true =>
      change f ∈ s.module.funcs.modify id fun f => { f with isExported := true } at hf
      rcases mem_modify_cases hf with hf | ⟨g, hg, rfl⟩
      · exact T.module.blocks f hf
      · exact T.module.blocks g hg
  · cases exported <;> exact T.module.inits

/-- A function gets the blocks of a body, and another body comes back. -/
theorem install {outer : Body} (ho : outer.BitsIn (Brings c U s.values)) :
    Truthful c U (s.install outer) := by
  refine ⟨⟨fun f hf block hb => ?_, T.module.inits⟩, ho, T.bound⟩
  change f ∈ s.module.funcs.modify s.body.fn fun f => { f with blocks := s.body.closed } at hf
  rcases mem_modify_cases hf with hf | ⟨g, -, rfl⟩
  · exact T.module.blocks f hf block hb
  · exact T.body.closed nofun block hb

end Truthful

/-! ## Statements -/

variable (c U) in
/-- A step keeps the constants of one bit what they are to be, and only binds more names. -/
def StaysTruthful (s s' : State) : Prop :=
  Truthful c U s → Truthful c U s' ∧ s.values ⊆ s'.values

instance : Lasting (StaysTruthful c U) where
  refl _ T := ⟨T, List.Subset.refl _⟩
  trans h₁ h₂ T := by
    obtain ⟨T₁, sub₁⟩ := h₁ T
    obtain ⟨T₂, sub₂⟩ := h₂ T₁
    exact ⟨T₂, List.Subset.trans sub₁ sub₂⟩

namespace Lower

theorem truthful_of_emits {α : Type} {m : Lower α} {R : α → Prop}
    (he : ∀ fn names, Emits (bitPolicy c U fn names) m R) (hg : Always KeepsInits m) :
    Always (StaysTruthful c U) m := by
  intro s a s' h T
  obtain ⟨T', hv, -⟩ := T.emits h (he _ _) hg
  exact ⟨T', hv ▸ List.Subset.refl _⟩

theorem truthful_terminate {t : Ir.Term} (ht : ∀ v ∈ t.operands, v.isBit = false) :
    Always (StaysTruthful c U) (terminate t) := by
  intro s u s' h T
  obtain ⟨T', hv⟩ := T.terminate h fun v hm => Ir.Value.bitIn_of_isBit (ht v hm)
  exact ⟨T', hv ▸ List.Subset.refl _⟩

theorem truthful_moveNowhere : Always (StaysTruthful c U) moveNowhere := .modify' fun _ T =>
  ⟨T.setBody ⟨T.body.vars, T.body.blocks⟩, List.Subset.refl _⟩

/-- A function returns nothing or the value of an expression. -/
theorem truthful_leave {site : Site} {e : Expr} (hn : U (.ret site e)) :
    Always (StaysTruthful c U) (leave c site e) := by
  have nothing : Always (StaysTruthful c U) (terminate (.ret none) >>= fun _ => moveNowhere) :=
    .bind' (truthful_terminate (by simp [Ir.Term.operands])) fun _ => truthful_moveNowhere
  intro s u s' h
  unfold leave at h
  rw [get_bind_apply] at h
  cases hh : s.body.head with
  | none => simp [hh] at h
  | some head =>
    simp only [hh] at h
    rcases ite_eq_ok.mp h with ⟨-, h⟩ | ⟨-, h⟩
    · rcases ite_eq_ok.mp h with ⟨-, h⟩ | ⟨-, h⟩
      · exact nothing _ _ _ h
      · simp at h
    · rcases ite_eq_ok.mp h with ⟨-, h⟩ | ⟨-, h⟩
      · simp at h
      · intro T
        obtain ⟨v, s₁, h₁, h⟩ := bind_eq_ok.mp h
        obtain ⟨_, s₂, h₂, h₃⟩ := bind_eq_ok.mp h
        obtain ⟨T₁, hv₁, hr⟩ := T.valueAs hn List.mem_cons_self h₁
        obtain ⟨T₂, hv₂⟩ := T₁.terminate h₂ (by simpa [Ir.Term.BitsIn, Ir.Term.operands] using hr)
        obtain ⟨T₃, sub⟩ := truthful_moveNowhere _ _ _ h₃ T₂
        exact ⟨T₃, (hv₂.trans hv₁) ▸ sub⟩

/-! ## Definitions -/

theorem truthful_bindVariable (v : ObjectId) {x : Ir.Value} (hx : x.isBit = false) :
    Always (StaysTruthful c U) (bindVariable v x) := .modify' fun _ T =>
  ⟨T.bind v (Ir.Value.bitIn_of_isBit hx), List.subset_cons_self _ _⟩

theorem truthful_defineGlobal {d : VarDecl} (hn : U (.varDecl d)) (v : ObjectId) (type : Ir.Ty) :
    Always (StaysTruthful c U) (defineGlobal c d v type) := by
  have add : Always (StaysTruthful c U) (addGlobal d.name type) :=
    truthful_of_emits (fun _ _ => .of_steady (steady_addGlobal _ _) fun _ _ _ _ => trivial)
      (keepsInits_addGlobal _ _)
  have bind : ∀ g, Always (StaysTruthful c U) (bindVariable v (.global g type)) := fun g =>
    truthful_bindVariable v rfl
  refine .bind' add fun g => .ite' (bind g) ?_
  intro s u s' h T
  obtain ⟨init, s₁, h₁, h⟩ := bind_eq_ok.mp h
  obtain ⟨T₁, hv₁, hi⟩ := T.valueAs hn List.mem_cons_self h₁
  rcases ite_eq_ok.mp h with ⟨-, h⟩ | ⟨-, h⟩
  · obtain ⟨_, s₂, h₂, h₃⟩ := bind_eq_ok.mp h
    cases h₂
    obtain ⟨T₃, sub⟩ := bind g _ _ _ h₃ (T₁.modifyGlobal fun _ => hi)
    exact ⟨T₃, hv₁ ▸ sub⟩
  · obtain ⟨_, s₂, h₂, h₃⟩ := bind_eq_ok.mp h
    obtain ⟨T₂, hv₂, -⟩ := T₁.emits h₂ (emits_store hi (Ir.Value.bitIn_of_isBit rfl))
      ((touches_keepsInits c).store _ _)
    obtain ⟨T₃, sub⟩ := bind g _ _ _ h₃ T₂
    exact ⟨T₃, (hv₂.trans hv₁) ▸ sub⟩

theorem truthful_defineLocal {d : VarDecl} (hn : U (.varDecl d)) (v : ObjectId) (type : Ir.Ty) :
    Always (StaysTruthful c U) (defineLocal c d v type) := by
  have rest : ∀ {s s' : State} {u : Unit} {init : Ir.Value}, Truthful c U s →
      init.BitIn (Brings c U s.values) → (do
        let slot ← stackSlot type none
        store init slot
        bindVariable v slot) s = .ok u s' → Truthful c U s' ∧ s.values ⊆ s'.values := by
    intro s s' u init T hi h
    obtain ⟨slot, s₁, h₁, h⟩ := bind_eq_ok.mp h
    obtain ⟨_, s₂, h₂, h₃⟩ := bind_eq_ok.mp h
    cases h₃
    exact T.home hi h₁ h₂ v
  intro s u s' h T
  unfold defineLocal at h
  rcases ite_eq_ok.mp h with ⟨-, h⟩ | ⟨-, h⟩
  · exact rest T (Ir.Value.bitIn_of_isBit rfl) h
  · obtain ⟨init, s₁, h₁, h⟩ := bind_eq_ok.mp h
    obtain ⟨T₁, hv₁, hi⟩ := T.valueAs hn List.mem_cons_self h₁
    obtain ⟨T₂, sub⟩ := rest T₁ hi h
    exact ⟨T₂, hv₁ ▸ sub⟩

theorem truthful_instructionType (t : Ty) : Always (StaysTruthful c U) (instructionType c t) :=
  truthful_of_emits (fun _ _ => .of_steady (steady_instructionType c t) fun _ _ _ _ => trivial)
    ((touches_keepsInits c).instructionType t)

theorem truthful_defineVariable {d : VarDecl} (hn : U (.varDecl d)) :
    Always (StaysTruthful c U) (defineVariable c d) := by
  refine .bind' (.of_asks (asks_variableAt c _ _)) fun v => .ite' (.reject' _ _) ?_
  refine .bind' (truthful_instructionType _) fun type => ?_
  refine .ite' (truthful_defineGlobal hn v type) ?_
  exact .bind' (.of_asks (asks_isLocal c _)) fun _ =>
    .ite' (truthful_defineLocal hn v type) (truthful_defineGlobal hn v type)

theorem truthful_storeParams (fn : Ir.FuncId) (site : Site) :
    ∀ (i : Nat) (params : List (String × Ir.Ty)),
      Always (StaysTruthful c U) (storeParams c fn site i params)
  | _, [] => .pure' _
  | i, (name, type) :: rest => by
    unfold storeParams
    refine .bind' (.of_asks (asks_variableAt c _ _)) fun v => ?_
    intro s u s' h T
    obtain ⟨slot, s₁, h₁, h⟩ := bind_eq_ok.mp h
    obtain ⟨_, s₂, h₂, h⟩ := bind_eq_ok.mp h
    obtain ⟨_, s₃, h₃, h₄⟩ := bind_eq_ok.mp h
    cases h₃
    obtain ⟨T₃, sub₃⟩ := T.home (Ir.Value.bitIn_of_isBit rfl) h₁ h₂ v
    obtain ⟨T₄, sub₄⟩ := truthful_storeParams fn site (i + 1) rest _ _ _ h₄ T₃
    exact ⟨T₄, List.Subset.trans sub₃ sub₄⟩

/-- A prototype has no blocks, and the function that is bound is no integer. -/
theorem truthful_enterPrototype (h : FuncHead) (body : Block) :
    Always (StaysTruthful c U) (enterPrototype c h body) := by
  intro s u s' hr T
  have inits : KeepsInits s s' := by
    refine (touches_keepsInits c).enterPrototype (fun _ _ => .of_eq rfl) (fun _ _ => .of_eq rfl)
      (fun _ _ => .of_eq rfl) ?_ s u s' hr
    intro hasBody result params s id s' hd
    rcases declareSymbol_eq_ok hd with ⟨-, -, f, -, -, -, rfl⟩ | ⟨-, -, rfl⟩ <;> exact .of_eq rfl
  have fills := (bypasses_enterPrototype h body s u s' hr).fills
  have same := (declares_enterPrototype c h body s u s' hr).2
  obtain ⟨-, ⟨-, hv, -⟩ | ⟨-, v, id, -, hv, -⟩⟩ := enterPrototype_eq_ok hr
  · have sub : s.values ⊆ s'.values := hv ▸ List.Subset.refl _
    exact ⟨T.keep sub (fun w x hx => .inl (hv ▸ hx)) fills inits (same ▸ T.body), sub⟩
  · have sub : s.values ⊆ s'.values := hv ▸ List.subset_cons_self _ _
    refine ⟨T.keep sub (fun w x hx => ?_) fills inits (same ▸ T.body), sub⟩
    rw [hv] at hx
    rcases lookup_cons_cases hx with hx | ⟨-, rfl⟩
    · exact .inl hx
    · exact .inr (Ir.Value.bitIn_of_isBit rfl)

theorem truthful_closeBody : Always (StaysTruthful c U) (closeBody c) := by
  refine .get_bind fun s => .ite' (.ite' ?_ ?_) (.pure' _) <;>
    exact truthful_terminate (by simp [Ir.Term.operands])

theorem truthful_fillBody (h : FuncHead) (body : Block) {step : Lower Unit}
    (hs : Always (StaysTruthful c U) step) :
    Always (StaysTruthful c U) (fillBody c h body step) := by
  intro s u s' hf T
  rcases fillBody_eq_ok hf with
    rfl | ⟨params, result, id, site, types, exported, s₁, trace, -, -, -, -, hb, rfl⟩
  · exact ⟨T, List.Subset.refl _⟩
  · have steps : Always (StaysTruthful c U)
        (bodySteps c id site ((h.params.map Prod.fst).zip types) step) :=
      .bind' (truthful_storeParams id site 0 _) fun _ => .bind' hs fun _ => truthful_closeBody
    obtain ⟨T₁, sub⟩ := steps _ _ _ hb ((T.begin h.site.id id exported).setBody (.start _ _ _))
    have back := T₁.install (Body.BitsIn.mono (fun x hx => .inr (.inr (hx.mono sub))) T.body)
    exact ⟨⟨back.module, back.body, back.bound⟩, sub⟩

/-! ## Units -/

/-- The entry is called with nothing. -/
theorem truthful_runEntry (funcs : List (FuncHead × Block)) :
    Always (StaysTruthful c U) (runEntry c funcs) := by
  refine .bind' (.of_asks (asks_entryFunc c funcs)) fun found => ?_
  split
  · exact .pure' _
  · refine .get_bind fun s => .ite' (truthful_of_emits (R := fun _ => True) (fun _ _ => ?_)
      (.discard' ((touches_keepsInits c).instruction _ _))) (.reject' _ _)
    exact (emits_callAt .cursor (Ir.Value.bitIn_of_isBit rfl) (List.forall_mem_nil _)).discard'

theorem completes_truthful (c : Context) (U : Node → Prop) :
    Completes c U (fun _ => ([] : List Empty)) fun _ => StaysTruthful c U where
  absent := rfl
  steer s b h T := by
    refine ⟨T.setBody (h.all (fun t _ ho v hv => (ho v hv).elim) T.body), List.Subset.refl _⟩
  expression e hn := by
    intro s v s' h T
    obtain ⟨T', hv, -⟩ := T.emits h
      (emits_valueOf e (admits_bitPolicy hn List.mem_cons_self _ _))
      ((records_keepsInits c).valueOf e)
    exact ⟨T', hv ▸ List.Subset.refl _⟩
  condition n hn e he := by
    have within : e ∈ n.expressions := by
      cases n with
      | ifStmt | forStmt | whileStmt => exact he
      | _ => cases he
    intro s v s' h b hb T
    obtain ⟨T', hv, hr⟩ := T.emits h (emits_condition e (admits_bitPolicy hn within _ _))
      ((records_keepsInits c).condition e)
    refine ⟨T'.setBody (hb.all (fun yes no w hw => ?_) T'.body), hv ▸ List.Subset.refl _⟩
    rw [List.mem_singleton.mp hw, hv]
    exact hr
  leave _ _ hn := truthful_leave hn
  varDecl _ hn := truthful_defineVariable hn
  structDecl d _ := truthful_of_emits
    (fun _ _ => .of_steady (steady_enterStruct c d) fun _ _ _ _ => trivial)
    ((touches_keepsInits c).enterStruct d)
  report s trace T := ⟨⟨T.module, T.body, T.bound⟩, List.Subset.refl _⟩
  prototype h body _ := truthful_enterPrototype h body
  fillBody h body _ hs := truthful_fillBody h body (hs.of_live (realizes_blockStatements c body))
  runEntry := truthful_runEntry
  finish := truthful_terminate (by
    intro v hv
    cases hl : c.config.isLibrary <;> simp [hl, Ir.Term.operands] at hv
    rw [hv]
    rfl)

/-- In the beginning there is only the init function, and it is empty. -/
theorem truthful_init {s : State} (hf : s.module.funcs = #[]) (hg : s.module.globals = #[])
    (hv : s.values = []) (trace : List Event) :
    Truthful c U
      ((State.declare { s with trace } (initFunction c.config)).setBody { fn := 0 }) := by
  refine ⟨⟨fun f hm block hb => ?_, fun d hd => ?_⟩, .start _ _ _, fun v x hx => ?_⟩
  · obtain rfl : f = initFunction c.config := by simpa [State.declare, hf] using hm
    rw [initFunction_blocks] at hb
    cases hb
  · simp [State.declare, hg] at hd
  · simp [State.declare, hv] at hx

end Lower

/-- A lowered unit has a text if its constants of one bit are truth values. -/
theorem lowerUnit_print_eq_ok {analysis : Analysis} {config : Config} {decls : List Node}
    {m : Ir.Module} (h : (lowerUnit analysis config decls).result = .ok m)
    (truth : m.BitsIn fun _ => False) : ∃ text, m.print = .ok text := by
  refine Ir.Module.print_eq_ok truth fun f hf b hb => ?_
  obtain ⟨i, hi⟩ := Array.mem_iff_getElem?.mp hf
  rcases lowerUnit_finished h i f hi with none | finished
  · rw [none] at hb
    cases hb
  · exact finished.block_ended b hb

/-- The constants of one bit in a lowered unit are truth values or brought by its expressions, with
    names bound as in the end. If these bring nothing else, then all are truth values, and the
    module has a text. -/
theorem one_bit_constants (analysis : Analysis) (config : Config) (decls : List Node)
    (m : Ir.Module) (h : (lowerUnit analysis config decls).result = .ok m) :
    ∃ s, wholeUnit ⟨analysis, config⟩ decls { module := { triple := config.triple } } = .ok () s ∧
      s.module = m ∧ m.BitsIn (Brings ⟨analysis, config⟩ (· ∈ Node.partsAll decls) s.values) ∧
      ((∀ x, Brings ⟨analysis, config⟩ (· ∈ Node.partsAll decls) s.values x → x = 0 ∨ x = 1) →
        (m.BitsIn fun _ => False) ∧ ∃ text, m.print = .ok text) := by
  obtain ⟨s, hs, rfl⟩ := lowerUnit_eq_ok h
  have bits : s.module.BitsIn (Brings ⟨analysis, config⟩ (· ∈ Node.partsAll decls) s.values) := by
    obtain ⟨trace, s₁, h₁, rfl⟩ := wholeUnit_eq_ok hs
    obtain ⟨T, -⟩ := (completes_truthful ⟨analysis, config⟩ _).topLevel (fun _ hm => hm) _ _ _ h₁
      rfl (truthful_init rfl rfl rfl trace)
    exact (T.install (.start _ _ _)).module
  refine ⟨s, hs, rfl, bits, fun only => ?_⟩
  have truth : s.module.BitsIn fun _ => False := bits.mono fun x hx => (only x hx).imp_right .inl
  exact ⟨truth, lowerUnit_print_eq_ok h truth⟩

end

/-- An integer that a name is read to has the type of the variable. -/
theorem Lower.type_of_read {c : Context} {site : Site} {name : String} {s s' : State} {v : Ir.Value}
    {w : Nat} (h : valueOf c (.varRef site name (.known .none)) s = .ok v s')
    (hw : v.type = .int w) :
    ∃ x s₁, c.analysis.resolve name (some site) = some x ∧
      instructionType c (variableType c x) s = .ok (.int w) s₁ := by
  obtain ⟨x, place, hres, -, ⟨func, rfl⟩ | ⟨t, s₁, -, ht, hload⟩⟩ := valueOf_name_eq_ok h
  · cases v with
    | func => cases hw
    | _ => cases func
  · obtain ⟨-, rfl, -⟩ := emitAt_cursor_eq_ok.mp hload
    exact ⟨x, s₁, hres, hw ▸ ht⟩

/-- A function `f` with a parameter `x` of a scalar type, and a result of type `bool`. -/
def flipAnalysis (k : Scalar) : Analysis where
  store :=
    { scopes := #[{ bindings := [("f", 0)] },
        { parent := some 0, bindings := [("x", 1)], function := some 1 }]
      objects := #[
        { name := "f", type := .func [("x", .scalar k)] (.scalar .bool) false
          kind := .variable {} },
        { name := "x", type := .scalar k, kind := .variable {} }] }
  facts := {}

/-- The variable `x`, inside the function. -/
def flipOperand : Expr := .varRef { id := 5, scope := some 1 } "x" (.known .none)

/-- The expression `~x`. -/
def flipped : Expr := .unary { id := 4, scope := some 1 } (.known .complement) flipOperand

/-- The function, which returns the value of an expression. -/
def flipUnit (e : Expr) : List Node :=
  [.funcDecl { site := { id := 1 }, name := "f", params := [("x", none)] }
    (.mk { id := 2, scope := some 1 } [.ret { id := 3, scope := some 1 } e])]

/-- A complement of a number makes a negative constant of its width, but none of one bit. -/
theorem one_bit_constants_flipped : ∃ m : Ir.Module,
    (lowerUnit (flipAnalysis .i32) {}
      (flipUnit (.unary { id := 6 } (.known .not) flipped))).result = .ok m ∧
    (m.BitsIn fun _ => False) ∧ ∃ text, m.print = .ok text := by
  have lowered : ((lowerUnit (flipAnalysis .i32) {}
      (flipUnit (.unary { id := 6 } (.known .not) flipped))).result.toOption).isSome := by
    decide +kernel
  obtain ⟨m, hm⟩ := Option.isSome_iff_exists.mp lowered
  have hm := eq_ok_of_mem_toOption hm
  obtain ⟨s, -, -, -, written⟩ := one_bit_constants (flipAnalysis .i32) {} _ m hm
  refine ⟨m, hm, written fun x hx => ?_⟩
  obtain ⟨n, hn, e, he, e', hm, brings⟩ := hx
  simp only [flipUnit, Node.partsAll, Node.parts, Block.parts, List.append_nil, List.mem_cons,
    List.not_mem_nil, or_false] at hn
  rcases hn with rfl | rfl
  · cases he
  · obtain rfl := List.mem_singleton.mp he
    simp only [flipped, flipOperand, Expr.within, List.mem_cons, List.not_mem_nil, or_false] at hm
    rcases hm with rfl | rfl | rfl
    · cases brings
    · cases brings with
      | complement _ value type =>
        obtain ⟨v, s₁, resolved, read⟩ := type_of_read value type
        have names : (flipAnalysis .i32).resolve "x" (some { id := 5, scope := some 1 }) = some 1 :=
          by decide +kernel
        obtain rfl : v = 1 := Option.some.inj (resolved.symm.trans names)
        cases read
    · cases brings with
      | down _ _ steps _ => cases steps

/-- The complement of a truth value is minus one in one bit, which has no text. -/
theorem complement_unwritable : ∃ m : Ir.Module,
    (lowerUnit (flipAnalysis .bool) {} (flipUnit flipped)).result = .ok m ∧
    (¬ m.BitsIn fun _ => False) ∧ m.print = .error (.bitConstant (-1)) := by
  have lowered : ∃ m ∈ (lowerUnit (flipAnalysis .bool) {} (flipUnit flipped)).result.toOption,
      (match m.print with
        | .error breach => decide (breach = .bitConstant (-1))
        | .ok _ => false) = true := by decide +kernel
  obtain ⟨m, hm, hp⟩ := lowered
  have hm := eq_ok_of_mem_toOption hm
  have printed : m.print = .error (.bitConstant (-1)) := by
    split at hp
    · rename_i breach h
      rw [h, of_decide_eq_true hp]
    · cases hp
  refine ⟨m, hm, fun truth => ?_, printed⟩
  obtain ⟨text, written⟩ := lowerUnit_print_eq_ok hm truth
  cases printed.symm.trans written

end TreeLowering
