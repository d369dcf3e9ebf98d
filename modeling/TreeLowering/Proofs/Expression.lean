import TreeLowering.Proofs.Growth
import TreeLowering.Proofs.Steady
import TreeLowering.Lower.Expression

/-!
What lowering an expression does to the state: it is calm, and the body grows by code
(`emits_valueOf`). A `Policy` says which values may be operands in a function and which variables
may be named; if it admits an expression, every operand that the expression brings and the value it
gives may be operands. The policy that admits everything leaves only the growth.

Integers of one bit are the only constants that a policy may refuse. Most of them are truth values;
`Expr.BringsBit` says which expressions bring others.
-/
namespace TreeLowering

/-- Whether a value is an integer constant of one bit. -/
def Ir.Value.isBit : Ir.Value → Bool
  | .int w _ => w = 1
  | _ => false

/-- A conversion that is decided at once gives a literal, null or zero. -/
theorem Lower.conversion_isConstant {defs : Array Ir.TypeDef} {v v' : Ir.Value}
    {unsigned toUnsigned : Bool} {target : Ir.Ty}
    (h : conversion defs v unsigned toUnsigned target = .constant v') : v'.isConstant = true := by
  revert h
  unfold conversion intToInt intToFloat floatToFloat pointerToPointer intToPointer
  repeat' split
  all_goals simp
  all_goals
    rintro rfl
    rfl

/-- An integer constant only gets wider, and not from one bit. -/
theorem Lower.intToInt_constant {v v' : Ir.Value} {unsigned : Bool} {width target : Nat}
    (h : intToInt v unsigned width target = .constant v') :
    ∃ x, v' = .int target x ∧ target ≠ 1 := by
  unfold intToInt at h
  split at h
  · split at h
    · split at h
      · rename_i hw _ _ hu
        simp only [Bool.and_eq_true, decide_eq_true_eq] at hu
        cases h
        exact ⟨_, rfl, by omega⟩
      · split at h <;> cases h
    · split at h <;> cases h
  · cases h

theorem Lower.conversion_isBit {defs : Array Ir.TypeDef} {v v' : Ir.Value}
    {unsigned toUnsigned : Bool} {target : Ir.Ty}
    (h : conversion defs v unsigned toUnsigned target = .constant v') : v'.isBit = false := by
  revert h
  unfold conversion intToFloat floatToFloat pointerToPointer intToPointer
  split
  · simp
  split
  · intro h
    obtain ⟨x, rfl, hw⟩ := intToInt_constant h
    exact decide_eq_false hw
  all_goals
    repeat' split
    all_goals simp
    all_goals
      rintro rfl
      rfl

/-- Which values may be operands in a function, which variables may be named there, and what all
    of them may be bound to. The function's own results, truth values, and constants other than
    integers of one bit always may be operands. -/
structure Policy where
  fn : Ir.FuncId
  Operand : Ir.Value → Prop
  Variable : ObjectId → Prop
  Bindings : List (ObjectId × Ir.Value) → Prop
  constant : ∀ v, v.isConstant = true → v.isBit = false → Operand v
  bit : ∀ b, Operand (Lower.boolConstant b)
  computed : ∀ id t, Operand (.computed fn id t)

namespace Policy

/-- Variables are bound as they may be, and what those that may be named are bound to may be an
    operand. -/
structure Covers (p : Policy) (values : List (ObjectId × Ir.Value)) : Prop where
  bindings : p.Bindings values
  operand : ∀ v x, p.Variable v → values.lookup v = some x → p.Operand x

/-- The variable that a name denotes at a site may be named. -/
def Knows (p : Policy) (c : Context) (name : String) (site : Site) : Prop :=
  ∀ v, c.analysis.resolve name (some site) = some v → p.Variable v

/-- Everything may be named and be an operand. -/
def free (fn : Ir.FuncId) : Policy :=
  ⟨fn, fun _ => True, fun _ => True, fun _ => True, by simp, by simp, by simp⟩

theorem free_covers (fn : Ir.FuncId) (values : List (ObjectId × Ir.Value)) :
    (free fn).Covers values := ⟨trivial, fun _ _ _ _ => trivial⟩

theorem int_operand (p : Policy) {w : Nat} {x : Int} (h : w = 1 → p.Operand (.int 1 x)) :
    p.Operand (.int w x) := by
  by_cases hw : w = 1
  · rw [hw]
    exact h hw
  · exact p.constant _ rfl (decide_eq_false hw)

theorem zero_operand (p : Policy) (w : Nat) : p.Operand (.int w 0) :=
  p.int_operand fun _ => p.bit false

theorem i32_operand (p : Policy) (x : Int) : p.Operand (.i32 x) := p.constant _ rfl rfl

theorem conversion_operand (p : Policy) {defs : Array Ir.TypeDef} {v v' : Ir.Value}
    {unsigned toUnsigned : Bool} {target : Ir.Ty}
    (h : Lower.conversion defs v unsigned toUnsigned target = .constant v') : p.Operand v' :=
  p.constant _ (Lower.conversion_isConstant h) (Lower.conversion_isBit h)

end Policy

mutual

/-- Every name of a variable or function in an expression satisfies `P` at its site. -/
def Expr.Names (P : String → Site → Prop) : Expr → Prop
  | .varRef site name _ => P name site
  | .call site name args => P name site ∧ Expr.NamesAll P args
  | .structLit _ _ args => Expr.NamesAll P args
  | .arrayLit _ elems => Expr.NamesAll P elems
  | .selector _ x _ _ | .unary _ _ x | .cast _ x _ => x.Names P
  | .index _ x y | .assign _ x y | .binary _ _ x y => x.Names P ∧ y.Names P
  | _ => True

/-- Every name in a list of expressions satisfies `P` at its site. -/
def Expr.NamesAll (P : String → Site → Prop) : List Expr → Prop
  | [] => True
  | e :: es => e.Names P ∧ Expr.NamesAll P es

end

mutual

theorem Expr.names_of_forall {P : String → Site → Prop} (h : ∀ name site, P name site) :
    ∀ e : Expr, e.Names P
  | .varRef _ _ _ => h _ _
  | .call _ _ args => ⟨h _ _, namesAll_of_forall h args⟩
  | .structLit _ _ args => namesAll_of_forall h args
  | .arrayLit _ elems => namesAll_of_forall h elems
  | .selector _ x _ _ | .unary _ _ x | .cast _ x _ => names_of_forall h x
  | .index _ x y | .assign _ x y | .binary _ _ x y => ⟨names_of_forall h x, names_of_forall h y⟩
  | .absent | .arrayAlloc _ _ _ | .intLit _ _ | .floatLit _ _ | .boolLit _ _
  | .stringLit _ _ => trivial

theorem Expr.namesAll_of_forall {P : String → Site → Prop} (h : ∀ name site, P name site) :
    ∀ es : List Expr, Expr.NamesAll P es
  | [] => trivial
  | e :: es => ⟨names_of_forall h e, namesAll_of_forall h es⟩

end

/-! ## Integers of one bit -/

open Lower in
/-- The integers of one bit that an expression itself brings, apart from truth values, where names
    are bound as `B` says: a literal whose type can be one bit wide, and minus one where a variable
    of such a type is stepped down or a value of one bit is complemented. -/
inductive Expr.BringsBit (c : Context) (B : List (ObjectId × Ir.Value) → Prop) :
    Expr → Int → Prop where
  | literal {site : Site} {value : Int64} {s s' : State}
    (type : instructionType c (c.analysis.typeOfExpr (.intLit site value)) s = .ok (.int 1) s') :
    BringsBit c B (.intLit site value) value.toInt
  | down {site : Site} {name : String} {step : Step} {kind : StepKind} {v : ObjectId}
    {s s' : State} (resolved : c.analysis.resolve name (some site) = some v)
    (type : instructionType c (variableType c v) s = .ok (.int 1) s')
    (steps : stepKind? step = some kind) (down : kind.up = false) :
    BringsBit c B (.varRef site name (.known step)) (-1)
  | complement {site : Site} {x : Expr} {s s' : State} {v : Ir.Value} (bound : B s.values)
    (value : valueOf c x s = .ok v s') (type : v.type = .int 1) :
    BringsBit c B (.unary site (.known .complement) x) (-1)

mutual

/-- An expression and every expression inside it. -/
def Expr.within : Expr → List Expr
  | .call site name args => .call site name args :: Expr.withinAll args
  | .structLit site name args => .structLit site name args :: Expr.withinAll args
  | .arrayLit site elems => .arrayLit site elems :: Expr.withinAll elems
  | .selector site x field arrow => .selector site x field arrow :: x.within
  | .unary site op x => .unary site op x :: x.within
  | .cast site x target => .cast site x target :: x.within
  | .index site x i => .index site x i :: (x.within ++ i.within)
  | .assign site x y => .assign site x y :: (x.within ++ y.within)
  | .binary site op x y => .binary site op x y :: (x.within ++ y.within)
  | e => [e]

/-- The expressions of a list with every expression inside them. -/
def Expr.withinAll : List Expr → List Expr
  | [] => []
  | e :: es => e.within ++ Expr.withinAll es

end

mutual

/-- What a policy asks of an expression: every name in it is known, and the integers of one bit that
    it brings may be operands. -/
def Policy.Admits (p : Policy) (c : Context) : Expr → Prop
  | .intLit site value =>
    ∀ x, (Expr.intLit site value).BringsBit c p.Bindings x → p.Operand (.int 1 x)
  | .varRef site name step => p.Knows c name site ∧
      ∀ x, (Expr.varRef site name step).BringsBit c p.Bindings x → p.Operand (.int 1 x)
  | .unary site op x => p.Admits c x ∧
      ∀ n, (Expr.unary site op x).BringsBit c p.Bindings n → p.Operand (.int 1 n)
  | .call site name args => p.Knows c name site ∧ p.AdmitsAll c args
  | .structLit _ _ args => p.AdmitsAll c args
  | .arrayLit _ elems => p.AdmitsAll c elems
  | .selector _ x _ _ | .cast _ x _ => p.Admits c x
  | .index _ x y | .assign _ x y | .binary _ _ x y => p.Admits c x ∧ p.Admits c y
  | _ => True

/-- What a policy asks of every expression in a list. -/
def Policy.AdmitsAll (p : Policy) (c : Context) : List Expr → Prop
  | [] => True
  | e :: es => p.Admits c e ∧ p.AdmitsAll c es

end

section
variable {p : Policy} {c : Context}

mutual

theorem Policy.admits_of_names : ∀ e : Expr, e.Names (p.Knows c) →
    (∀ x ∈ e.within, ∀ n, x.BringsBit c p.Bindings n → p.Operand (.int 1 n)) → p.Admits c e
  | .intLit site value, _, hb => hb _ List.mem_cons_self
  | .varRef site name step, hn, hb => ⟨hn, hb _ List.mem_cons_self⟩
  | .unary site op x, hn, hb => by
    obtain ⟨here, inside⟩ := List.forall_mem_cons.mp hb
    exact ⟨admits_of_names x hn inside, here⟩
  | .call site name args, hn, hb =>
    ⟨hn.1, admitsAll_of_names args hn.2 (List.forall_mem_cons.mp hb).2⟩
  | .structLit _ _ args, hn, hb | .arrayLit _ args, hn, hb =>
    admitsAll_of_names args hn (List.forall_mem_cons.mp hb).2
  | .selector _ x _ _, hn, hb | .cast _ x _, hn, hb =>
    admits_of_names x hn (List.forall_mem_cons.mp hb).2
  | .index _ x y, hn, hb | .assign _ x y, hn, hb | .binary _ _ x y, hn, hb => by
    obtain ⟨left, right⟩ := List.forall_mem_append.mp (List.forall_mem_cons.mp hb).2
    exact ⟨admits_of_names x hn.1 left, admits_of_names y hn.2 right⟩
  | .absent, _, _ | .arrayAlloc _ _ _, _, _ | .floatLit _ _, _, _ | .boolLit _ _, _, _
  | .stringLit _ _, _, _ => trivial

theorem Policy.admitsAll_of_names : ∀ es : List Expr, Expr.NamesAll (p.Knows c) es →
    (∀ x ∈ Expr.withinAll es, ∀ n, x.BringsBit c p.Bindings n → p.Operand (.int 1 n)) →
    p.AdmitsAll c es
  | [], _, _ => trivial
  | e :: es, hn, hb => by
    obtain ⟨first, rest⟩ := List.forall_mem_append.mp hb
    exact ⟨admits_of_names e hn.1 first, admitsAll_of_names es hn.2 rest⟩

end

end

namespace Lower

variable {α β : Type} {p : Policy}

/-- The step is calm, the body grows by code with admitted operands, and the result satisfies
    `R`. -/
def Emits (p : Policy) (m : Lower α) (R : α → Prop) : Prop :=
  ∀ s a s', m s = .ok a s' → s.body.fn = p.fn → p.Covers s.values →
    R a ∧ Calm s s' ∧ ∃ code, Grows p.Operand s.body code s'.body

namespace Emits

theorem pure' {a : α} {R : α → Prop} (h : R a) : Emits p (pure a) R := by
  intro s b s' hr _ _
  obtain ⟨rfl, rfl⟩ := pure_eq_ok.mp hr
  exact ⟨h, .refl s, .nil, .nil _⟩

theorem bind' {m : Lower α} {f : α → Lower β} {R : α → Prop} {R' : β → Prop}
    (hm : Emits p m R) (hf : ∀ a, R a → Emits p (f a) R') : Emits p (m >>= f) R' := by
  intro s b s' h hfn hc
  obtain ⟨a, s₁, h₁, h₂⟩ := bind_eq_ok.mp h
  obtain ⟨r₁, c₁, code₁, g₁⟩ := hm s a s₁ h₁ hfn hc
  have hfn₁ : s₁.body.fn = p.fn := g₁.kept.fn.trans hfn
  -- Variables are bound as before.
  have hc₁ : p.Covers s₁.values := by rwa [c₁.values]
  obtain ⟨r₂, c₂, code₂, g₂⟩ := hf a r₁ s₁ b s' h₂ hfn₁ hc₁
  exact ⟨r₂, c₁.trans c₂, .seq code₁ code₂, .seq g₁ g₂⟩

theorem of_steady {m : Lower α} {R : α → Prop} (hm : Steady m)
    (hr : ∀ s a s', m s = .ok a s' → R a) : Emits p m R := by
  intro s a s' h _ _
  obtain ⟨hb, hc⟩ := hm s a s' h
  exact ⟨hr s a s' h, hc, .nil, hb ▸ .nil _⟩

/-- What is known of every result of a step, besides. -/
theorem and_of {m : Lower α} {R R' : α → Prop} (hm : Emits p m R)
    (hr : ∀ s a s', p.Bindings s.values → m s = .ok a s' → R' a) :
    Emits p m fun a => R a ∧ R' a := by
  intro s a s' h hfn hc
  obtain ⟨r, rest⟩ := hm s a s' h hfn hc
  exact ⟨⟨r, hr s a s' hc.bindings h⟩, rest⟩

/-- A steady step, then one that emits. -/
theorem steady_bind {m : Lower α} {f : α → Lower β} {R : β → Prop} (hm : Steady m)
    (hf : ∀ a, Emits p (f a) R) : Emits p (m >>= f) R :=
  bind' (R := fun _ => True) (of_steady hm fun _ _ _ _ => trivial) fun a _ => hf a

theorem get_bind {f : State → Lower α} {R : α → Prop} (hf : ∀ s, Emits p (f s) R) :
    Emits p (get >>= f) R := fun s a s' h => hf s s a s' h

theorem reject' {R : α → Prop} (pos : Position) (c : Cause) : Emits p (reject pos c) R :=
  fun _ _ _ h => (reject_ne_ok.mp h).elim

theorem breach' {R : α → Prop} (b : Breach) : Emits p (breach b) R :=
  fun _ _ _ h => (breach_ne_ok.mp h).elim

theorem ite' {c : Prop} [Decidable c] {x y : Lower α} {R : α → Prop} (hx : Emits p x R)
    (hy : Emits p y R) : Emits p (if c then x else y) R := by
  split
  · exact hx
  · exact hy

/-- A choice between two steps with one continuation. -/
theorem either {c : Prop} [Decidable c] {x y : Lower α} {f : α → Lower β} {R : α → Prop}
    {R' : β → Prop} (hm : Emits p (if c then x else y) R) (hf : ∀ a, R a → Emits p (f a) R') :
    Emits p (if c then x >>= f else y >>= f) R' := by
  split at hm
  · rw [if_pos ‹_›]
    exact bind' hm hf
  · rw [if_neg ‹_›]
    exact bind' hm hf

theorem discard' {m : Lower α} {R : α → Prop} (hm : Emits p m R) :
    Emits p (discard m) fun _ => True := by
  intro s u s' h hfn hc
  obtain ⟨a, ha⟩ := discard_eq_ok.mp h
  obtain ⟨-, rest⟩ := hm s a s' ha hfn hc
  exact ⟨trivial, rest⟩

end Emits

/-! ## Instructions -/

/-- What an instruction may be at a place: no join of values, and a stack slot only among the stack
    slots. -/
def Fits (spot : Place) (inst : Ir.Inst) : Prop :=
  inst.isPhi = false ∧ (spot = .cursor → inst.isAlloca = false)

theorem type_of_emitAt {spot : Place} {inst : Ir.Inst} {type : Ir.Ty} {s s' : State} {v : Ir.Value}
    (h : emitAt spot inst type s = .ok v s') : v.type = type := by
  cases spot with
  | vars => rw [(emitAt_vars_eq_ok.mp h).1, Ir.Value.type]
  | cursor => rw [(emitAt_cursor_eq_ok.mp h).2.1, Ir.Value.type]

theorem emits_emitAt {spot : Place} {inst : Ir.Inst} (type : Ir.Ty) (hf : Fits spot inst)
    (ho : ∀ v ∈ inst.operands, p.Operand v) : Emits p (emitAt spot inst type) p.Operand := by
  intro s v s' h hfn _
  cases spot with
  | vars =>
    obtain ⟨rfl, rfl⟩ := emitAt_vars_eq_ok.mp h
    exact ⟨hfn ▸ p.computed _ _, .setBody _ _, .nil, .vars type hf.1 ho⟩
  | cursor =>
    obtain ⟨hl, rfl, rfl⟩ := emitAt_cursor_eq_ok.mp h
    exact ⟨hfn ▸ p.computed _ _, .setBody _ _, _, .line type hl hf.1 (hf.2 rfl) ho⟩

theorem emits_emit {inst : Ir.Inst} (type : Ir.Ty) (hp : inst.isPhi = false)
    (ha : inst.isAlloca = false) (ho : ∀ v ∈ inst.operands, p.Operand v) :
    Emits p (emit inst type) p.Operand :=
  emits_emitAt type ⟨hp, fun _ => ha⟩ ho

theorem emits_stackSlot (type : Ir.Ty) {count : Option Ir.Value}
    (hc : ∀ v ∈ count, p.Operand v) : Emits p (stackSlot type count) p.Operand :=
  emits_emitAt _ ⟨rfl, by simp⟩ (by simpa [Ir.Inst.operands] using hc)

theorem emits_load (type : Ir.Ty) {place : Ir.Value} (hp : p.Operand place) :
    Emits p (load type place) p.Operand :=
  emits_emit _ rfl rfl (by simpa [Ir.Inst.operands] using hp)

theorem emits_storeAt (spot : Place) {value place : Ir.Value} (hv : p.Operand value)
    (hp : p.Operand place) : Emits p (storeAt spot value place) fun _ => True := by
  refine .get_bind fun s => ?_
  refine .ite' (.discard' (emits_emitAt _ ⟨rfl, fun _ => rfl⟩ ?_)) (.breach' _)
  simp [Ir.Inst.operands, hv, hp]

theorem emits_store {value place : Ir.Value} (hv : p.Operand value) (hp : p.Operand place) :
    Emits p (store value place) fun _ => True := emits_storeAt .cursor hv hp

theorem emits_addressAt (spot : Place) (type : Ir.Ty) {base : Ir.Value}
    {indices : List Ir.Value} (target : Ir.Ty) (hb : p.Operand base)
    (hi : ∀ v ∈ indices, p.Operand v) :
    Emits p (addressAt spot type base indices target) p.Operand := by
  unfold addressAt
  split
  · exact .breach' _
  · split
    · refine emits_emitAt _ ⟨rfl, fun _ => rfl⟩ ?_
      simpa [Ir.Inst.operands, hb] using hi
    · exact .breach' _

theorem emits_elementAddress (type : Ir.Ty) {base index : Ir.Value} (hb : p.Operand base)
    (hi : p.Operand index) : Emits p (elementAddress type base index) p.Operand :=
  emits_addressAt _ _ _ hb (by simpa using hi)

theorem emits_fieldAddressAt (spot : Place) (type : Ir.Ty) {base : Ir.Value} (index : Nat)
    (hb : p.Operand base) : Emits p (fieldAddressAt spot type base index) p.Operand := by
  refine .get_bind fun s => ?_
  split
  · refine emits_addressAt _ _ _ hb ?_
    simp [Policy.i32_operand]
  · exact .breach' _

theorem emits_fieldAddress (type : Ir.Ty) {base : Ir.Value} (index : Nat) (hb : p.Operand base) :
    Emits p (fieldAddress type base index) p.Operand := emits_fieldAddressAt _ _ _ hb

theorem emits_extractData {value : Ir.Value} (hv : p.Operand value) :
    Emits p (extractData value) p.Operand := by
  have one : ∀ type, Emits p (emit (.extractData value) type) p.Operand :=
    fun type => emits_emit _ rfl rfl (by simpa [Ir.Inst.operands] using hv)
  unfold extractData
  split
  · exact one _
  · refine .get_bind fun s => ?_
    split
    · exact one _
    · exact .breach' _
    · exact .breach' _

theorem emits_callAt (spot : Place) {callee : Ir.Value} {args : List Ir.Value}
    (hc : p.Operand callee) (ha : ∀ v ∈ args, p.Operand v) :
    Emits p (callAt spot callee args) p.Operand :=
  emits_emitAt _ ⟨rfl, fun _ => rfl⟩ (by simpa [Ir.Inst.operands, hc] using ha)

/-! ## Conversions and operators -/

theorem emits_convert {v : Ir.Value} (unsigned toUnsigned : Bool) (target : Ir.Ty)
    (hv : p.Operand v) : Emits p (convert v unsigned toUnsigned target) p.Operand := by
  refine .get_bind fun s => ?_
  split
  · exact .pure' hv
  · rename_i v' hc
    exact .pure' (p.conversion_operand hc)
  · exact emits_emit _ rfl rfl (by simpa [Ir.Inst.operands] using hv)

theorem emits_convertTo (c : Context) (e : Expr) {v : Ir.Value} (t : Ty) (hv : p.Operand v) :
    Emits p (convertTo c e v t) p.Operand :=
  .steady_bind (steady_instructionType c t) fun _ => emits_convert _ _ _ hv

theorem emits_described_reject {R : α → Prop} (e : Expr) (pos : Position) (cause : Bytes → Cause) :
    Emits p (do reject pos (cause (← described e))) R :=
  .steady_bind (steady_described e) fun _ => .reject' _ _

theorem emits_siteOf_reject {R : α → Prop} (e : Expr) (cause : Bytes → Cause) :
    Emits p (do
      let s ← siteOf e
      reject s.position (cause (← described e))) R :=
  .steady_bind (steady_siteOf e) fun _ => emits_described_reject e _ _

theorem emits_truth (e : Expr) {v : Ir.Value} (hv : p.Operand v) :
    Emits p (truth e v) p.Operand := by
  unfold truth
  split
  · exact .ite' (.pure' hv)
      (emits_emit _ rfl rfl (by simp [Ir.Inst.operands, hv, Policy.zero_operand]))
  · exact emits_emit _ rfl rfl (by simpa [Ir.Inst.operands, hv] using p.constant _ rfl rfl)
  · exact emits_emit _ rfl rfl (by simpa [Ir.Inst.operands, hv] using p.constant _ rfl rfl)
  · exact emits_siteOf_reject e _

section
variable {x y : Ir.Value} (hx : p.Operand x) (hy : p.Operand y)

include hx hy

theorem emits_compareInts (op : Coded BinaryOp) (unsigned : Bool) :
    Emits p (compareInts op x y unsigned) p.Operand := by
  unfold compareInts
  split
  · exact .breach' _
  · split
    · exact emits_emit _ rfl rfl (by simp [Ir.Inst.operands, hx, hy])
    · exact .breach' _

theorem emits_onIntegers (op : Coded BinaryOp) (unsigned : Bool) :
    Emits p (onIntegers op x y unsigned) p.Operand := by
  unfold onIntegers
  split
  · exact emits_emit _ rfl rfl (by simp [Ir.Inst.operands, hx, hy])
  · exact emits_compareInts hx hy op unsigned

theorem emits_onFloats (site : Site) (op : Coded BinaryOp) :
    Emits p (onFloats site op x y) p.Operand := by
  unfold onFloats
  split
  · exact emits_emit _ rfl rfl (by simp [Ir.Inst.operands, hx, hy])
  · split
    · exact emits_emit _ rfl rfl (by simp [Ir.Inst.operands, hx, hy])
    · exact .reject' _ _

theorem emits_onPointers (site : Site) (op : Coded BinaryOp) (elem : Ir.Ty) :
    Emits p (onPointers site op x elem y) p.Operand := by
  unfold onPointers
  split
  · exact emits_elementAddress _ hx hy
  · refine .bind' (emits_emit _ rfl rfl ?_) fun back hb => emits_elementAddress _ hx hb
    simp [Ir.Inst.operands, hy, Policy.zero_operand]
  · exact .ite' (.bind' (emits_convert _ _ _ hy) fun y' hy' => emits_compareInts hx hy' _ true)
      (.reject' _ _)

end

/-- A step adds one, or minus one, in the type of the value. -/
theorem emits_stepBy (e : Expr) (site : Site) {v : Ir.Value} {up : Bool} (hv : p.Operand v)
    (hd : up = false → v.type = .int 1 → p.Operand (.int 1 (-1))) :
    Emits p (stepBy e site v up) p.Operand := by
  unfold stepBy
  cases ht : v.type with
  | int w =>
    have delta : p.Operand (.int w (if up then 1 else -1)) := p.int_operand fun hw => by
      cases up with
      | true => exact p.bit true
      | false => exact hd rfl (hw ▸ ht)
    exact emits_emit _ rfl rfl (by simpa [Ir.Inst.operands, hv] using delta)
  | float k =>
    exact emits_emit _ rfl rfl (by simpa [Ir.Inst.operands, hv] using p.constant _ rfl rfl)
  | pointer elem => exact emits_elementAddress _ hv (p.i32_operand _)
  | _ => exact emits_described_reject e _ _

theorem emits_pointeeType (e : Expr) (v : Ir.Value) :
    Emits p (pointeeType e v) fun _ => True := by
  unfold pointeeType
  split
  · exact .pure' trivial
  · exact emits_siteOf_reject e _

theorem emits_rejectUnary {R : α → Prop} (site : Site) (op : Coded UnaryOp) (x : Expr) :
    Emits p (rejectUnary site op x) R := emits_described_reject x _ _

/-! ## Literals -/

theorem typeOfExpr_eq_ok {c : Context} {e : Expr} {t : Ty} {s s' : State}
    (h : typeOfExpr c e s = .ok t s') : c.analysis.typeOfExpr e = t ∧ s = s' := by
  unfold typeOfExpr at h
  cases htype : c.analysis.typeOfExpr e with
  | missing => simp [htype] at h
  | _ =>
    rw [htype] at h
    exact pure_eq_ok.mp h

theorem emits_intConstant {c : Context} {site : Site} {value : Int64}
    (hb : ∀ s s', instructionType c (c.analysis.typeOfExpr (.intLit site value)) s =
      .ok (.int 1) s' → p.Operand (.int 1 value.toInt)) :
    Emits p (intConstant c site value) p.Operand := by
  refine .bind' (.of_steady (steady_typeOfExpr c _) fun _ _ _ h => (typeOfExpr_eq_ok h).1)
    fun t ht => ?_
  subst ht
  refine .bind' (.of_steady (steady_instructionType c _) fun s T s' h =>
    show T = .int 1 → _ from fun he => hb s s' (he ▸ h)) fun T hT => ?_
  split
  · exact .pure' (p.int_operand fun hw => hT (hw ▸ rfl))
  · exact .pure' (p.constant _ rfl rfl)
  · exact .ite' (.pure' (p.constant _ rfl rfl)) (.reject' _ _)
  · exact .reject' _ _

theorem emits_floatConstant (c : Context) (site : Site) (bits : UInt64) :
    Emits p (floatConstant c site bits) p.Operand := by
  refine .steady_bind (steady_typeOfExpr c _) fun t =>
    .steady_bind (steady_instructionType c t) fun type => ?_
  split
  · exact .pure' (p.constant _ rfl rfl)
  · exact .reject' _ _

theorem copyIntrinsic_isConstant {s s' : State} {v : Ir.Value}
    (h : copyIntrinsic s = .ok v s') : v.isConstant = true ∧ v.isBit = false := by
  unfold copyIntrinsic at h
  cases hm : s.memcpy <;> simp only [get_bind_apply, hm] at h <;> cases h <;> exact ⟨rfl, rfl⟩

theorem emits_copyIntrinsic : Emits p copyIntrinsic p.Operand :=
  .of_steady steady_copyIntrinsic fun _ _ _ h =>
    p.constant _ (copyIntrinsic_isConstant h).1 (copyIntrinsic_isConstant h).2

theorem internedData_isConstant {content : Bytes} {s s' : State} {v : Ir.Value}
    (h : internedData content s = .ok v s') : v.isConstant = true ∧ v.isBit = false := by
  unfold internedData at h
  cases hg : s.strings.lookup content <;> simp only [get_bind_apply, hg] at h <;> cases h <;>
    exact ⟨rfl, rfl⟩

theorem emits_internedData (content : Bytes) : Emits p (internedData content) p.Operand :=
  .of_steady (steady_internedData content) fun _ _ _ h =>
    p.constant _ (internedData_isConstant h).1 (internedData_isConstant h).2

theorem emits_fillArray (spot : Place) {slot length data : Ir.Value} (type : Ir.Ty)
    (hs : p.Operand slot) (hl : p.Operand length) (hd : p.Operand data) :
    Emits p (fillArray spot slot type length data) fun _ => True :=
  .bind' (emits_fieldAddressAt _ _ _ hs) fun _ h₁ =>
    .bind' (emits_storeAt _ hl h₁) fun _ _ =>
      .bind' (emits_fieldAddressAt _ _ _ hs) fun _ h₂ => emits_storeAt _ hd h₂

theorem emits_globalBuffer (spot : Place) (name : String) (elem : Ir.Ty) (length : Nat) :
    Emits p (globalBuffer spot name elem length) p.Operand := by
  refine .steady_bind (steady_addGlobal _ _) fun g => emits_emitAt _ ⟨rfl, fun _ => rfl⟩ ?_
  simpa [Ir.Inst.operands] using p.constant _ rfl rfl

theorem emits_buffer (here : Bool) (spot : Place) (name : String) (elem : Ir.Ty) (length : Nat) :
    Emits p (if here = true then stackSlot elem (some (.i32 length))
      else globalBuffer spot name elem length) p.Operand :=
  .ite' (emits_stackSlot _ (by simpa using p.i32_operand _)) (emits_globalBuffer _ _ _ _)

theorem emits_stringValue (c : Context) (site : Site) (content : Bytes) :
    Emits p (stringValue c site content) p.Operand := by
  have hl : p.Operand (.i32 content.length) := p.i32_operand _
  refine .bind' (emits_stackSlot _ (by simp)) fun slot hs => ?_
  refine .steady_bind (steady_isLocal c site) fun here => ?_
  refine .either (emits_buffer here .vars _ _ _) fun buffer hb => ?_
  refine .bind' emits_copyIntrinsic fun copy hc => ?_
  refine .bind' (emits_internedData content) fun data hd => ?_
  refine .bind' (.discard' (emits_callAt _ hc ?_)) fun _ _ => ?_
  · have whole : p.Operand .bitFalse := p.bit false
    simpa [hb, hd, hl] using whole
  · refine .bind' (emits_fillArray _ _ hs hl hb) fun _ _ => ?_
    exact emits_emitAt _ ⟨rfl, fun _ => rfl⟩ (by simpa [Ir.Inst.operands] using hs)

theorem emits_allocateArray (c : Context) (site : Site) (elem : Ir.Ty) (length : Nat) :
    Emits p (allocateArray c site elem length) fun a => p.Operand a.slot ∧ p.Operand a.buffer := by
  refine .bind' (emits_stackSlot _ (by simp)) fun slot hs => ?_
  refine .steady_bind (steady_isLocal c site) fun here => ?_
  refine .either (emits_buffer here .cursor _ _ _) fun buffer hb => ?_
  exact .bind' (emits_fillArray _ _ hs (p.i32_operand _) hb) fun _ _ => .pure' ⟨hs, hb⟩

theorem emits_unfilledArray (c : Context) (site : Site) (length : Int64)
    (elem : Option TypeRef) : Emits p (unfilledArray c site length elem) p.Operand :=
  .ite' (.reject' _ _) (.steady_bind (steady_typeOfRef c elem) fun _ =>
    .steady_bind (steady_instructionType c _) fun _ =>
      .bind' (emits_allocateArray c site _ _) fun _ h => emits_load _ h.1)

/-! ## Variables and calls -/

theorem emits_boundTo (c : Context) {v : ObjectId} (site : Site) (hv : p.Variable v) :
    Emits p (boundTo c v site) p.Operand := by
  intro s x s' h hfn hc
  obtain ⟨hb, calm⟩ := steady_boundTo c v site s x s' h
  refine ⟨?_, calm, .nil, hb ▸ .nil _⟩
  unfold boundTo at h
  cases hl : s.values.lookup v with
  | none => simp [hl] at h
  | some y =>
    simp only [get_bind_apply, hl, pure_eq_ok] at h
    obtain ⟨rfl, -⟩ := h
    exact hc.operand v y hv hl

/-- The place of a variable that may be named. -/
theorem emits_named {c : Context} {name : String} {site : Site} {f : ObjectId → Ir.Value → Lower α}
    {R : α → Prop} (hk : p.Knows c name site)
    (hf : ∀ v x, c.analysis.resolve name (some site) = some v → p.Operand x →
      Emits p (f v x) R) :
    Emits p (do
      let v ← variableAt c name site
      let place ← boundTo c v site
      f v place) R := by
  unfold variableAt
  split
  · rename_i v hv
    rw [pure_bind]
    exact .bind' (emits_boundTo c site (hk v hv)) fun x => hf v x hv
  · exact .bind' (R := fun _ => False) (.reject' _ _) fun _ h => h.elim

theorem emits_readVariable {c : Context} {site : Site} {name : String} {step : Coded Step}
    (hk : p.Knows c name site)
    (hb : ∀ x, (Expr.varRef site name step).BringsBit c p.Bindings x → p.Operand (.int 1 x)) :
    Emits p (readVariable c site name step) p.Operand := by
  refine emits_named hk fun v place hv hp => ?_
  refine .ite' (.ite' (.pure' hp) (.reject' _ _)) ?_
  refine .bind' (R := fun t => t = .int 1 →
      ∃ s s', instructionType c (variableType c v) s = .ok (.int 1) s')
    (.of_steady (steady_instructionType c _) fun s T s' h he => ⟨s, s', he ▸ h⟩) fun t ht => ?_
  have loaded : ∀ s old s', p.Bindings s.values → load t place s = .ok old s' → old.type = t :=
    fun _ _ _ _ h => @type_of_emitAt .cursor (.load t place) t _ _ _ h
  refine .bind' ((emits_load t hp).and_of loaded) fun old ⟨ho, hold⟩ => ?_
  split
  · exact .breach' _
  · split
    · exact .pure' ho
    · rename_i kind hkind
      have down : kind.up = false → old.type = .int 1 → p.Operand (.int 1 (-1)) := by
        intro hu ho
        obtain ⟨s, s', htype⟩ := ht (hold.symm.trans ho)
        exact hb _ (.down hv htype hkind hu)
      refine .bind' (emits_stepBy _ _ ho down) fun new hn => ?_
      refine .bind' (emits_store hn hp) fun _ _ => ?_
      split
      · exact .pure' hn
      · exact .pure' ho

theorem emits_variablePlace {c : Context} {site : Site} {name : String}
    (hk : p.Knows c name site) :
    Emits p (variablePlace c site name) fun r => p.Operand r.1 :=
  emits_named hk fun _ _ _ hp => .ite' (.reject' _ _)
    (.steady_bind (steady_instructionType c _) fun _ => .pure' hp)

theorem steady_hasPlace (c : Context) (e : Expr) : Steady (hasPlace c e) := by
  unfold hasPlace
  split
  · split
    · exact .pure' _
    · exact .get_bind fun _ => .pure' _
  all_goals exact .pure' _

theorem emits_addressOrSlot (c : Context) (e : Expr) {value : Lower Ir.Value}
    {place : Lower (Ir.Value × Ir.Ty)} (hv : Emits p value p.Operand)
    (hp : Emits p place fun r => p.Operand r.1) :
    Emits p (addressOrSlot c e value place) p.Operand := by
  refine .steady_bind (steady_hasPlace c e) fun has => .ite' ?_ ?_
  · exact .bind' hp fun r hr => .pure' hr
  · refine .bind' hv fun v hv => .bind' (emits_stackSlot _ (by simp)) fun slot hs => ?_
    exact .bind' (emits_store hv hs) fun _ _ => .pure' hs

theorem emits_calleeParams (c : Context) (site : Site) (name : String) (given : Nat) (v : ObjectId)
    {callee : Ir.Value} (hc : p.Operand callee) :
    Emits p (calleeParams c site name given v callee) fun r => p.Operand r.1 := by
  unfold calleeParams
  split
  · exact .reject' _ _
  · exact .ite' (.reject' _ _) (.pure' hc)

theorem emits_callTarget {c : Context} {site : Site} {name : String} (given : Nat)
    (hk : p.Knows c name site) :
    Emits p (callTarget c site name given) fun r => p.Operand r.1 := by
  refine emits_named hk fun v place _ hp => ?_
  refine .ite' (.bind' (.pure' hp) fun _ => emits_calleeParams c site name given v) ?_
  exact .steady_bind (steady_instructionType c _) fun t =>
    .bind' (emits_load t hp) fun _ => emits_calleeParams c site name given v

/-! ## Places -/

section
variable (c : Context) (site : Site) (x : Expr) {value index : Lower Ir.Value}
  {place : Lower (Ir.Value × Ir.Ty)}

theorem emits_fieldPlace (field : String) {base : Ir.Value} (hb : p.Operand base) (t : Ty) :
    Emits p (fieldPlace c site field base t) fun r => p.Operand r.1 := by
  refine .steady_bind (steady_instructionType c t) fun type => ?_
  split
  · split
    · exact .reject' _ _
    · exact .bind' (emits_fieldAddress _ _ hb) fun q hq =>
        .steady_bind (steady_instructionType c _) fun _ => .pure' hq
  · split
    · refine .ite' ?_ (.ite' ?_ (.reject' _ _))
      · exact .bind' (emits_fieldAddress _ _ hb) fun q hq => .pure' hq
      · exact .bind' (emits_fieldAddress _ _ hb) fun q hq =>
          .steady_bind (steady_instructionType c _) fun _ => .pure' hq
    · exact .reject' _ _

theorem emits_selectorPlace (field : String) (arrow : Bool) (hv : Emits p value p.Operand)
    (hp : Emits p place fun r => p.Operand r.1) :
    Emits p (selectorPlace c site x field arrow value place) fun r => p.Operand r.1 := by
  refine .ite' (.steady_bind (steady_typeOfExpr c x) fun pt => ?_) ?_
  · split
    · exact .bind' hv fun base hb => emits_fieldPlace c site field hb _
    · exact emits_described_reject x _ _
  · exact .bind' (emits_addressOrSlot c x hv hp) fun base hb =>
      .steady_bind (steady_typeOfExpr c x) fun t => emits_fieldPlace c site field hb t

theorem emits_indexPlace (hv : Emits p value p.Operand) (hi : Emits p index p.Operand) :
    Emits p (indexPlace c site x value index) fun r => p.Operand r.1 := by
  have rest : ∀ (data : Ir.Value) (et : Ty), p.Operand data → Emits p (do
      let elem ← instructionType c et
      let i ← index
      let q ← elementAddress elem data i
      pure (q, elem)) fun r => p.Operand r.1 :=
    fun data et hd => .steady_bind (steady_instructionType c et) fun elem =>
      .bind' hi fun i hi => .bind' (emits_elementAddress elem hd hi) fun q hq => .pure' hq
  refine .steady_bind (steady_typeOfExpr c x) fun t => ?_
  dsimp only
  split
  · exact .bind' hv fun data hd => rest data _ hd
  · split
    · exact .bind' hv fun array ha => .bind' (emits_extractData ha) fun data hd => rest data _ hd
    · exact emits_described_reject x _ _

end

/-! ## Operators -/

/-- A short-circuit operator tests its left operand, forks, tests its right operand in the new
    block, and joins. -/
theorem shortCircuit_eq_ok {isAnd : Bool} {x y : Expr} {left right : Lower Ir.Value}
    {s s' : State} {v : Ir.Value} (h : shortCircuit isAnd x y left right s = .ok v s') :
    ∃ xt s₁ start yt s₂ finish, (left >>= truth x) s = .ok xt s₁ ∧
      s₁.body.cursor = some start ∧
      (right >>= truth y) (s₁.setBody (s₁.body.fork isAnd xt)) = .ok yt s₂ ∧
      s₂.body.cursor = some finish ∧
      v = .computed s₂.body.fn s₂.body.lineCount (.int 1) ∧
      s' = s₂.setBody ((s₂.body.rejoin (s₁.body.joinLabel isAnd)).emit
        (Body.joined isAnd start finish yt) (.int 1)) := by
  unfold shortCircuit at h
  rw [← bind_assoc, bind_eq_ok] at h
  obtain ⟨xt, s₁, hx, h⟩ := h
  simp only [bind_eq_ok, cursor_eq_ok, openBlock_bind_apply, terminate_eq_ok,
    moveTo_bind_apply, emit, emitAt_cursor_eq_ok] at h
  obtain ⟨start, _, ⟨hs, rfl⟩, _, _, ⟨-, rfl⟩, yv, s₃, hy, yt, s₂, ht, finish, _, ⟨hf, rfl⟩,
    _, _, ⟨-, rfl⟩, -, rfl, rfl⟩ := h
  refine ⟨xt, _, start, yt, s₂, finish, hx, hs, bind_eq_ok.mpr ⟨yv, s₃, hy, ht⟩, hf, ?_, rfl⟩
  simp [Body.goto]

theorem emits_shortCircuit (isAnd : Bool) (x y : Expr) {left right : Lower Ir.Value}
    (hl : Emits p left p.Operand) (hr : Emits p right p.Operand) :
    Emits p (shortCircuit isAnd x y left right) p.Operand := by
  intro s v s' h hfn hc
  obtain ⟨xt, s₁, start, yt, s₂, finish, hx, hs, hy, hf, rfl, rfl⟩ := shortCircuit_eq_ok h
  have left' : Emits p (left >>= truth x) p.Operand := .bind' hl fun _ h => emits_truth x h
  have right' : Emits p (right >>= truth y) p.Operand := .bind' hr fun _ h => emits_truth y h
  obtain ⟨hxt, calm₁, code₁, g₁⟩ := left' _ _ _ hx hfn hc
  -- The right operand is lowered in its own block, but in the same function.
  have hfn₁ : (s₁.body.fork isAnd xt).fn = p.fn :=
    (Body.Kept.fork _ _ _).fn.trans (g₁.kept.fn.trans hfn)
  obtain ⟨hyt, calm₂, code₂, g₂⟩ := right' _ _ _ hy hfn₁ (by simpa [calm₁.values] using hc)
  refine ⟨?_, calm₁.trans ?_, .seq code₁ _, .seq g₁ (.decide isAnd hs hxt g₂ hf hyt)⟩
  · rw [g₂.kept.fn.trans hfn₁]
    exact p.computed _ _
  · exact ⟨calm₂.values, calm₂.prototypes, calm₂.lowered, calm₂.symbols, calm₂.funcs⟩

theorem emits_binaryValue (c : Context) (site : Site) (op : Coded BinaryOp) (x y : Expr)
    {left right : Lower Ir.Value} (hl : Emits p left p.Operand) (hr : Emits p right p.Operand) :
    Emits p (binaryValue c site op x y left right) p.Operand := by
  refine .ite' (emits_shortCircuit _ x y hl hr) (.bind' hl fun xv hx => ?_)
  split
  · exact .bind' hr fun yv hy => .bind' (emits_convert _ _ _ hy) fun yv' hy' =>
      emits_onIntegers hx hy' op _
  · exact .bind' hr fun yv hy => .bind' (emits_convert _ _ _ hy) fun yv' hy' =>
      emits_onFloats hx hy' site op
  · exact .bind' hr fun yv hy => emits_onPointers hx hy site op _
  · exact emits_described_reject x _ _

theorem emits_unaryValue (site : Site) (op : Coded UnaryOp) (x : Expr) {value : Lower Ir.Value}
    {place : Lower (Ir.Value × Ir.Ty)} (hv : Emits p value p.Operand)
    (hp : Emits p place fun r => p.Operand r.1)
    (hb : op = .known .complement → ∀ s v s', p.Bindings s.values → value s = .ok v s' →
      v.type = .int 1 → p.Operand (.int 1 (-1))) :
    Emits p (unaryValue site op x value place) p.Operand := by
  unfold unaryValue
  split
  · exact hv
  · -- A negative integer is zero less the value.
    refine .bind' hv fun v hv => ?_
    split
    · exact emits_emit _ rfl rfl (by simp [Ir.Inst.operands, hv, Policy.zero_operand])
    · exact emits_emit _ rfl rfl (by simpa [Ir.Inst.operands] using hv)
    · exact emits_rejectUnary site _ x
  · -- A negation flips the bit.
    refine .bind' hv fun v hv => .bind' (emits_truth x hv) fun t ht => ?_
    have one : p.Operand .bitTrue := p.bit true
    exact emits_emit _ rfl rfl (by simpa [Ir.Inst.operands, ht] using one)
  · -- A complement flips all bits, also if there is only one.
    refine .bind' (hv.and_of (hb rfl)) fun v ⟨hv, ones⟩ => ?_
    split
    · rename_i w hw
      have minus : p.Operand (.int w (-1)) := p.int_operand fun h1 => ones (h1 ▸ hw)
      exact emits_emit _ rfl rfl (by simpa [Ir.Inst.operands, hv] using minus)
    · exact emits_rejectUnary site _ x
  · exact .bind' hp fun r hr => .pure' hr
  · exact .bind' hv fun q hq => .bind' (emits_pointeeType x q) fun t _ => emits_load t hq
  · exact emits_rejectUnary site _ x

theorem emits_castValue (c : Context) (x : Expr) (target : Option TypeRef)
    {value : Lower Ir.Value} (hv : Emits p value p.Operand) :
    Emits p (castValue c x target value) p.Operand :=
  .steady_bind (steady_typeOfRef c target) fun t => .bind' hv fun _ hv =>
    .ite' (emits_truth x hv) (emits_convertTo c x t hv)

/-! ## Expressions -/

variable {c : Context}

mutual

theorem emits_valueOf : ∀ e : Expr, p.Admits c e → Emits p (valueOf c e) p.Operand
  | .absent, _ => .breach' _
  | .intLit site value, h => emits_intConstant fun _ _ type => h _ (.literal type)
  | .floatLit site bits, _ => emits_floatConstant c site bits
  | .boolLit _ value, _ => by
    unfold valueOf
    exact .pure' (p.bit value)
  | .stringLit site content, _ => emits_stringValue c site content
  | .varRef site name step, h => emits_readVariable h.1 h.2
  | .call site name args, h => by
    unfold valueOf
    exact .bind' (emits_callTarget _ h.1) fun r hr =>
      .bind' (emits_arguments r.2 args h.2) fun vs hvs => emits_callAt _ hr hvs
  | .structLit site name args, h => by
    unfold valueOf
    refine .steady_bind (steady_typeOfExpr c _) fun t => ?_
    split
    · exact .reject' _ _
    · refine .ite' (.reject' _ _) (.steady_bind (steady_instructionType c t) fun type => ?_)
      refine .bind' (emits_stackSlot _ (by simp)) fun slot hs => ?_
      exact .bind' (emits_storeFields type hs 0 _ args h) fun _ _ => emits_load _ hs
  | .arrayLit site elems, h => by
    unfold valueOf
    refine .steady_bind (steady_typeOfExpr c _) fun t => ?_
    split
    · exact .reject' _ _
    · refine .steady_bind (steady_instructionType c _) fun elem => ?_
      refine .bind' (emits_allocateArray c site elem _) fun array ha => ?_
      exact .bind' (emits_storeElements _ elem ha.2 0 elems h) fun _ _ => emits_load _ ha.1
  | .arrayAlloc site length elem, _ => emits_unfilledArray c site length elem
  | .selector site x field arrow, h => by
    unfold valueOf
    exact .bind' (emits_selectorPlace c site x field arrow (emits_valueOf x h) (emits_placeOf x h))
      fun r hr => emits_load r.2 hr
  | .index site x i, h => by
    unfold valueOf
    exact .bind' (emits_indexPlace c site x (emits_valueOf x h.1) (emits_valueOf i h.2))
      fun r hr => emits_load r.2 hr
  | .assign _ target value, h => by
    unfold valueOf
    exact .bind' (emits_placeOf target h.1) fun r hr => .bind' (emits_valueOf value h.2) fun v hv =>
      .bind' (emits_convert _ _ _ hv) fun v' hv' => .bind' (emits_store hv' hr) fun _ _ =>
        .pure' hv'
  | .binary site op x y, h => by
    unfold valueOf
    exact emits_binaryValue c site op x y (emits_valueOf x h.1) (emits_valueOf y h.2)
  | .unary site op x, h => by
    unfold valueOf
    refine emits_unaryValue site op x (emits_valueOf x h.1) (emits_placeOf x h.1) ?_
    intro ho s v s' bound value type
    subst ho
    exact h.2 _ (.complement bound value type)
  | .cast _ x target, h => by
    unfold valueOf
    exact emits_castValue c x target (emits_valueOf x h)

theorem emits_placeOf : ∀ e : Expr, p.Admits c e →
    Emits p (placeOf c e) fun r => p.Operand r.1
  | .varRef site name step, h => by
    unfold placeOf
    split
    · rename_i heq
      cases heq
      exact emits_variablePlace h.1
    all_goals first
      | exact emits_siteOf_reject _ _
      | (rename_i heq; cases heq)
  | .selector site x field arrow, h => by
    unfold placeOf
    exact emits_selectorPlace c site x field arrow (emits_valueOf x h) (emits_placeOf x h)
  | .index site x i, h => by
    unfold placeOf
    exact emits_indexPlace c site x (emits_valueOf x h.1) (emits_valueOf i h.2)
  | .unary site op x, h => by
    have value := emits_valueOf x h.1
    unfold placeOf
    split
    case h_4 heq =>
      cases heq
      exact .bind' value fun q hq => .bind' (emits_pointeeType x q) fun t _ => .pure' hq
    all_goals first
      | exact emits_siteOf_reject _ _
      | (rename_i heq; cases heq)
  | .absent, _ | .structLit _ _ _, _ | .call _ _ _, _ | .arrayLit _ _, _ | .arrayAlloc _ _ _, _
  | .assign _ _ _, _ | .binary _ _ _ _, _ | .cast _ _ _, _ | .intLit _ _, _ | .floatLit _ _, _
  | .boolLit _ _, _ | .stringLit _ _, _ => by
    unfold placeOf
    exact emits_siteOf_reject _ _

theorem emits_arguments : ∀ (params : List (Ir.Ty × Bool)) (es : List Expr),
    p.AdmitsAll c es → Emits p (arguments c params es) fun vs => ∀ v ∈ vs, p.Operand v
  | _, [], _ => by
    unfold arguments
    exact .pure' (by simp)
  | [], e :: es, h => by
    unfold arguments
    exact .bind' (emits_valueOf e h.1) fun v hv => .bind' (emits_arguments [] es h.2) fun vs hvs =>
      .pure' (by simpa [hv] using hvs)
  | (t, unsigned) :: ps, e :: es, h => by
    unfold arguments
    exact .bind' (emits_valueOf e h.1) fun v hv => .bind' (emits_convert _ _ _ hv) fun v' hv' =>
      .bind' (emits_arguments ps es h.2) fun vs hvs => .pure' (by simpa [hv'] using hvs)

theorem emits_storeElements (et : Ty) (elem : Ir.Ty) {buffer : Ir.Value}
    (hb : p.Operand buffer) : ∀ (i : Nat) (es : List Expr), p.AdmitsAll c es →
    Emits p (storeElements c et elem buffer i es) fun _ => True
  | _, [], _ => by
    unfold storeElements
    exact .pure' trivial
  | i, e :: es, h => by
    unfold storeElements
    exact .bind' (emits_valueOf e h.1) fun v hv => .bind' (emits_convertTo c e et hv) fun v' hv' =>
      .bind' (emits_elementAddress elem hb (p.i32_operand _)) fun q hq =>
        .bind' (emits_store hv' hq) fun _ _ => emits_storeElements et elem hb (i + 1) es h.2

theorem emits_storeFields (type : Ir.Ty) {slot : Ir.Value} (hs : p.Operand slot) :
    ∀ (i : Nat) (ts : List Ty) (es : List Expr), p.AdmitsAll c es →
    Emits p (storeFields c type slot i ts es) fun _ => True
  | _, _, [], _ => by
    unfold storeFields
    exact .pure' trivial
  | _, [], _ :: _, _ => by
    unfold storeFields
    exact .pure' trivial
  | i, t :: ts, e :: es, h => by
    unfold storeFields
    exact .bind' (emits_valueOf e h.1) fun v hv => .bind' (emits_convertTo c e t hv) fun v' hv' =>
      .bind' (emits_fieldAddress type i hs) fun q hq => .bind' (emits_store hv' hq) fun _ _ =>
        emits_storeFields type hs (i + 1) ts es h.2

end

theorem emits_condition (e : Expr) (h : p.Admits c e) :
    Emits p (condition c e) p.Operand :=
  .bind' (emits_valueOf e h) fun _ hv => emits_truth e hv

theorem emits_valueAs (e : Expr) (t : Ty) (h : p.Admits c e) :
    Emits p (valueAs c e t) p.Operand :=
  .bind' (emits_valueOf e h) fun _ hv => emits_convertTo c e t hv

end Lower

end TreeLowering
