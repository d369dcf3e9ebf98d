import TreeLowering.Proofs.Lines
import TreeLowering.Proofs.Symbols

/-!
Typed instructions, and programs of numbers.

`Ir.Module.WellTyped` says what has to fit in a module: the operands of operations and comparisons,
what is loaded and stored, the arguments of calls, and what functions return. Nothing checks this
when an instruction is made. `Node.Numeric` says what a program of numbers is: its variables are of
bool, integer or floating-point types, and so are parameters and results, but for results that are
void.

Numbers are the same exactly if they are equal (`eq_of_sameType`), and a declared type that stands
for a number is mapped to it (`Materialized.scalar`), so the function of a definition has exactly
the types of the definition (`Registry.matches`).
-/
namespace TreeLowering

open Lower

/-! ## Typed instructions -/

namespace Ir

/-- An instruction and its operands fit: both operands of an operation or comparison have one type,
    an address leads to what is loaded or stored there, and a function of the module is called with
    values of the types of its parameters. -/
def Inst.WellTyped (funcs : Array Function) : Inst → Prop
  | .arith _ x y | .icmp _ x y | .fcmp _ x y => x.type = y.type
  | .load type place => place.type = .pointer type
  | .store value place => place.type = .pointer value.type
  | .call callee args => ∃ (id : FuncId) (f : Function), funcs[id]? = some f ∧
      callee = f.value id ∧ args.map Value.type = f.params.map Prod.snd
  | .alloca _ _ | .address _ _ _ | .extractData _ | .fneg _ | .conv _ _ _ | .phi _ => True

/-- What is returned has the type of the result; nothing is returned exactly if that is void. -/
def Term.WellTyped (result : Ty) : Term → Prop
  | .ret none => result = .void
  | .ret (some v) => v.type = result ∧ result ≠ .void
  | .br _ | .condBr _ _ _ | .unreachable => True

/-- All instructions and all ends of blocks fit. -/
def Module.WellTyped (m : Module) : Prop :=
  ∀ f ∈ m.funcs, ∀ block ∈ f.blocks,
    block.All (Inst.WellTyped m.funcs) (Term.WellTyped f.result)

theorem Term.wellTyped_of_successors {result : Ty} {t : Term} (h : t.successors ≠ []) :
    t.WellTyped result := by
  cases t with
  | ret => exact absurd rfl h
  | _ => trivial

theorem Function.type_inj {f f' : Function} (h : f'.type = f.type) :
    f'.result = f.result ∧ f'.params.map Prod.snd = f.params.map Prod.snd :=
  (Ty.func.injEq _ _ _ _).mp h

theorem Function.value_congr {f f' : Function} (h : f'.type = f.type) (id : FuncId) :
    f'.value id = f.value id := by
  obtain ⟨hr, hp⟩ := type_inj h
  rw [Function.value, Function.value, hr, hp]

/-- A call fits as long as functions keep their types. -/
theorem Inst.WellTyped.keep {s s' : State} {inst : Inst} (h : inst.WellTyped s.module.funcs)
    (k : Registry.KeepsTypes s s') : inst.WellTyped s'.module.funcs := by
  cases inst with
  | call callee args =>
    obtain ⟨id, f, hf, hc, ha⟩ := h
    obtain ⟨f', hf', -, ht⟩ := k id f hf
    exact ⟨id, f', hf', hc.trans (Function.value_congr ht id).symm,
      ha.trans (Function.type_inj ht).2.symm⟩
  | arith | icmp | fcmp | load | store => exact h
  | _ => trivial

/-! ## Numbers -/

/-- Integer and floating-point types. -/
def Ty.IsNumber : Ty → Prop
  | .int _ | .float _ => True
  | _ => False

/-- Numbers, and the type of no value. -/
def Ty.IsScalar : Ty → Prop
  | .int _ | .float _ | .void => True
  | _ => False

theorem Ty.IsNumber.isScalar {t : Ty} (h : t.IsNumber) : t.IsScalar := by
  cases t <;> trivial

theorem Ty.eq_of_unindexed {unnamed : List Ty} {a b : Ty}
    (h : (a.expand unnamed).unindexed = (b.expand unnamed).unindexed) (hb : b.IsScalar) :
    a = b := by
  have hb' : (b.expand unnamed).unindexed = b := by
    cases b with
    | int | float | void => simp [Ty.expand, Ty.unindexed]
    | _ => cases hb
  rw [hb'] at h
  subst h
  cases a with
  | int | float | void => simp [Ty.expand, Ty.unindexed]
  | defined index name =>
    by_cases hn : name = "" <;> simp [Ty.expand, Ty.unindexed, hn, Ty.IsScalar] at hb
  | _ => simp [Ty.expand, Ty.unindexed, Ty.IsScalar] at hb

theorem Ty.eq_of_unindexedAll {unnamed : List Ty} : ∀ {as bs : List Ty},
    Ty.unindexedAll (Ty.expandAll unnamed as) = Ty.unindexedAll (Ty.expandAll unnamed bs) →
      (∀ b ∈ bs, b.IsScalar) → as = bs
  | [], [], _, _ => rfl
  | [], _ :: _, h, _ => by simp [Ty.expandAll, Ty.unindexedAll] at h
  | _ :: _, [], h, _ => by simp [Ty.expandAll, Ty.unindexedAll] at h
  | a :: as, b :: bs, h, hb => by
    simp only [Ty.expandAll, Ty.unindexedAll, List.cons.injEq] at h
    obtain ⟨hfirst, hrest⟩ := List.forall_mem_cons.mp hb
    rw [eq_of_unindexed h.1 hfirst, eq_of_unindexedAll h.2 hrest]

/-- Scalars are the same only if they are equal. -/
theorem eq_of_sameType {defs : Array TypeDef} {a b : Ty} (h : sameType defs a b = true)
    (hb : b.IsScalar) : a = b :=
  Ty.eq_of_unindexed (sameType_iff.mp h) hb

theorem func_eq_of_sameType {defs : Array TypeDef} {r r' : Ty} {ps ps' : List Ty}
    (h : sameType defs (.func r ps) (.func r' ps') = true) (hr : r'.IsScalar)
    (hp : ∀ p ∈ ps', p.IsScalar) : r = r' ∧ ps = ps' := by
  have same := sameType_iff.mp h
  simp only [Ty.expand, Ty.unindexed, Ty.func.injEq] at same
  exact ⟨Ty.eq_of_unindexed same.1 hr, Ty.eq_of_unindexedAll same.2 hp⟩

end Ir

namespace Store

variable {store : Store} {t : Ty} {T : Ir.Ty}

/-- The instruction type of a bool, integer or floating-point type. -/
def number? (store : Store) (t : Ty) : Option Ir.Ty :=
  ((store.scalar? t).filter fun k => !k.isVoid).map scalarType

/-- The instruction type of a result: a number, or void also where none is written. -/
def result? (store : Store) (t : Ty) : Option Ir.Ty :=
  if t.isMissing then some .void else (store.scalar? t).map scalarType

theorem number?_eq_some :
    store.number? t = some T ↔ ∃ k, store.scalar? t = some k ∧ k ≠ .void ∧ scalarType k = T := by
  simp [number?, Option.filter_eq_some_iff, Scalar.isVoid, and_assoc]

theorem isNumber_of_number? (h : store.number? t = some T) : T.IsNumber := by
  obtain ⟨k, -, hk, rfl⟩ := number?_eq_some.mp h
  cases k with
  | void => exact absurd rfl hk
  | _ => trivial

theorem isNumber_of_numbers {fields : List (String × Ty)} {Ns : List Ir.Ty}
    (h : fields.map (fun p => store.number? p.2) = Ns.map some) : ∀ N ∈ Ns, N.IsNumber := by
  intro N hN
  have hmem : some N ∈ fields.map fun p => store.number? p.2 := by
    rw [h]
    exact List.mem_map_of_mem hN
  obtain ⟨p, -, hp⟩ := List.mem_map.mp hmem
  exact isNumber_of_number? hp

theorem isScalar_of_result? (h : store.result? t = some T) : T.IsScalar := by
  unfold result? at h
  split at h
  · cases h
    trivial
  · obtain ⟨k, -, rfl⟩ := Option.map_eq_some_iff.mp h
    cases k <;> trivial

/-- A result that is missing or void is void. -/
theorem result?_of_void (hv : (t.isMissing || store.isVoid t) = true)
    (h : store.result? t = some T) : T = .void := by
  unfold result? at h
  split at h
  · exact (Option.some.inj h).symm
  · rename_i hm
    obtain ⟨k, hk, rfl⟩ := Option.map_eq_some_iff.mp h
    simp only [hm, Bool.false_or, isVoid, hk, Option.any_some, Scalar.isVoid,
      decide_eq_true_eq] at hv
    rw [hv]
    rfl

/-- Any other result is a number. -/
theorem number?_of_result? (hv : ¬(t.isMissing || store.isVoid t) = true)
    (h : store.result? t = some T) : store.number? t = some T := by
  simp only [Bool.or_eq_true, not_or] at hv
  rw [result?, if_neg hv.1] at h
  obtain ⟨k, hk, rfl⟩ := Option.map_eq_some_iff.mp h
  refine number?_eq_some.mpr ⟨k, hk, ?_, rfl⟩
  rintro rfl
  exact hv.2 (by simp [isVoid, hk, Scalar.isVoid])

end Store

/-! ## The types of numbers in the table -/

section
variable {store : Store} {pending : NamedId → Prop} {s : State}

/-- A type that stands for a scalar is mapped to it. -/
theorem Materialized.scalar (hm : Materialized store pending s) {t : Ty} {k : Scalar} {T : Ir.Ty}
    (hk : store.scalar? t = some k) (h : readType store s.known t = some T) : T = scalarType k := by
  have hu : store.underlying t = .scalar k := by
    unfold Store.scalar? at hk
    split at hk
    · rename_i k' hu
      cases hk
      exact hu
    · cases hk
  have plain : readType store s.known (store.underlying t) = some T := by
    cases t with
    | named id => exact hm.plain h (by simp [Store.structFields?, hu])
    | _ => exact h
  rw [hu] at plain
  exact (Option.some.inj plain).symm

theorem Materialized.number (hm : Materialized store pending s) {t : Ty} {N T : Ir.Ty}
    (hn : store.number? t = some N) (h : readType store s.known t = some T) : T = N := by
  obtain ⟨k, hk, -, rfl⟩ := Store.number?_eq_some.mp hn
  exact hm.scalar hk h

theorem Materialized.result (hm : Materialized store pending s) {t : Ty} {N T : Ir.Ty}
    (hn : store.result? t = some N)
    (h : (if t.isMissing then some .void else readType store s.known t) = some T) : T = N := by
  unfold Store.result? at hn
  split at h
  · rename_i hmiss
    rw [if_pos hmiss] at hn
    exact Option.some.inj (h.symm.trans hn)
  · rename_i hmiss
    rw [if_neg hmiss] at hn
    obtain ⟨k, hk, rfl⟩ := Option.map_eq_some_iff.mp hn
    exact hm.scalar hk h

theorem Materialized.numbers (hm : Materialized store pending s) :
    ∀ {fields : List (String × Ty)} {Ns Ts : List Ir.Ty},
      fields.map (fun p => store.number? p.2) = Ns.map some →
      readFields store s.known fields = some Ts → Ts = Ns
  | [], [], _, _, h => (Option.some.inj h).symm
  | (_, t) :: rest, N :: Ns, _, hn, h => by
    obtain ⟨hN, hNs⟩ := List.cons.inj hn
    obtain ⟨T, hT, hrest⟩ := Option.bind_eq_some_iff.mp h
    obtain ⟨Us, hU, he⟩ := Option.bind_eq_some_iff.mp hrest
    cases he
    rw [hm.number hN hT, hm.numbers hNs hU]

end

/-! ## Programs of numbers -/

section
variable (c : Context)

/-- The variable that a name denotes holds a number. -/
def NamesNumber (name : String) (site : Site) : Prop :=
  ∀ v, c.analysis.resolve name (some site) = some v →
    (c.analysis.store.number? (variableType c v)).isSome

/-- The types of a function of numbers; its result may be void. -/
def FuncHead.HasTypes (h : FuncHead) (result : Ir.Ty) (params : List Ir.Ty) : Prop :=
  ∃ ps r inactive, c.analysis.typeOfFunc h = .func ps r inactive ∧
    c.analysis.store.result? r = some result ∧
    ps.map (fun p => c.analysis.store.number? p.2) = params.map some

/-- A definition that a call of a name can reach. -/
def Callee (F : Definitions) (name : String) (site : Site) (h : FuncHead) : Prop :=
  ∃ v body, c.analysis.resolve name (some site) = some v ∧ F h body ∧ h.Active c ∧
    c.analysis.resolve h.name (some h.site) = some v

/-- Expressions of numbers: literals, variables, calls of functions with a result, assignments to
    variables, operators, and conversions to numbers. -/
inductive Expr.Numeric (F : Definitions) : Expr → Prop where
  | absent : Numeric F .absent
  | intLit {site value}
      (type : (c.analysis.store.number? (c.analysis.typeOfExpr (.intLit site value))).isSome) :
      Numeric F (.intLit site value)
  | floatLit {site bits}
      (type : (c.analysis.store.number? (c.analysis.typeOfExpr (.floatLit site bits))).isSome) :
      Numeric F (.floatLit site bits)
  | boolLit {site value} : Numeric F (.boolLit site value)
  | varRef {site name step} (number : NamesNumber c name site) : Numeric F (.varRef site name step)
  | call {site name args} (operands : ∀ e ∈ args, Numeric F e)
      (result : ∀ h T ps, Callee c F name site h → h.HasTypes c T ps → T.IsNumber) :
      Numeric F (.call site name args)
  | assign {site place name step value} (number : NamesNumber c name place)
      (operand : Numeric F value) : Numeric F (.assign site (.varRef place name step) value)
  | binary {site op x y} (left : Numeric F x) (right : Numeric F y) :
      Numeric F (.binary site op x y)
  | unary {site op x} (known : op ∈ [UnaryOp.plus, .neg, .not, .complement])
      (operand : Numeric F x) : Numeric F (.unary site (.known op) x)
  | cast {site x target}
      (type : ∀ r, target = some r →
        (c.analysis.store.number? (c.analysis.typeOfRef r)).isSome)
      (operand : Numeric F x) : Numeric F (.cast site x target)

/-- A function of numbers: its own variable is no number, it has the types of a function of numbers,
    and the variables of its parameters have the types of the parameters. -/
structure FuncHead.Numeric (h : FuncHead) (body : Block) : Prop where
  name : ∀ v, c.analysis.resolve h.name (some h.site) = some v →
    c.analysis.store.number? (variableType c v) = none
  types : ∃ result params, h.HasTypes c result params
  params : ∀ ps r inactive site, c.analysis.typeOfFunc h = .func ps r inactive →
    body.site? = some site → ∀ p ∈ (h.params.map Prod.fst).zip ps, ∀ v,
      c.analysis.resolve p.1 (some site) = some v →
      c.analysis.store.number? (variableType c v) = c.analysis.store.number? p.2.2

/-- Statements and declarations of numbers. A call that is a statement may have no result. -/
def Node.Numeric (F : Definitions) : Node → Prop
  | .expr e => e.Numeric c F ∨ ∃ site name args, e = .call site name args ∧
      ∀ a ∈ args, a.Numeric c F
  | .varDecl d => NamesNumber c d.name d.site ∧ d.value.Numeric c F
  | .funcDecl h body => h.Numeric c body
  | .ret _ e => e.Numeric c F
  | n => ∀ e ∈ n.conditions, e.Numeric c F

end

/-- The function of a definition of numbers has exactly the types of the definition. -/
theorem Registry.hasTypes {c : Context} {F : Definitions} {s : State} (R : Registry c F s)
    {h : FuncHead} {body : Block} (hd : F h body) (hn : h.Numeric c body) {id : Ir.FuncId}
    (hp : s.prototypes.lookup h.site.id = some (some id)) :
    ∃ f, s.module.funcs[id]? = some f ∧ h.HasTypes c f.result (f.params.map Prod.snd) := by
  obtain ⟨f, hf, -, -⟩ := R.function (R.bound hd hp).2
  obtain ⟨N, Ns, ps, r, inactive, htype, hr, hps⟩ := hn.types
  obtain ⟨T, Ts, hread, hsame⟩ := R.signature hd hp hf htype
  obtain ⟨T', hT, hrest⟩ := Option.bind_eq_some_iff.mp hread
  obtain ⟨Ts', hTs, he⟩ := Option.bind_eq_some_iff.mp hrest
  cases he
  cases R.types.result hr hT
  cases R.types.numbers hps hTs
  have numbers : ∀ T ∈ Ns, T.IsScalar := fun T hT =>
    (Store.isNumber_of_numbers hps T hT).isScalar
  obtain ⟨rfl, hparams⟩ := Ir.func_eq_of_sameType hsame (Store.isScalar_of_result? hr) numbers
  exact ⟨f, hf, ps, r, inactive, htype, hr, hparams ▸ hps⟩

end TreeLowering
