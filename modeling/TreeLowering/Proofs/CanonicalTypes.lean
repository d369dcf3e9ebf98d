import Mathlib.Data.List.Forall2
import TreeLowering.Scope.Types

/-!
Identity of types as equality of forms.

The form of a type is what is left of it when a declared type is replaced by its type name, a scalar
type by its kind and the string type by the array that it is, and when the names of parameters and
the activity of functions are dropped. Two types are identical if and only if their forms are equal
(`Ty.identical_iff`), so identity is an equivalence; and the form of a type is made from the forms
of its parts, so identity goes through every constructor.

Main statement: `identical_iff_form_eq`.
-/
namespace TreeLowering

/-- What identity sees of a type. -/
inductive TypeForm where
  /-- No type. -/
  | missing
  | scalar (kind : Scalar)
  | array (elem : TypeForm)
  | pointer (base : TypeForm)
  | struct (fields : List (String × TypeForm))
  | func (params : List TypeForm) (result : TypeForm)
  /-- A declared type by its type name; one without a name is like any other without one. -/
  | declared (object : Option ObjectId)
deriving Repr, Inhabited

namespace Ty

variable (declaration : NamedId → Option ObjectId)

mutual

/-- The form of a type, given the type names of declared types. -/
def form : Ty → TypeForm
  | .missing => .missing
  | .scalar k => .scalar k
  | .string => .array (.scalar .i8)
  | .array t => .array (form t)
  | .pointer t => .pointer (form t)
  | .struct fields => .struct (fieldForms fields)
  | .func params result _ => .func (paramForms params) (form result)
  | .named id => .declared (declaration id)

/-- The forms of struct fields, with their names. -/
def fieldForms : List (String × Ty) → List (String × TypeForm)
  | [] => []
  | (name, t) :: rest => (name, form t) :: fieldForms rest

/-- The forms of parameters. -/
def paramForms : List (String × Ty) → List TypeForm
  | [] => []
  | (_, t) :: rest => form t :: paramForms rest

end

theorem fieldForms_eq_map (fields : List (String × Ty)) :
    fieldForms declaration fields = fields.map fun f => (f.1, f.2.form declaration) := by
  induction fields with
  | nil => rfl
  | cons f rest ih => rw [fieldForms, ih, List.map_cons]

theorem paramForms_eq_map (params : List (String × Ty)) :
    paramForms declaration params = params.map fun p => p.2.form declaration := by
  induction params with
  | nil => rfl
  | cons p rest ih => rw [paramForms, ih, List.map_cons]

variable {declaration}

/-- Only a scalar type has the form of one. -/
theorem form_eq_scalar {t : Ty} {k : Scalar} :
    t.form declaration = .scalar k ↔ t = .scalar k := by
  cases t <;> simp [form]

theorem form_eq_missing {t : Ty} : t.form declaration = .missing ↔ t.isMissing = true := by
  cases t <;> simp [form, isMissing]

mutual

/-- Two types are identical if and only if their forms are equal. -/
theorem identical_iff : ∀ x y : Ty,
    identical declaration x y = true ↔ x.form declaration = y.form declaration
  | .missing, y => by
    rw [identical, form]
    exact form_eq_missing.symm.trans eq_comm
  | .scalar k, y => by
    cases y <;> simp [identical, form]
  | .string, y => by
    cases y with
    | array t =>
      -- only the array of `i8` itself has the form of the string type
      have only : identical declaration .string (.array t) = true ↔ t = .scalar .i8 := by
        cases t with
        | scalar k => cases k <;> simp [identical]
        | _ => simp [identical]
      simpa only [form, TypeForm.array.injEq, eq_comm, form_eq_scalar] using only
    | _ => simp [identical, form]
  | .array t, y => by
    cases y with
    | array t' => simpa only [identical, form, TypeForm.array.injEq] using identical_iff t t'
    | string =>
      simpa only [identical, form, TypeForm.array.injEq] using identical_iff t (.scalar .i8)
    | _ => simp [identical, form]
  | .pointer t, y => by
    cases y with
    | pointer t' => simpa only [identical, form, TypeForm.pointer.injEq] using identical_iff t t'
    | _ => simp [identical, form]
  | .struct fields, y => by
    cases y with
    | struct fields' =>
      simpa only [identical, form, TypeForm.struct.injEq] using
        identicalFields_iff fields fields'
    | _ => simp [identical, form]
  | .func params result _, y => by
    cases y with
    | func params' result' _ =>
      simp only [identical, form, TypeForm.func.injEq, Bool.and_eq_true,
        identicalParams_iff params params', identical_iff result result']
    | _ => simp [identical, form]
  | .named id, y => by
    cases y <;> simp [identical, form]

theorem identicalFields_iff : ∀ xs ys : List (String × Ty),
    identicalFields declaration xs ys = true ↔
      fieldForms declaration xs = fieldForms declaration ys
  | [], ys => by
    cases ys <;> simp [identicalFields, fieldForms]
  | (name, t) :: xs, [] => by simp [identicalFields, fieldForms]
  | (name, t) :: xs, (name', t') :: ys => by
    simp only [identicalFields, fieldForms, Bool.and_eq_true, decide_eq_true_eq, List.cons.injEq,
      Prod.mk.injEq, identical_iff t t', identicalFields_iff xs ys]

theorem identicalParams_iff : ∀ xs ys : List (String × Ty),
    identicalParams declaration xs ys = true ↔
      paramForms declaration xs = paramForms declaration ys
  | [], ys => by
    cases ys <;> simp [identicalParams, paramForms]
  | (_, t) :: xs, [] => by simp [identicalParams, paramForms]
  | (_, t) :: xs, (_, t') :: ys => by
    simp only [identicalParams, paramForms, Bool.and_eq_true, List.cons.injEq,
      identical_iff t t', identicalParams_iff xs ys]

end

end Ty

/-- Two lists have the same images if and only if they agree place by place. -/
theorem map_eq_map_iff_forall₂ {α β : Type} {f : α → β} {xs ys : List α} :
    xs.map f = ys.map f ↔ List.Forall₂ (fun x y => f x = f y) xs ys := by
  rw [← List.forall₂_eq_eq_eq, List.forall₂_map_left_iff, List.forall₂_map_right_iff]

namespace Store

/-- The form of a type, by the type names that a store holds. -/
def form (st : Store) (t : Ty) : TypeForm := t.form st.declaration

variable {st : Store}

theorem identical_iff {x y : Ty} : st.identical x y = true ↔ st.form x = st.form y :=
  Ty.identical_iff x y

theorem identical_equivalence (st : Store) : Equivalence fun x y => st.identical x y = true where
  refl _ := identical_iff.mpr rfl
  symm h := identical_iff.mpr (identical_iff.mp h).symm
  trans h h' := identical_iff.mpr ((identical_iff.mp h).trans (identical_iff.mp h'))

theorem identical_array_iff {x y : Ty} :
    st.identical (.array x) (.array y) = true ↔ st.identical x y = true := by
  simp only [identical_iff, form, Ty.form, TypeForm.array.injEq]

theorem identical_pointer_iff {x y : Ty} :
    st.identical (.pointer x) (.pointer y) = true ↔ st.identical x y = true := by
  simp only [identical_iff, form, Ty.form, TypeForm.pointer.injEq]

theorem identical_struct_iff {xs ys : List (String × Ty)} :
    st.identical (.struct xs) (.struct ys) = true ↔
      List.Forall₂ (fun x y => x.1 = y.1 ∧ st.identical x.2 y.2 = true) xs ys := by
  simp only [identical_iff, form, Ty.form, TypeForm.struct.injEq, Ty.fieldForms_eq_map,
    map_eq_map_iff_forall₂, Prod.mk.injEq]

theorem identical_func_iff {ps qs : List (String × Ty)} {r q : Ty} {i j : Bool} :
    st.identical (.func ps r i) (.func qs q j) = true ↔
      List.Forall₂ (fun x y => st.identical x.2 y.2 = true) ps qs ∧ st.identical r q = true := by
  simp only [identical_iff, form, Ty.form, TypeForm.func.injEq, Ty.paramForms_eq_map,
    map_eq_map_iff_forall₂]

end Store

/-- Two types are identical if and only if their forms are equal. Identity is therefore an
    equivalence, and types made in one way from parts are identical just when the parts are: fields
    in names and types, parameters in types alone. -/
theorem identical_iff_form_eq (st : Store) :
    (∀ x y, st.identical x y = true ↔ st.form x = st.form y) ∧
    Equivalence (fun x y => st.identical x y = true) ∧
    (∀ x y, st.identical (.array x) (.array y) = true ↔ st.identical x y = true) ∧
    (∀ x y, st.identical (.pointer x) (.pointer y) = true ↔ st.identical x y = true) ∧
    (∀ xs ys, st.identical (.struct xs) (.struct ys) = true ↔
      List.Forall₂ (fun x y => x.1 = y.1 ∧ st.identical x.2 y.2 = true) xs ys) ∧
    ∀ ps qs r q i j, st.identical (.func ps r i) (.func qs q j) = true ↔
      List.Forall₂ (fun x y => st.identical x.2 y.2 = true) ps qs ∧ st.identical r q = true :=
  ⟨fun _ _ => Store.identical_iff, st.identical_equivalence, fun _ _ => Store.identical_array_iff,
    fun _ _ => Store.identical_pointer_iff, fun _ _ => Store.identical_struct_iff,
    fun _ _ _ _ _ _ => Store.identical_func_iff⟩

/-- A function over a text and a struct is identical to one with other parameter names where the
    text is an array of `i8`; the names of fields count. -/
example (st : Store) :
    st.identical (.func [("s", .string), ("p", .struct [("x", .missing)])] .missing true)
      (.func [("", .array (.scalar .i8)), ("q", .struct [("x", .missing)])] .missing false) = true ∧
    st.identical (.struct [("x", .missing)]) (.struct [("y", .missing)]) = false :=
  ⟨rfl, rfl⟩

end TreeLowering
