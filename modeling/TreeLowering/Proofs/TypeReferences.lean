import Mathlib.Logic.Function.Defs
import TreeLowering.Proofs.ScopeTree
import TreeLowering.Scope.Facts
import TreeLowering.Tree.Describe

/-!
Type references as they are written and as they resolve. The reference puts its modifiers behind the
name, the brackets of an array first and then a star for each pointer level
(`TypeRef.describe_eq`); the type that it resolves to prints them in that order around whatever the
name denotes (`Store.render_wrap`). So the two texts agree just if the name denotes a type that
prints as that name.

Main statement: `resolved_prints_as_written`.
-/
namespace TreeLowering

theorem utf8_injective : Function.Injective utf8 := fun s t h =>
  String.toByteArray_inj.mp (show s.toUTF8 = t.toUTF8 from ByteArray.ext (Array.toList_inj.mp h))

/-- A star for each of `n` pointer levels. -/
def stars (n : Nat) : String := String.ofList (List.replicate n '*')

theorem stars_succ (n : Nat) : stars (n + 1) = stars n ++ "*" := by
  rw [stars, List.replicate_succ', String.ofList_append]
  rfl

theorem Ty.isMissing_iff {type : Ty} : type.isMissing = true ↔ type = .missing := by
  cases type <;> simp [Ty.isMissing]

namespace TypeRef

/-- What is written behind the name. -/
def modifiers (t : TypeRef) : String := (if t.isArray then "[]" else "") ++ stars t.depth.toNat

theorem describe_eq {t : TypeRef} (h : 0 ≤ t.depth) :
    t.describe = .ok (utf8 (t.name ++ t.modifiers)) := by
  rw [describe, if_neg (Int.not_lt.mpr h), modifiers, stars]
  cases t.isArray
  · simp
  · simp [String.append_assoc]

/-- The type of a reference whose name denotes `base`. -/
def wrap (t : TypeRef) (base : Ty) : Ty :=
  Nat.repeat .pointer t.depth.toNat (if t.isArray then .array base else base)

end TypeRef

namespace Store

variable {st : Store} {s : Option ScopeId} {t : TypeRef}

/-! ## Printing -/

theorem render_pointers (n : Nat) (type : Ty) :
    st.render (Nat.repeat .pointer n type) = (st.render type).map (· ++ stars n) := by
  induction n with
  | zero =>
    have nothing : (· ++ stars 0) = (id : String → String) := funext fun text => by simp [stars]
    rw [nothing, Except.map_id]
    rfl
  | succ n ih =>
    calc st.render (Nat.repeat .pointer (n + 1) type)
        = (st.render (Nat.repeat .pointer n type)).map (· ++ "*") := by
          rw [render, Nat.repeat, Ty.render, render]
      _ = (st.render type).map (· ++ stars (n + 1)) := by
          rw [ih]
          cases st.render type with
          | error e => rfl
          | ok text => simp [Except.map, stars_succ, String.append_assoc]

theorem render_wrap (t : TypeRef) (base : Ty) :
    st.render (t.wrap base) = (st.render base).map (· ++ t.modifiers) := by
  rw [TypeRef.wrap, render_pointers, TypeRef.modifiers]
  cases t.isArray with
  | false => simp
  | true =>
    rw [if_pos rfl, if_pos rfl, render, Ty.render, render]
    cases base.render st.namedText with
    | error e => rfl
    | ok text => simp [Except.map, String.append_assoc]

/-! ## Resolving -/

theorem resolveTypeRef_of_missing (h : st.lookupType s t.name = .missing) :
    st.resolveTypeRef t s = .error ⟨t.site.position, t.name⟩ := by
  rw [resolveTypeRef, h]
  rfl

theorem resolveTypeRef_of_ne_missing (h : st.lookupType s t.name ≠ .missing) :
    st.resolveTypeRef t s = .ok (t.wrap (st.lookupType s t.name)) := by
  rw [resolveTypeRef, if_neg (mt Ty.isMissing_iff.mp h), TypeRef.wrap]

end Store

/-- A type reference resolves to a type that prints as the reference is written just if its name
    denotes a type that prints as that name. It fails, at its own position, just if the name denotes
    no type. -/
theorem resolved_prints_as_written (st : Store) (s : Option ScopeId) (t : TypeRef) :
    (0 ≤ t.depth → (st.render (st.lookupType s t.name) = .ok t.name ↔
      ∃ type text, st.resolveTypeRef t s = .ok type ∧ st.render type = .ok text ∧
        (Node.typeRef (some t)).describe = .ok (utf8 text))) ∧
    ∀ e, st.resolveTypeRef t s = .error e ↔
      st.lookupType s t.name = .missing ∧ e = ⟨t.site.position, t.name⟩ := by
  by_cases hm : st.lookupType s t.name = .missing
  · rw [Store.resolveTypeRef_of_missing hm]
    refine ⟨fun _ => ?_, fun e => ?_⟩
    · simp [hm, Store.render, Ty.render]
    · simp [hm, eq_comm]
  · rw [Store.resolveTypeRef_of_ne_missing hm]
    refine ⟨fun depth => ?_, fun e => by simp [hm]⟩
    have described : (Node.typeRef (some t)).describe = .ok (utf8 (t.name ++ t.modifiers)) :=
      TypeRef.describe_eq depth
    constructor
    · intro named
      exact ⟨_, t.name ++ t.modifiers, rfl, by rw [Store.render_wrap, named]; rfl, described⟩
    · rintro ⟨type, text, resolved, printed, written⟩
      obtain rfl := Except.ok.inj resolved
      obtain rfl := utf8_injective (Except.ok.inj (described.symm.trans written))
      rw [Store.render_wrap] at printed
      -- What stands before the modifiers is the text of the type and the name.
      cases hb : st.render (st.lookupType s t.name) with
      | error e => simp [hb, Except.map] at printed
      | ok base =>
        rw [hb] at printed
        exact congrArg _ ((String.append_left_inj _).mp (Except.ok.inj printed))

/-- A package that declares `Vec`. -/
def vectors : Store :=
  Store.initial.run [.newScope (some Store.root) none "package test", .declare (some ("Vec", {})),
    .insert 1 14]

/-- A reference that stands somewhere in the package. -/
def vectorsRef (name : String) (isArray : Bool) (depth : Int) : TypeRef :=
  { site := { id := 0, position := ⟨"a.pr", 2, 9⟩ }, name, isArray, depth }

/-- `Vec[]**` prints as it is written, and so do `string` and `i8[]`, which are identical types;
    `Nope` is not declared. -/
theorem resolved_prints_as_written_vectors : vectors.Reachable ∧
    (vectors.render (vectors.lookupType (some 1) "Vec") = .ok "Vec" ∧
      ∃ type, vectors.resolveTypeRef (vectorsRef "Vec" true 2) (some 1) = .ok type ∧
        vectors.render type = .ok "Vec[]**") ∧
    (∃ text bytes, vectors.resolveTypeRef (vectorsRef "string" false 0) (some 1) = .ok text ∧
      vectors.resolveTypeRef (vectorsRef "i8" true 0) (some 1) = .ok bytes ∧
      vectors.identical text bytes = true ∧ vectors.render text = .ok "string" ∧
      vectors.render bytes = .ok "i8[]") ∧
    vectors.lookupType (some 1) "Nope" = .missing ∧
    vectors.resolveTypeRef (vectorsRef "Nope" true 2) (some 1) =
      .error ⟨⟨"a.pr", 2, 9⟩, "Nope"⟩ := by
  -- A name of the package or the universe, with what its reference is written as.
  have prints (name : String) (isArray : Bool) (depth : Int) (written : String)
      (hd : 0 ≤ (vectorsRef name isArray depth).depth)
      (hn : vectors.render (vectors.lookupType (some 1) name) = .ok name)
      (hw : (vectorsRef name isArray depth).describe = .ok (utf8 written)) :
      ∃ type, vectors.resolveTypeRef (vectorsRef name isArray depth) (some 1) = .ok type ∧
        vectors.render type = .ok written := by
    obtain ⟨type, text, resolved, printed, described⟩ :=
      ((resolved_prints_as_written vectors (some 1) (vectorsRef name isArray depth)).1 hd).mp hn
    obtain rfl := utf8_injective (Except.ok.inj (described.symm.trans hw))
    exact ⟨type, resolved, printed⟩
  have vec : vectors.render (vectors.lookupType (some 1) "Vec") = .ok "Vec" := by decide +kernel
  obtain ⟨text, htext, textPrinted⟩ := prints "string" false 0 "string" (by decide)
    (by decide +kernel) (by decide +kernel)
  obtain ⟨bytes, hbytes, bytesPrinted⟩ := prints "i8" true 0 "i8[]" (by decide)
    (by decide +kernel) (by decide +kernel)
  have same : ((vectors.resolveTypeRef (vectorsRef "string" false 0) (some 1)).toOption.any
      fun x => (vectors.resolveTypeRef (vectorsRef "i8" true 0) (some 1)).toOption.any
        fun y => vectors.identical x y) = true := by decide +kernel
  rw [htext, hbytes] at same
  have undeclared : vectors.lookupType (some 1) "Nope" = .missing :=
    Ty.isMissing_iff.mp (by decide +kernel)
  exact ⟨⟨_, by decide +kernel, rfl⟩,
    ⟨vec, prints "Vec" true 2 "Vec[]**" (by decide) vec (by decide +kernel)⟩,
    ⟨text, bytes, htext, hbytes, same, textPrinted, bytesPrinted⟩, undeclared,
    ((resolved_prints_as_written vectors (some 1) (vectorsRef "Nope" true 2)).2 _).mpr
      ⟨undeclared, rfl⟩⟩

end TreeLowering
