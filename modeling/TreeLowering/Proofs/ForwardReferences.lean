import TreeLowering.Proofs.Oversight

/-!
References ahead of definitions.

The functions of a unit are bound to their variables before anything else is lowered, and no
variable is ever unbound again. So wherever a unit fails because a variable is used before its
definition, the variable is not the one of a function at the top level: all of these are bound at
that point (`forwardReference_resolves`), whatever the order of the declarations.
-/
namespace TreeLowering

open Lower

/-- Some expression of the nodes refers to a variable by this name at this site. -/
def Node.Refers (ns : List Node) (name : String) (site : Site) : Prop :=
  ∃ n ∈ partsAll ns, ∃ e ∈ n.expressions, .reference name site ∈ e.mentions

theorem Node.refers_of_mem_total {ns : List Node} {name : String} {site : Site}
    (h : .reference name site ∈ total (partsAll ns)) : Node.Refers ns name site := by
  obtain ⟨n, hn, hm⟩ := mem_sum_map.mp h
  refine ⟨n, hn, ?_⟩
  unfold Node.own at hm
  split at hm
  · simp at hm
  · exact mem_sum_map.mp hm

/-- The variable of an active function that is defined at the top level. -/
def IsTopFunction (c : Context) (decls : List Node) (v : ObjectId) : Prop :=
  ∃ n ∈ decls, ∃ h body, n.unwrap = .funcDecl h body ∧ h.Active c ∧
    c.analysis.resolve h.name (some h.site) = some v

namespace Lower

variable {c : Context} {decls : List Node}

/-- The variables of all top-level functions are bound. -/
def Bound (c : Context) (decls : List Node) (s : State) : Prop :=
  ∀ v, IsTopFunction c decls v → ∃ place, s.values.lookup v = some place

theorem Bound.of_values {s s' : State} (hb : Bound c decls s) (h : s'.values = s.values) :
    Bound c decls s' := by
  unfold Bound
  rwa [h]

theorem exists_lookup_cons {values : List (ObjectId × Ir.Value)} {v : ObjectId}
    (h : ∃ place, values.lookup v = some place) (w : ObjectId) (x : Ir.Value) :
    ∃ place, ((w, x) :: values).lookup v = some place := by
  rw [List.lookup_cons]
  split
  · exact ⟨x, rfl⟩
  · exact h

/-- While the unit's mentions `k` are to come, its top-level functions are bound. -/
def Prepared (c : Context) (decls : List Node) (k : Multiset Mention) (s : State) : Prop :=
  Bound c decls s ∧ ∀ m ∈ k, m ∈ Node.total (Node.partsAll decls)

/-- A use before the definition is the use of a variable that is not bound, while all top-level
    functions are. -/
def Blames (c : Context) (decls : List Node) (f : Fault) (s : State) : Prop :=
  ∀ pos name, f = .rejected pos (.usedBeforeDefinition name) →
    Bound c decls s ∧ ∃ ref site v, .reference ref site ∈ Node.total (Node.partsAll decls) ∧
      c.analysis.resolve ref (some site) = some v ∧ s.values.lookup v = none ∧
      f = .rejected site.position (.usedBeforeDefinition (c.analysis.store.nameOf v))

theorem blames_of_isOrdinary {f : Fault} {s : State} (h : f.IsOrdinary) : Blames c decls f s := by
  rintro pos name rfl
  cases h

/-- Entering a prototype fails for other reasons, and only adds to the bound variables. -/
theorem enterPrototype_blames (h : FuncHead) (body : Block) {s s' : State} {f : Fault}
    (hr : enterPrototype c h body s = .error f s') : Blames c decls f s' := by
  rcases enterPrototype_eq_error hr with hf | rfl
  · exact blames_of_isOrdinary hf
  · rintro pos name hf
    cases hf

theorem enterPrototype_bound {h : FuncHead} {body : Block} {s s' : State} {u : Unit}
    (hr : enterPrototype c h body s = .ok u s') :
    (∀ v, (∃ place, s.values.lookup v = some place) → ∃ place, s'.values.lookup v = some place) ∧
      ∀ v, h.Active c → c.analysis.resolve h.name (some h.site) = some v →
        ∃ place, s'.values.lookup v = some place := by
  obtain ⟨-, ⟨inactive, hv, -⟩ | ⟨-, v, id, hres, hv, -⟩⟩ := enterPrototype_eq_ok hr
  · rw [hv]
    exact ⟨fun _ hb => hb, fun _ active => absurd active inactive⟩
  · rw [hv]
    refine ⟨fun w hb => exists_lookup_cons hb v _, fun w _ hw => ?_⟩
    rw [hres] at hw
    cases hw
    exact ⟨_, List.lookup_cons_self⟩

/-- The prototypes in order bind the variables of all active functions among them. -/
theorem prototypes_bound : ∀ {funcs : List (FuncHead × Block)} {s s' : State} {u : PUnit},
    (funcs.forM fun (h, body) => enterPrototype c h body) s = .ok u s' →
    (∀ v, (∃ place, s.values.lookup v = some place) → ∃ place, s'.values.lookup v = some place) ∧
      ∀ p ∈ funcs, ∀ v, p.1.Active c → c.analysis.resolve p.1.name (some p.1.site) = some v →
        ∃ place, s'.values.lookup v = some place
  | [], s, s', u, hr => by
    obtain ⟨-, rfl⟩ := pure_eq_ok.mp hr
    exact ⟨fun _ hb => hb, fun _ hp => nomatch hp⟩
  | (h, body) :: funcs, s, s', u, hr => by
    obtain ⟨_, s₁, h₁, h₂⟩ := bind_eq_ok.mp hr
    obtain ⟨keep₁, new₁⟩ := enterPrototype_bound h₁
    obtain ⟨keep₂, new₂⟩ := prototypes_bound h₂
    refine ⟨fun v hb => keep₂ v (keep₁ v hb), fun p hp v active hv => ?_⟩
    rcases List.mem_cons.mp hp with rfl | hp
    · exact keep₂ v (new₁ v active hv)
    · exact new₂ p hp v active hv

theorem oversees_prepared (c : Context) (decls : List Node) :
    Oversees c (Prepared c decls) (Blames c decls) where
  less hle hs := ⟨hs.1, fun m hm => hs.2 m (Multiset.mem_of_le hle hm)⟩
  ordinary _ _ h := blames_of_isOrdinary h
  tolerant _ := .of_calm fun calm hs => ⟨hs.1.of_values calm.values, hs.2⟩
  unbound hs hm hv hl := fun _ _ _ => ⟨hs.1, _, _, _, hs.2 _ hm, hv, hl, rfl⟩
  bind v value hs := ⟨fun w hw => exists_lookup_cons (hs.1 w hw) v value, hs.2⟩
  report _ hs := hs
  global _ _ _ s g s' h hs := ⟨hs.1.of_values (steady_addGlobal _ _ s g s' h).2.values, hs.2⟩
  enter body _ s hs := by
    refine ⟨fun u s' hr => ⟨fun v hv => ?_, hs.2⟩, fun f s' hr => enterPrototype_blames _ _ hr⟩
    exact (enterPrototype_bound hr).1 v (hs.1 v hv)
  unprototyped _ _ _ _ := fun _ _ hf => nomatch hf
  twice _ _ _ := fun _ _ hf => nomatch hf
  begin _ _ hs := ⟨hs.1, fun m hm => hs.2 m (Multiset.mem_add.mpr (.inr hm))⟩
  install _ hs := hs

/-- A unit that fails blames uses before a definition on variables that are not bound. -/
theorem wholeUnit_blames {s s' : State} {f : Fault} (h : wholeUnit c decls s = .error f s') :
    Blames c decls f s' := by
  obtain ⟨trace, h⟩ := wholeUnit_eq_error h
  refine (oversees_prepared c decls).topLevel (P := fun _ => True) ?_ ?_ trivial h
  · refine fun s₀ _ => ⟨fun u s₁ hr => ⟨?_, fun _ hm => hm⟩, ?_⟩
    · rintro v ⟨n, hn, head, body, he, active, hv⟩
      exact (prototypes_bound hr).2 _ (mem_funcs_emissionOrder.mpr ⟨n, hn, he⟩) v active hv
    · have fails : Passes (fun _ => True) (fun _ => True) (Blames c decls)
          ((emissionOrder c.analysis false decls).funcs.forM fun (h, body) =>
            enterPrototype c h body) := .forM_mem fun p _ _ _ =>
        ⟨fun _ _ _ => trivial, fun _ _ hr => enterPrototype_blames _ _ hr⟩
      exact (fails s₀ trivial).2
  · exact fun _ _ _ _ _ _ _ hf => nomatch hf

end Lower

/-- A unit that fails with a use before the definition does so for a reference to a variable that
    belongs to no top-level function. Where it fails, any reference to a top-level function finds
    what its variable is bound to. -/
theorem forwardReference_resolves (analysis : Analysis) (config : Config) (decls : List Node)
    (pos : Position) (name : String)
    (h : (lowerUnit analysis config decls).result =
      .error (.fault (.rejected pos (.usedBeforeDefinition name)))) :
    ∃ s, wholeUnit ⟨analysis, config⟩ decls { module := { triple := config.triple } } =
        .error (.rejected pos (.usedBeforeDefinition name)) s ∧
      (∃ ref site v, Node.Refers decls ref site ∧ analysis.resolve ref (some site) = some v ∧
        ¬ IsTopFunction ⟨analysis, config⟩ decls v ∧
        boundTo ⟨analysis, config⟩ v site s =
          .error (.rejected pos (.usedBeforeDefinition name)) s) ∧
      ∀ ref site v, analysis.resolve ref (some site) = some v →
        IsTopFunction ⟨analysis, config⟩ decls v →
        ∃ place, boundTo ⟨analysis, config⟩ v site s = .ok place s := by
  obtain ⟨s, hs⟩ := lowerUnit_eq_fault h
  obtain ⟨bound, ref, site, v, hm, hv, hl, hf⟩ := wholeUnit_blames hs pos name rfl
  refine ⟨s, hs, ⟨ref, site, v, Node.refers_of_mem_total hm, hv, fun top => ?_, ?_⟩, ?_⟩
  · obtain ⟨place, hp⟩ := bound v top
    rw [hl] at hp
    cases hp
  · simp only [boundTo, get_bind_apply, hl]
    rw [hf]
    rfl
  · intro ref' site' w _ top
    obtain ⟨place, hp⟩ := bound w top
    refine ⟨place, ?_⟩
    simp only [boundTo, get_bind_apply, hp]
    rfl

/-- A function `f` after a call of it, and a variable `x` after its use as the argument. -/
def forwardAnalysis : Analysis where
  store :=
    { scopes := #[{}, { parent := some 0, bindings := [("f", 0), ("x", 1)] },
        { parent := some 1, bindings := [("n", 2)], function := some 5 }]
      objects := #[
        { name := "f", type := .func [("n", .scalar .i32)] (.scalar .i32) false,
          kind := .variable {} },
        { name := "x", type := .scalar .i32, kind := .variable {} },
        { name := "n", type := .scalar .i32, kind := .variable {} }] }
  facts := {}

def forwardUnit : List Node :=
  [.expr (.call { id := 1, scope := some 1 } "f"
      [.call { id := 2, scope := some 1 } "f"
        [.varRef { id := 3, position := { line := 1, column := 5 }, scope := some 1 } "x"
          (.known .none)]]),
    .varDecl { site := { id := 4, scope := some 1 }, token := .known .varWord, name := "x" },
    .funcDecl { site := { id := 5, scope := some 1 }, name := "f", params := [("n", none)] }
      (.mk { id := 6, scope := some 2 }
        [.ret { id := 7, scope := some 2 }
          (.varRef { id := 8, scope := some 2 } "n" (.known .none))])]

/-- The call of `f` resolves, the use of `x` does not. -/
theorem forwardReference_resolves_forwardUnit :
    IsTopFunction ⟨forwardAnalysis, {}⟩ forwardUnit 0 ∧
      ∃ s, wholeUnit ⟨forwardAnalysis, {}⟩ forwardUnit { module := {} } =
          .error (.rejected { line := 1, column := 5 } (.usedBeforeDefinition "x")) s ∧
        ∃ place, boundTo ⟨forwardAnalysis, {}⟩ 0 { id := 1, scope := some 1 } s =
          .ok place s := by
  have found : forwardAnalysis.resolve "f" (some { id := 5, scope := some 1 }) = some 0 := by
    decide +kernel
  have top : IsTopFunction ⟨forwardAnalysis, {}⟩ forwardUnit 0 := by
    refine ⟨_, .tail _ (.tail _ (.head _)), _, _, rfl,
      ⟨rfl, [("n", .scalar .i32)], .scalar .i32, ?_⟩, found⟩
    simp only [Analysis.typeOfFunc, Analysis.variableType, found]
    rfl
  obtain ⟨s, hs, -, resolves⟩ := forwardReference_resolves forwardAnalysis {} forwardUnit
    { line := 1, column := 5 } "x" (Outcome.result_of_fault? (by decide +kernel))
  exact ⟨top, s, hs, resolves "f" _ 0 (by decide +kernel) top⟩

end TreeLowering
