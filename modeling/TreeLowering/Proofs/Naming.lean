import TreeLowering.Proofs.Traversal

/-!
The names of a module. Globals and type definitions get their names from tables that count how often
a name was asked for: the first to ask gets the name itself, the others get it with a number. The
numbered names are not entered in the table, and the copy intrinsic does not ask it. So names are
distinct if no name that is asked for reads as another one with a number, and none is that of the
intrinsic (`lowerUnit_names_nodup`); otherwise two of them may be the same
(`lowerUnit_names_repeat`).
-/
namespace TreeLowering

/-- The names of functions and globals. -/
def Ir.Module.symbolNames (m : Ir.Module) : List String :=
  m.funcs.toList.map Ir.Function.name ++ m.globals.toList.map Ir.Global.name

/-- The names of type definitions. -/
def Ir.Module.typeNames (m : Ir.Module) : List String := m.types.toList.map Ir.TypeDef.name

/-! ## Tables of names -/

/-- What a table gives to the `n`-th to ask for a name. -/
def nthName (a : String) (n : Nat) : String := if n = 0 then a else a ++ "." ++ toString n

/-- How often a name was asked for. -/
def timesAsked (used : List (String × Nat)) (a : String) : Nat := (used.lookup a).getD 0

theorem timesAsked_cons (used : List (String × Nat)) (a b : String) (k : Nat) :
    timesAsked ((a, k) :: used) b = if b = a then k else timesAsked used b := by
  unfold timesAsked
  rw [List.lookup_cons]
  by_cases h : b = a
  · simp [h]
  · simp [h, beq_false_of_ne h]

/-- None of the names reads as another one with a number. -/
def Unnumbered (N : String → Prop) : Prop := ∀ a b n, N a → N b → 0 < n → a ≠ nthName b n

theorem toList_nthName {a : String} {n : Nat} (hn : 0 < n) :
    (nthName a n).toList = a.toList ++ '.' :: Nat.toDigits 10 n := by
  have h : n ≠ 0 := by omega
  simp [nthName, h]

theorem unnumbered_of_dotless {N : String → Prop} (h : ∀ a, N a → '.' ∉ a.toList) :
    Unnumbered N := by
  rintro a b n ha - hn rfl
  apply h _ ha
  rw [toList_nthName hn]
  simp

/-- A numbered name determines both its parts. -/
theorem nthName_inj_of_pos {a b : String} {m n : Nat} (hm : 0 < m) (hn : 0 < n)
    (h : nthName a m = nthName b n) : a = b ∧ m = n := by
  have h := congrArg String.toList h
  rw [toList_nthName hm, toList_nthName hn] at h
  have hd : Nat.toDigits 10 m = Nat.toDigits 10 n :=
    after_last_dot (dot_not_mem_toDigits _) (dot_not_mem_toDigits _) h
  have hv := congrArg (Nat.ofDigitChars 10 · 0) hd
  simp only [Nat.ofDigitChars_toDigits (by decide : 1 < 10) (by decide : 10 ≤ 10)] at hv
  rw [hd] at h
  exact ⟨String.toList_inj.mp (List.append_cancel_right h), hv⟩

theorem nthName_inj {N : String → Prop} (hN : Unnumbered N) {a b : String} {m n : Nat}
    (ha : N a) (hb : N b) (h : nthName a m = nthName b n) : a = b ∧ m = n := by
  rcases Nat.eq_zero_or_pos m with rfl | hm <;> rcases Nat.eq_zero_or_pos n with rfl | hn
  · exact ⟨h, rfl⟩
  · exact absurd h (hN a b n ha hb hn)
  · exact absurd h.symm (hN b a m hb ha hm)
  · exact nthName_inj_of_pos hm hn h

/-- The name of the copy intrinsic does not end in a number. -/
theorem memcpy_ne_nthName {a : String} {n : Nat} (ha : a ≠ Abi.memcpy) :
    nthName a n ≠ Abi.memcpy := by
  intro h
  rcases Nat.eq_zero_or_pos n with rfl | hn
  · exact ha h
  · have h := congrArg String.toList h
    have hm : Abi.memcpy.toList = "llvm.memcpy.p0i8.p0i8".toList ++ '.' :: ['i', '3', '2'] := by
      decide
    rw [toList_nthName hn, hm] at h
    have hd := after_last_dot (dot_not_mem_toDigits _) (by decide) h
    have hi : 'i' ∈ Nat.toDigits 10 n := by simp [hd]
    exact absurd (Nat.isDigit_of_mem_toDigits (by decide) (by decide) hi) (by decide)

/-- A table gave out the name. -/
def Issued (N : String → Prop) (used : List (String × Nat)) (x : String) : Prop :=
  ∃ a n, N a ∧ n < timesAsked used a ∧ x = nthName a n

section
variable {N : String → Prop} {used : List (String × Nat)} {a x : String}

theorem Issued.ask (h : Issued N used x) (a : String) :
    Issued N ((a, timesAsked used a + 1) :: used) x := by
  obtain ⟨b, n, hb, hn, rfl⟩ := h
  refine ⟨b, n, hb, ?_, rfl⟩
  rw [timesAsked_cons]
  split
  · rename_i he
    rw [he] at hn
    omega
  · exact hn

theorem issued_asked (ha : N a) :
    Issued N ((a, timesAsked used a + 1) :: used) (nthName a (timesAsked used a)) :=
  ⟨a, _, ha, by rw [timesAsked_cons, if_pos rfl]; omega, rfl⟩

/-- What a table gives out next it did not give out before. -/
theorem not_issued_next (hN : Unnumbered N) (ha : N a) :
    ¬ Issued N used (nthName a (timesAsked used a)) := by
  rintro ⟨b, n, hb, hn, h⟩
  obtain ⟨rfl, rfl⟩ := nthName_inj hN ha hb h
  omega

theorem not_issued_memcpy (hm : ¬ N Abi.memcpy) : ¬ Issued N used Abi.memcpy := by
  rintro ⟨b, n, hb, -, h⟩
  exact memcpy_ne_nthName (fun he => hm (he ▸ hb)) h.symm

end

/-! ## The invariant -/

/-- The names of a list are distinct and known. -/
structure Registered (Known : String → Prop) (names : List String) : Prop where
  nodup : names.Nodup
  known : ∀ x ∈ names, Known x

/-- A name that was not known joins. -/
theorem Registered.join {Known Known' : String → Prop} {names names' : List String} {x : String}
    (h : Registered Known names) (hp : names'.Perm (x :: names)) (hx : ¬ Known x)
    (hx' : Known' x) (hm : ∀ y, Known y → Known' y) : Registered Known' names' where
  nodup := hp.nodup_iff.mpr (List.nodup_cons.mpr ⟨fun hL => hx (h.known x hL), h.nodup⟩)
  known y hy := by
    rcases List.mem_cons.mp (hp.mem_iff.mp hy) with rfl | hy
    · exact hx'
    · exact hm y (h.known y hy)

/-- The names that are asked for, `N` for functions and globals and `T` for types, can be told apart
    from what is made of them and from the intrinsic. -/
structure Separate (N T : String → Prop) : Prop where
  symbols : Unnumbered N
  intrinsic : ¬ N Abi.memcpy
  types : Unnumbered T

/-- The names of the module are distinct, and they are the intrinsic's or came from the tables; `N`
    and `T` are the names that are asked for. -/
structure Distinct (N T : String → Prop) (s : State) : Prop where
  symbols : Registered (fun x => Issued N s.names x ∨ x = Abi.memcpy ∧ s.memcpy.isSome)
    s.module.symbolNames
  types : Registered (Issued T s.typeNames) s.module.typeNames

theorem map_name_modify {α : Type} {xs : Array α} {i : Nat} {f : α → α} {name : α → String}
    (h : ∀ x, name (f x) = name x) :
    (xs.modify i f).toList.map name = xs.toList.map name := by
  apply List.ext_getElem?
  intro j
  rw [List.getElem?_map, List.getElem?_map, Array.getElem?_toList, Array.getElem?_toList,
    Array.getElem?_modify]
  split
  · rw [Option.map_map]
    congr 1
    funext x
    exact h x
  · rfl

/-! ### Names that join -/

section
variable (m : Ir.Module)

theorem symbolNames_pushFunc (f : Ir.Function) :
    ({ m with funcs := m.funcs.push f } : Ir.Module).symbolNames.Perm
      (f.name :: m.symbolNames) := by
  simp only [Ir.Module.symbolNames, Array.toList_push, List.map_append, List.map_cons,
    List.map_nil, List.append_assoc, List.singleton_append]
  exact List.perm_middle

theorem symbolNames_pushGlobal (g : Ir.Global) :
    ({ m with globals := m.globals.push g } : Ir.Module).symbolNames.Perm
      (g.name :: m.symbolNames) := by
  simp only [Ir.Module.symbolNames, Array.toList_push, List.map_append, List.map_cons,
    List.map_nil, ← List.append_assoc]
  exact List.perm_append_singleton _ _

theorem typeNames_push (d : Ir.TypeDef) :
    ({ m with types := m.types.push d } : Ir.Module).typeNames.Perm (d.name :: m.typeNames) := by
  simp only [Ir.Module.typeNames, Array.toList_push, List.map_append, List.map_cons, List.map_nil]
  exact List.perm_append_singleton _ _

end

namespace Distinct

variable {N T : String → Prop} {s : State}

/-- A function under a name that no one asked for. -/
theorem pushFunc (h : Distinct N T s) (sep : Separate N T) {f : Ir.Function}
    (hf : N f.name) (h0 : timesAsked s.names f.name = 0) : Distinct N T (s.declare f) := by
  have hname : nthName f.name (timesAsked s.names f.name) = f.name := by
    rw [h0]
    rfl
  have next := @not_issued_next N s.names f.name sep.symbols hf
  have asked := @issued_asked N s.names f.name hf
  rw [hname] at next asked
  refine { h with symbols := h.symbols.join (symbolNames_pushFunc s.module f) ?_ (.inl asked) ?_ }
  · rintro (hi | ⟨he, -⟩)
    · exact next hi
    · exact sep.intrinsic (he ▸ hf)
  · exact fun y hy => hy.imp_left fun hi => hi.ask _

/-- A global under a name that was just given out. -/
theorem pushGlobal (h : Distinct N T s) (sep : Separate N T) {a : String}
    (ha : N a) {g : Ir.Global} (hg : g.name = nthName a (timesAsked s.names a)) :
    Distinct N T { s with
      module := { s.module with globals := s.module.globals.push g }
      names := (a, timesAsked s.names a + 1) :: s.names } := by
  refine { h with symbols := h.symbols.join (symbolNames_pushGlobal s.module g) ?_ ?_ ?_ }
  · rw [hg]
    rintro (hi | ⟨he, -⟩)
    · exact not_issued_next sep.symbols ha hi
    · exact memcpy_ne_nthName (fun he => sep.intrinsic (he ▸ ha)) he
  · rw [hg]
    exact .inl (issued_asked ha)
  · exact fun y hy => hy.imp_left fun hi => hi.ask _

/-- The copy intrinsic, which is declared once. -/
theorem pushIntrinsic (h : Distinct N T s) (sep : Separate N T) {f : Ir.Function}
    (hf : f.name = Abi.memcpy) (hnone : s.memcpy = none) (id : Ir.FuncId) :
    Distinct N T { s with
      module := { s.module with funcs := s.module.funcs.push f }
      memcpy := some id } := by
  refine { h with symbols := h.symbols.join (symbolNames_pushFunc s.module f) ?_ ?_ ?_ }
  · rw [hf]
    rintro (hi | ⟨-, hs⟩)
    · exact not_issued_memcpy sep.intrinsic hi
    · simp [hnone] at hs
  · exact .inr ⟨hf, rfl⟩
  · exact fun y hy => hy.imp_right fun hi => ⟨hi.1, rfl⟩

/-- A type definition under a name that was just given out. -/
theorem pushType (h : Distinct N T s) (sep : Separate N T) {a : String} (ha : T a)
    {d : Ir.TypeDef} (hd : d.name = nthName a (timesAsked s.typeNames a)) :
    Distinct N T { s with
      module := { s.module with types := s.module.types.push d }
      typeNames := (a, timesAsked s.typeNames a + 1) :: s.typeNames } := by
  refine { h with types := h.types.join (typeNames_push s.module d) ?_ ?_ fun y hy => hy.ask _ }
  · rw [hd]
    exact not_issued_next sep.types ha
  · rw [hd]
    exact issued_asked ha

/-- Functions keep their names when their blocks are installed or their linkage is set. -/
theorem modifyFunc (h : Distinct N T s) (id : Ir.FuncId) {f : Ir.Function → Ir.Function}
    (hf : ∀ x, (f x).name = x.name) :
    Distinct N T { s with module := { s.module with funcs := s.module.funcs.modify id f } } := by
  have hn : ({ s.module with funcs := s.module.funcs.modify id f } : Ir.Module).symbolNames =
      s.module.symbolNames := by
    simp only [Ir.Module.symbolNames, map_name_modify hf]
  exact { h with symbols := hn ▸ h.symbols }

theorem modifyGlobal (h : Distinct N T s) (id : Ir.GlobalId) {f : Ir.Global → Ir.Global}
    (hf : ∀ x, (f x).name = x.name) :
    Distinct N T
      { s with module := { s.module with globals := s.module.globals.modify id f } } := by
  have hn : ({ s.module with globals := s.module.globals.modify id f } : Ir.Module).symbolNames =
      s.module.symbolNames := by
    simp only [Ir.Module.symbolNames, map_name_modify hf]
  exact { h with symbols := hn ▸ h.symbols }

theorem modifyType (h : Distinct N T s) (i : Nat) {f : Ir.TypeDef → Ir.TypeDef}
    (hf : ∀ x, (f x).name = x.name) :
    Distinct N T { s with module := { s.module with types := s.module.types.modify i f } } := by
  have hn : ({ s.module with types := s.module.types.modify i f } : Ir.Module).typeNames =
      s.module.typeNames := by
    simp only [Ir.Module.typeNames, map_name_modify hf]
  exact { h with types := hn ▸ h.types }

end Distinct

/-! ## Lowering -/

/-- The name that a definition asks for. -/
def Node.asksFor : Node → List String
  | .varDecl d => [d.name]
  | .funcDecl h _ => [h.symbol]
  | _ => []

/-- The names that functions and globals of a unit ask for: those of its variables, the symbols of
    its functions, that of the init function, and those of the buffers of literals. -/
def askedNames (decls : List Node) : List String :=
  Abi.initFunction :: (Lower.bufferNames ++ (Node.partsAll decls).flatMap Node.asksFor)

/-- The names of declared types. -/
def Store.declaredNames (st : Store) : List String :=
  st.named.toList.filterMap fun t => t.object.map st.nameOf

theorem Store.mem_declaredNames {st : Store} {id : NamedId} {o : ObjectId}
    (h : st.declaration id = some o) : st.nameOf o ∈ st.declaredNames := by
  obtain ⟨t, ht, ho⟩ := Option.bind_eq_some_iff.mp h
  refine List.mem_filterMap.mpr ⟨t, ?_, by simp [ho]⟩
  exact Array.mem_toList_iff.mpr (Array.mem_of_getElem? ht)

namespace Lower

variable {N T : String → Prop} {c : Context} (sep : Separate N T)

section

include sep

theorem preserves_addGlobal {name : String} (hn : N name) (content : Ir.Ty) :
    Always (Preserves (Distinct N T)) (addGlobal name content) := by
  intro s g s' h hd
  cases h
  exact hd.pushGlobal sep hn rfl

theorem preserves_declareSymbol {h : FuncHead} (hn : N h.symbol) (hasBody : Bool)
    (result : Ir.Ty) (params : List Ir.Ty) :
    Always (Preserves (Distinct N T)) (declareSymbol h hasBody result params) := by
  intro s id s' hs hd
  rcases declareSymbol_eq_ok hs with ⟨-, h0, f, hname, -, rfl, rfl⟩ | ⟨-, -, rfl⟩
  · exact hd.pushFunc sep (hname ▸ hn) (hname ▸ h0)
  · exact hd

theorem preserves_copyIntrinsic : Always (Preserves (Distinct N T)) copyIntrinsic := by
  intro s v s' hs hd
  unfold copyIntrinsic at hs
  rw [get_bind_apply] at hs
  cases hn : s.memcpy with
  | none =>
    simp only [hn] at hs
    cases hs
    exact hd.pushIntrinsic sep rfl hn _
  | some id =>
    simp only [hn, pure_eq_ok] at hs
    obtain ⟨-, rfl⟩ := hs
    exact hd

theorem tolerant_distinct (hb : ∀ name ∈ bufferNames, N name)
    (ht : ∀ name ∈ c.analysis.store.declaredNames, T name) :
    Tolerant c (Preserves (Distinct N T)) where
  body _ _ hd := { hd with }
  buffer name hn content := preserves_addGlobal sep (hb name hn) content
  content g _ hf := .modify' fun _ hd => hd.modifyGlobal g hf
  intern _ _ hd := { hd with }
  copy := preserves_copyIntrinsic sep
  instructionType := by
    refine always_instructionType (fun _ _ hd => { hd with }) ?_ ?_
    · intro id o ho s t s' h hd
      cases h
      exact hd.pushType sep (ht _ (Store.mem_declaredNames ho)) rfl
    · intro t ts
      unfold setFields
      split
      · exact .modify' fun _ hd => hd.modifyType _ fun _ => rfl
      · exact .pure' _

end

/-- The definition asks for known names only. -/
def AsksKnown (N : String → Prop) (n : Node) : Prop := ∀ name ∈ n.asksFor, N name

section
variable (t : Tolerant c (Preserves (Distinct N T)))

include sep t

/-- The names stay distinct through all of lowering. -/
theorem upholds_distinct : Upholds c (AsksKnown N) (Distinct N T) where
  toTolerant := t
  values _ _ hd := { hd with }
  trace _ _ hd := { hd with }
  begin s key id exported hd := by
    cases exported with
    | true =>
      exact { hd.modifyFunc (f := fun f => { f with isExported := true }) id fun _ => rfl with }
    | false => exact { hd with }
  install s outer hd :=
    { hd.modifyFunc (f := fun f => { f with blocks := s.body.closed }) s.body.fn fun _ => rfl with }
  global d hd := preserves_addGlobal sep (hd _ (List.mem_singleton.mpr rfl))
  prototype _ _ hn := t.touches.enterPrototype (fun _ _ hd => { hd with })
    (fun _ _ hd => { hd with }) (fun _ _ hd => { hd with })
    (preserves_declareSymbol sep (hn _ (List.mem_singleton.mpr rfl)))

theorem wholeUnit_distinct {decls : List Node} {s s' : State} {u : Unit}
    (hn : ∀ m ∈ Node.partsAll decls, AsksKnown N m) (hi : N Abi.initFunction)
    (h0 : timesAsked s.names Abi.initFunction = 0) (h : wholeUnit c decls s = .ok u s')
    (hd : Distinct N T s) : Distinct N T s' := by
  have hname := initFunction_name c.config
  have started := hd.pushFunc (f := initFunction c.config) sep (hname ▸ hi) (hname ▸ h0)
  exact (upholds_distinct sep t).wholeUnit hn h started

end

end Lower

/-! ## Units -/

/-- The names that a unit asks for can be told apart: none of the names of functions and globals is
    another one with a number or that of the copy intrinsic, and no declared type's name is another
    one with a number. -/
def NamesSeparate (analysis : Analysis) (decls : List Node) : Prop :=
  Separate (· ∈ askedNames decls) (· ∈ analysis.store.declaredNames)

/-- If the names that a unit asks for can be told apart, the functions and globals of its module all
    have different names, and so have its type definitions. -/
theorem lowerUnit_names_nodup (analysis : Analysis) (config : Config) (decls : List Node)
    (m : Ir.Module) (hsep : NamesSeparate analysis decls)
    (h : (lowerUnit analysis config decls).result = .ok m) :
    m.symbolNames.Nodup ∧ m.typeNames.Nodup := by
  obtain ⟨s, hs, rfl⟩ := lowerUnit_eq_ok h
  have known : ∀ n ∈ Node.partsAll decls, Lower.AsksKnown (· ∈ askedNames decls) n := by
    intro n hn name hname
    refine List.mem_cons_of_mem _ (List.mem_append_right _ ?_)
    exact List.mem_flatMap.mpr ⟨n, hn, hname⟩
  have tolerant : Lower.Tolerant ⟨analysis, config⟩ _ :=
    Lower.tolerant_distinct hsep
      (fun name hn => List.mem_cons_of_mem _ (List.mem_append_left _ hn)) fun _ hn => hn
  have start : Distinct (· ∈ askedNames decls) (· ∈ analysis.store.declaredNames)
      { module := { triple := config.triple } } :=
    ⟨⟨List.nodup_nil, by simp [Ir.Module.symbolNames]⟩,
      ⟨List.nodup_nil, by simp [Ir.Module.typeNames]⟩⟩
  have done := Lower.wholeUnit_distinct hsep tolerant known List.mem_cons_self rfl hs start
  exact ⟨done.symbols.nodup, done.types.nodup⟩

/-- Three globals; the first two have one name, and `name` is that of the third. -/
def threeGlobals (name : String) : Analysis × List Node :=
  ({ store :=
      { scopes := #[{}]
        objects := #[
          { name := "x", type := .scalar .i32, kind := .variable { isGlobal := true } },
          { name := "x", type := .scalar .i32, kind := .variable { isGlobal := true } },
          { name, type := .scalar .i32, kind := .variable { isGlobal := true } }] }
     facts := { definitions := [(some 1, 0), (some 2, 1), (some 3, 2)] } },
    [.varDecl { site := { id := 1 }, token := .known .varWord, name := "x" },
      .varDecl { site := { id := 2 }, token := .known .varWord, name := "x" },
      .varDecl { site := { id := 3 }, token := .known .varWord, name }])

theorem lowerUnit_names_nodup_threeGlobals :
    NamesSeparate (threeGlobals "y").1 (threeGlobals "y").2 ∧
      ∃ m : Ir.Module,
        (lowerUnit (threeGlobals "y").1 {} (threeGlobals "y").2).result = .ok m ∧
        m.symbolNames = ["__init", "x", "x.1", "y"] ∧ m.symbolNames.Nodup ∧ m.typeNames.Nodup := by
  have separate : NamesSeparate (threeGlobals "y").1 (threeGlobals "y").2 :=
    ⟨unnumbered_of_dotless (by decide), by decide, unnumbered_of_dotless (by decide)⟩
  have lowered : ∃ m ∈ (lowerUnit (threeGlobals "y").1 {} (threeGlobals "y").2).result.toOption,
      m.symbolNames = ["__init", "x", "x.1", "y"] := by decide +kernel
  obtain ⟨m, hm, hn⟩ := lowered
  have hm := eq_ok_of_mem_toOption hm
  exact ⟨separate, m, hm, hn, lowerUnit_names_nodup _ _ _ m separate hm⟩

/-- A global whose own name is what another one gets with a number. -/
theorem lowerUnit_names_repeat :
    ∃ m : Ir.Module, (lowerUnit (threeGlobals "x.1").1 {} (threeGlobals "x.1").2).result = .ok m ∧
      ¬ m.symbolNames.Nodup := by
  have lowered : ∃ m ∈
      (lowerUnit (threeGlobals "x.1").1 {} (threeGlobals "x.1").2).result.toOption,
      ¬ m.symbolNames.Nodup := by decide +kernel
  obtain ⟨m, hm, hn⟩ := lowered
  exact ⟨m, eq_ok_of_mem_toOption hm, hn⟩

end TreeLowering
