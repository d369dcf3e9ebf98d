import Mathlib.Data.List.Nodup
import TreeLowering.Proofs.Certification
import TreeLowering.Proofs.Storage

/-!
The strings of a lowered module. What lowering keeps of its string table (`Stows`) is read off the
module that is left: which function has which literals, and what each literal is copied from and to.

Main statement: `lowerUnit_strings`.
-/
namespace TreeLowering

open Lower

/-- The functions that code was lowered into, with the owner and the literals of the code: the init
    function with the top-level code, and those of definitions with the definitions' bodies. -/
inductive LoweredInto (c : Context) (decls : List Node) (s : State) :
    Ir.FuncId → Owner → List Literal → Prop
  | top : LoweredInto c decls s 0 none (gathersTop c Expr.literals decls)
  | body {h : FuncHead} {body : Block} {id : Ir.FuncId} (defined : definitionsOf decls h body)
    (hasBody : h.hasBody body = true) (lowered : h.site.id ∈ s.lowered)
    (prototype : s.prototypes.lookup h.site.id = some (some id)) :
    LoweredInto c decls s id (some h.site.id) (body.gathers c Expr.literals)

/-- In a module, a segment of a function copies a literal that an owner has there: the bytes come
    from data with the content of the literal, and go to a buffer on the stack if the literal is
    inside a function, else to a zeroed global. -/
def Literal.Copied (c : Context) (m : Ir.Module) (fn : Ir.FuncId) (o : Owner) (lit : Literal)
    (segment : List Ir.Line) : Prop :=
  ∃ n copy g buffer, segment = Ir.copyLines fn n copy g buffer lit.content.length ∧
    (∃ f, m.funcs[copy]? = some f ∧ f.name = Abi.memcpy ∧ f.type = Ir.copyFunction.type) ∧
    (∃ d, m.globals[g]? = some d ∧ d.IsData lit.content) ∧
    if lit.isLocal c o then buffer = Ir.stackBuffer lit.content.length
    else ∃ b d, buffer = Ir.staticBuffer b lit.content.length ∧ m.globals[b]? = some d ∧
      d.IsBuffer lit.content.length

/-- The strings of a module. -/
structure StringTable (c : Context) (decls : List Node) (s : State) (m : Ir.Module) : Prop where
  /-- Code that was lowered has one segment for each literal. -/
  segments : ∀ {id o l}, LoweredInto c decls s id o l →
    ∃ f, m.funcs[id]? = some f ∧ Laid (Literal.Copied c m id o) l f.slots
  /-- There is no other code. -/
  code : ∀ {id : Ir.FuncId} {f}, m.funcs[id]? = some f → f.blocks ≠ [] →
    ∃ o l, LoweredInto c decls s id o l
  /-- Slots and buffers on the stack are different ones. -/
  slots : ∀ {id : Ir.FuncId} {f}, m.funcs[id]? = some f → (f.slots.map Ir.Line.id).Nodup
  /-- A global is the buffer of one instruction only. -/
  buffers : ∀ {id id' : Ir.FuncId} {f f' line line' g}, m.funcs[id]? = some f →
    m.funcs[id']? = some f' → line ∈ f.slots → line' ∈ f'.slots →
    line.inst.buffer? = some g → line'.inst.buffer? = some g → id = id' ∧ line = line'
  /-- The contents of the literals that were lowered have one global each. -/
  contents : ∀ content,
    (∃ id o l, LoweredInto c decls s id o l ∧ ∃ lit ∈ l, lit.content = content) ↔
      ∃! g : Ir.GlobalId, ∃ d, m.globals[g]? = some d ∧ d.IsData content
  /-- Other contents have none. -/
  absent : ∀ content,
    (¬∃ id o l, LoweredInto c decls s id o l ∧ ∃ lit ∈ l, lit.content = content) →
      ∀ {g : Ir.GlobalId} {d}, m.globals[g]? = some d → ¬d.IsData content
  /-- Nothing else is private. -/
  isPrivate : ∀ {g : Ir.GlobalId} {d}, m.globals[g]? = some d → d.isPrivate = true →
    ∃ content, d.IsData content

namespace Stocked

variable {c : Context} {home : Tenancy} {s : State} (S : Stocked home s)

include S

theorem copied {fn : Ir.FuncId} {o : Owner} (lit : Literal) (segment : List Ir.Line)
    (h : Copies c s home fn o lit segment) : lit.Copied c s.module fn o segment := by
  obtain ⟨n, copy, g, buffer, he, hc, hg, hb⟩ := h
  refine ⟨n, copy, g, buffer, he, S.copy hc, S.data hg, ?_⟩
  split at hb
  · rwa [if_pos ‹_›]
  · rw [if_neg ‹_›]
    obtain ⟨b, hb, ht⟩ := hb
    obtain ⟨d, hd, isBuffer⟩ := S.buffers ht
    exact ⟨b, d, hb, hd, isBuffer⟩

/-- The global of a content is the one in the table. -/
theorem lookup_of_isData {g : Ir.GlobalId} {d : Ir.Global} {content : Bytes}
    (hd : s.module.globals[g]? = some d) (h : d.IsData content) :
    s.strings.lookup content = some g := by
  obtain ⟨content', hl⟩ := S.listed hd h.isPrivate
  obtain ⟨d', hd', h'⟩ := S.data hl
  cases hd.symm.trans hd'
  have same : content = content' := Ir.Value.chars.inj (h.init.symm.trans h'.init)
  rwa [same]

theorem existsUnique_isData {content : Bytes} :
    (s.strings.lookup content).isSome ↔
      ∃! g : Ir.GlobalId, ∃ d, s.module.globals[g]? = some d ∧ d.IsData content := by
  constructor
  · intro h
    obtain ⟨g, hg⟩ := Option.isSome_iff_exists.mp h
    refine ⟨g, S.data hg, ?_⟩
    rintro g' ⟨d, hd, isData⟩
    exact (Option.some.inj (hg.symm.trans (S.lookup_of_isData hd isData))).symm
  · rintro ⟨g, ⟨d, hd, isData⟩, -⟩
    rw [S.lookup_of_isData hd isData]
    rfl

end Stocked

/-- A line of a segment that takes a global for a buffer is its tenant. -/
theorem Copies.tenant {c : Context} {s : State} {home : Tenancy} {fn : Ir.FuncId} {o : Owner}
    (lit : Literal) (segment : List Ir.Line) (h : Copies c s home fn o lit segment) :
    ∀ line ∈ segment, ∀ g, line.inst.buffer? = some g →
      ∃ length, home g = some ⟨fn, line.id, length⟩ := by
  obtain ⟨n, copy, g, buffer, rfl, -, -, hb⟩ := h
  intro line hl g' hg'
  simp only [Ir.copyLines, List.mem_cons, List.not_mem_nil, or_false] at hl
  rcases hl with rfl | rfl | rfl | rfl | rfl | rfl | rfl | rfl
  case inr.inl =>
    split at hb
    · subst hb
      cases hg'
    · obtain ⟨b, rfl, ht⟩ := hb
      cases hg'
      exact ⟨_, ht⟩
  all_goals cases hg'

theorem Ir.Dominated.slots_nodup {id : Ir.FuncId} {f : Ir.Function}
    (h : Ir.Dominated id f.blocks) : (f.slots.map Ir.Line.id).Nodup := by
  unfold Ir.Function.slots
  cases hb : f.blocks.find? fun block => block.label = varsLabel with
  | none => exact List.nodup_nil
  | some block => exact (List.nodup_flatMap.mp h.distinct).1 block (List.mem_of_find?_eq_some hb)

/-- A function is that of one code only. -/
theorem LoweredInto.unique {c : Context} {decls : List Node} {s : State} {id : Ir.FuncId}
    {o o' : Owner} {l l' : List Literal} (ident : (definitionsOf decls).Identified)
    (L : Ledger c (definitionsOf decls) s) (h : LoweredInto c decls s id o l)
    (h' : LoweredInto c decls s id o' l') : o = o' ∧ l = l' := by
  have notInit : ∀ {h : FuncHead}, ¬ Owns (definitionsOf decls) s h 0 := fun ho =>
    (L.symbol _ 0 ho).2 (L.inj _ _ 0 (L.symbol _ 0 ho).1 L.init)
  cases h with
  | top =>
    cases h' with
    | top => exact ⟨rfl, rfl⟩
    | body hd hb _ hp => exact absurd ⟨⟨_, hd, hb⟩, hp⟩ notInit
  | @body head _ _ hd hb _ hp =>
    cases h' with
    | top => exact absurd ⟨⟨_, hd, hb⟩, hp⟩ notInit
    | @body head' _ _ hd' hb' _ hp' =>
      have owner : Owns (definitionsOf decls) s head id := ⟨⟨_, hd, hb⟩, hp⟩
      have owner' : Owns (definitionsOf decls) s head' id := ⟨⟨_, hd', hb'⟩, hp'⟩
      have symbols := L.inj _ _ id (L.symbol _ id owner).1 (L.symbol _ id owner').1
      have keys := L.single head head' id id owner owner' symbols
      obtain ⟨rfl, rfl⟩ := ident _ _ _ _ hd hd' keys
      exact ⟨rfl, rfl⟩

/-- What is left when a unit has been lowered. -/
structure Shelved (c : Context) (decls : List Node) (home : Tenancy) (s : State) : Prop where
  ledger : Ledger c (definitionsOf decls) s
  stocked : Stocked home s
  filled : ∀ {id o l}, LoweredInto c decls s id o l → Filled s id
  laid : ∀ {id : Ir.FuncId} {f}, s.module.funcs[id]? = some f → f.blocks ≠ [] →
    ∃ o l, LoweredInto c decls s id o l ∧ Laid (Copies c s home id o) l f.slots
  cited : ∀ {content}, (s.strings.lookup content).isSome →
    ∃ id o l, LoweredInto c decls s id o l ∧ ∃ lit ∈ l, lit.content = content

namespace Shelved

variable {c : Context} {decls : List Node} {home : Tenancy} {s : State}
  (S : Shelved c decls home s)

include S

theorem segments (ident : (definitionsOf decls).Identified) {id : Ir.FuncId} {o : Owner}
    {l : List Literal} (h : LoweredInto c decls s id o l) :
    ∃ f, s.module.funcs[id]? = some f ∧ Laid (Copies c s home id o) l f.slots := by
  obtain ⟨f, hf, hb⟩ := S.filled h
  obtain ⟨o', l', h', laid⟩ := S.laid hf hb
  obtain ⟨rfl, rfl⟩ := h.unique ident S.ledger h'
  exact ⟨f, hf, laid⟩

theorem tenant {id : Ir.FuncId} {f : Ir.Function} {line : Ir.Line} {g : Ir.GlobalId}
    (hf : s.module.funcs[id]? = some f) (hl : line ∈ f.slots)
    (hg : line.inst.buffer? = some g) : ∃ length, home g = some ⟨id, line.id, length⟩ := by
  have hb : f.blocks ≠ [] := by
    intro hb
    simp [Ir.Function.slots, hb] at hl
  obtain ⟨o, l, -, laid⟩ := S.laid hf hb
  exact laid.buffer Copies.tenant line hl g hg

theorem contents (ident : (definitionsOf decls).Identified) (content : Bytes) :
    (∃ id o l, LoweredInto c decls s id o l ∧ ∃ lit ∈ l, lit.content = content) ↔
      (s.strings.lookup content).isSome := by
  constructor
  · rintro ⟨id, o, l, h, lit, hm, rfl⟩
    obtain ⟨f, -, laid⟩ := S.segments ident h
    obtain ⟨segment, n, copy, g, buffer, -, -, hg, -⟩ := laid.exists_segment lit hm
    rw [hg]
    rfl
  · exact S.cited

/-- The strings of the module, if instructions among the slots are different ones. -/
theorem stringTable (ident : (definitionsOf decls).Identified)
    (slots : ∀ {id : Ir.FuncId} {f}, s.module.funcs[id]? = some f →
      (f.slots.map Ir.Line.id).Nodup) : StringTable c decls s s.module := by
  refine
    { segments := fun h =>
        (S.segments ident h).imp fun f hf => hf.imp_right (.mono S.stocked.copied)
      code := fun hf hb => (S.laid hf hb).imp fun o => Exists.imp fun l => And.left
      slots := slots
      buffers := ?_
      contents := fun content => (S.contents ident content).trans S.stocked.existsUnique_isData
      absent := fun content unused _ _ hd isData => unused <| (S.contents ident content).mpr <|
        Option.isSome_iff_exists.mpr ⟨_, S.stocked.lookup_of_isData hd isData⟩
      isPrivate := fun hd hp => ?_ }
  · intro id id' f f' line line' g hf hf' hl hl' hg hg'
    obtain ⟨n, hn⟩ := S.tenant hf hl hg
    obtain ⟨n', hn'⟩ := S.tenant hf' hl' hg'
    obtain ⟨rfl, hline, -⟩ := Tenant.mk.inj (Option.some.inj (hn.symm.trans hn'))
    cases hf.symm.trans hf'
    exact ⟨rfl, List.inj_on_of_nodup_map (slots hf) hl hl' hline⟩
  · obtain ⟨content, hl⟩ := S.stocked.listed hd hp
    obtain ⟨d', hd', isData⟩ := S.stocked.data hl
    cases hd.symm.trans hd'
    exact ⟨content, isData⟩

end Shelved

namespace Lower

variable {c : Context} {decls : List Node}

/-- In the beginning there is only the init function. -/
theorem logged_init (c : Context) (F : Definitions) (triple : String) (trace : List Event) :
    Logged c F (fun _ => none) ((State.declare { module := { triple }, trace }
      (initFunction c.config)).setBody { fn := 0 }) := by
  have books : Bookkeeping c F (fun _ => True) _ _ :=
    .of_funcs_eq (ledger_init (c := c) (F := F) (s := { module := { triple }, trace })
      (initFunction_name c.config) rfl rfl rfl rfl) rfl rfl rfl rfl
  refine ⟨books.ledger, ⟨nofun, nofun, nofun, nofun⟩, fun i f hf hb => ?_⟩
  rcases getElem?_push_cases hf with hf | ⟨-, rfl⟩
  · cases hf
  · exact absurd (initFunction_blocks c.config) hb

theorem wholeUnit_shelved (ident : (definitionsOf decls).Identified) {u : Unit} {triple : String}
    {s : State} (hr : wholeUnit c decls { module := { triple } } = .ok u s) :
    ∃ home, Shelved c decls home s := by
  obtain ⟨trace, s₁, h₁, rfl⟩ := wholeUnit_eq_ok hr
  have hn : ∀ n ∈ Node.partsAll decls, ∀ h body, n = .funcDecl h body →
      definitionsOf decls h body := fun n hn h body he => by rwa [definitionsOf, ← he]
  obtain ⟨home, S⟩ := (completes_stows ident).topLevel hn _ _ _ h₁ rfl _
    (logged_init c (definitionsOf decls) triple trace)
  have hfn : s₁.body.fn = 0 := S.body.fn
  have done : ∀ key ∈ s₁.lowered, ∃ h id, h.site.id = key ∧ Owns (definitionsOf decls) s₁ h id ∧
      Filled s₁ id := fun key hk => S.books.done key hk List.not_mem_nil
  have books : Bookkeeping c (definitionsOf decls) (fun _ => True) s₁
      { s₁.install { fn := 0 } with trace := s₁.trace } := install_books S.books.ledger _ _
  refine ⟨home, books.ledger, (stocked_install S.stocked { fn := 0 } s₁.trace).stocked,
    ?_, ?_, ?_⟩
  · intro id o l h
    cases h with
    | top =>
      exact filled_install hfn (S.books.ledger.size _ _ S.books.ledger.init) { fn := 0 } s₁.trace
    | body hd hb hl hp =>
      obtain ⟨h', id', he, ho, hf⟩ := done _ hl
      rw [← he] at hp
      cases ho.prototype.symm.trans hp
      exact books.filled id hf
  · intro id f hf hb
    change (s₁.module.funcs.modify s₁.body.fn fun f => { f with blocks := s₁.body.closed })[id]? =
      some f at hf
    rw [hfn, Array.getElem?_modify] at hf
    split at hf
    · rename_i hi
      subst hi
      obtain ⟨x, -, rfl⟩ := Option.map_eq_some_iff.mp hf
      obtain ⟨lines, hv, laid⟩ := S.body.vars
      refine ⟨none, _, .top, ?_⟩
      change Laid _ _ s₁.body.vars
      rw [hv]
      exact laid
    · obtain ⟨h, body, hd, ho, hl, laid⟩ := S.recorded id f hf hb
      obtain ⟨-, hbody⟩ := ho.eq_of_id ident hd rfl
      exact ⟨_, _, .body hd hbody hl ho.prototype, laid⟩
  · intro content hs
    rcases S.cited content hs with hc | hlit | ⟨h, body, hd, hl, hlit⟩
    · cases hc
    · exact ⟨0, none, _, .top, hlit⟩
    · obtain ⟨h', id, he, ho, -⟩ := done _ hl
      obtain ⟨rfl, hb⟩ := ho.eq_of_id ident hd he
      exact ⟨id, _, _, .body hd hb hl ho.prototype, hlit⟩

end Lower

/-- A string literal adds exactly its own instructions to the body, all of them among the stack
    slots: one copy of its data into a buffer of its length, and the stores of length and buffer
    into a slot. In a lowered module, the contents of the literals that were lowered have one private
    immutable global each, and other contents have none. Every function has one such segment for
    each of its literals, in order, with slots and buffers that no other literal uses. -/
theorem lowerUnit_strings (analysis : Analysis) (config : Config) (decls : List Node)
    (m : Ir.Module) (ident : (definitionsOf decls).Identified)
    (h : (lowerUnit analysis config decls).result = .ok m) :
    (∀ site content s v s',
      Lower.valueOf ⟨analysis, config⟩ (.stringLit site content) s = .ok v s' →
      ∃ copy g buffer, s'.body = s.body.addVarsLines
        (Ir.copyLines s.body.fn s.body.lineCount copy g buffer content.length)) ∧
    ∃ s, Lower.wholeUnit ⟨analysis, config⟩ decls { module := { triple := config.triple } } =
        .ok () s ∧ s.module = m ∧ StringTable ⟨analysis, config⟩ decls s m := by
  constructor
  · intro site content s v s' hv
    obtain ⟨copy, g, buffer, b, b', s₀, s₁, s₂, -, -, -, -, rfl⟩ := stringValue_eq_ok hv
    exact ⟨copy, g, buffer, rfl⟩
  · obtain ⟨s, hs, rfl⟩ := lowerUnit_eq_ok h
    have attested := wholeUnit_attested (F := definitionsOf decls) ident (fun n hn =>
      ⟨fun h body he => by rwa [definitionsOf, ← he], fun _ _ _ _ => .inr fun _ => trivial⟩)
      rfl rfl rfl rfl rfl hs
    obtain ⟨home, S⟩ := wholeUnit_shelved ident hs
    exact ⟨s, hs, rfl, S.stringTable ident fun hf => (attested _ _ hf).dominated.slots_nodup⟩

/-- The string `hi`. -/
def greeting : Bytes := [104, 105]

/-- A body with the literal `hi` twice. -/
def greetingTwice : Block :=
  .mk { id := 2 } [.expr (.stringLit { id := 4 } greeting), .expr (.stringLit { id := 5 } greeting)]

/-- A function with the literal `hi` twice, and the literal once more at top level. -/
def greetings : List Node :=
  [.funcDecl outerHead greetingTwice, .expr (.stringLit { id := 6 } greeting)]

theorem lowerUnit_strings_greetings :
    (definitionsOf greetings).Identified ∧
      ∃ m, (lowerUnit aliasFunctions {} greetings).result = .ok m ∧
        ∃ s, LoweredInto ⟨aliasFunctions, {}⟩ greetings s 1 (some 1)
            [⟨{ id := 4 }, greeting⟩, ⟨{ id := 5 }, greeting⟩] ∧
          LoweredInto ⟨aliasFunctions, {}⟩ greetings s 0 none [⟨{ id := 6 }, greeting⟩] ∧
          (∃ f, m.funcs[1]? = some f ∧ Laid (Literal.Copied ⟨aliasFunctions, {}⟩ m 1 (some 1))
            [⟨{ id := 4 }, greeting⟩, ⟨{ id := 5 }, greeting⟩] f.slots) ∧
          ∃! g : Ir.GlobalId, ∃ d, m.globals[g]? = some d ∧ d.IsData greeting := by
  have only : ∀ {h body}, definitionsOf greetings h body ↔
      h = outerHead ∧ body = greetingTwice := by
    intro h body
    simp [definitionsOf, greetings, greetingTwice, Node.partsAll, Node.parts, Block.parts]
  have identified : (definitionsOf greetings).Identified := by
    intro h body h' body' hd hd' _
    obtain ⟨rfl, rfl⟩ := only.mp hd
    obtain ⟨rfl, rfl⟩ := only.mp hd'
    exact ⟨rfl, rfl⟩
  have lowered : ∃ m ∈ (lowerUnit aliasFunctions {} greetings).result.toOption, True := by
    decide +kernel
  have prototyped : ∃ s ∈ Lower.endState? (Lower.wholeUnit ⟨aliasFunctions, {}⟩ greetings {}),
      s.prototypes.lookup outerHead.site.id = some (some 1) ∧ outerHead.site.id ∈ s.lowered := by
    decide +kernel
  obtain ⟨m, hm, -⟩ := lowered
  obtain ⟨s, hs, ho, hl⟩ := prototyped
  have hm := eq_ok_of_mem_toOption hm
  have hs := Lower.eq_ok_of_mem_endState? hs
  obtain ⟨-, s', hs', hmod, table⟩ := lowerUnit_strings aliasFunctions {} greetings m identified hm
  cases hs.symm.trans hs'
  have outer : LoweredInto ⟨aliasFunctions, {}⟩ greetings s 1 (some 1)
      [⟨{ id := 4 }, greeting⟩, ⟨{ id := 5 }, greeting⟩] :=
    .body (only.mpr ⟨rfl, rfl⟩) rfl hl ho
  have outside : LoweredInto ⟨aliasFunctions, {}⟩ greetings s 0 none [⟨{ id := 6 }, greeting⟩] :=
    .top
  exact ⟨identified, m, hm, s, outer, outside, table.segments outer,
    (table.contents greeting).mp ⟨0, none, _, outside, _, List.mem_singleton.mpr rfl, rfl⟩⟩

end TreeLowering
