import TreeLowering.Proofs.Literals
import TreeLowering.Proofs.Symbols

/-!
The storage of strings: data that equal contents share, and buffers of their own.

While a unit is lowered, the string table, the copy intrinsic and the globals are only added to.
`Stored` says what a step makes of this. It is labelled by the literals that the step lowers into
the body under construction, and carries along whose buffer each global is. `Stows` is the step
relation that follows, and it holds of all steps of lowering (`completes_stows`).
-/
namespace TreeLowering

open Lower

/-! ## The string table -/

/-- The instruction that takes a global for a buffer of so many bytes. -/
structure Tenant where
  fn : Ir.FuncId
  line : Nat
  length : Nat

/-- Whose buffer each global is. -/
abbrev Tenancy := Ir.GlobalId → Option Tenant

/-- A segment copies a literal that an owner has in a function. -/
def Copies (c : Context) (s : State) (home : Tenancy) (fn : Ir.FuncId) (o : Owner) (lit : Literal)
    (segment : List Ir.Line) : Prop :=
  ∃ n copy g buffer, segment = Ir.copyLines fn n copy g buffer lit.content.length ∧
    s.memcpy = some copy ∧ s.strings.lookup lit.content = some g ∧
    if lit.isLocal c o then buffer = Ir.stackBuffer lit.content.length
    else ∃ b, buffer = Ir.staticBuffer b lit.content.length ∧
      home b = some ⟨fn, n + 1, lit.content.length⟩

/-- The table lists the private globals with their contents, and the globals that are buffers are
    zeroed. -/
structure Stocked (home : Tenancy) (s : State) : Prop where
  data : ∀ {content g}, s.strings.lookup content = some g →
    ∃ d, s.module.globals[g]? = some d ∧ d.IsData content
  listed : ∀ {g d}, s.module.globals[g]? = some d → d.isPrivate = true →
    ∃ content, s.strings.lookup content = some g
  buffers : ∀ {g t}, home g = some t → ∃ d, s.module.globals[g]? = some d ∧ d.IsBuffer t.length
  copy : ∀ {id}, s.memcpy = some id →
    ∃ f, s.module.funcs[id]? = some f ∧ f.name = Abi.memcpy ∧ f.type = Ir.copyFunction.type

/-- What is in the table stays there, and so does the copy intrinsic; only new globals become
    buffers. -/
structure Restocks (home : Tenancy) (s : State) (home' : Tenancy) (s' : State) : Prop where
  stocked : Stocked home' s'
  memcpy : ∀ {id}, s.memcpy = some id → s'.memcpy = some id
  strings : ∀ {content g}, s.strings.lookup content = some g →
    s'.strings.lookup content = some g
  tenants : ∀ {g t}, home g = some t → home' g = some t
  fresh : ∀ {g t}, home' g = some t → home g = some t ∨ s.module.globals.size ≤ g
  privacy : ∀ {g : Ir.GlobalId} {d}, s.module.globals[g]? = some d →
    ∃ d', s'.module.globals[g]? = some d' ∧ d'.isPrivate = d.isPrivate

theorem Copies.mono {c : Context} {s s' : State} {home home' : Tenancy} {fn : Ir.FuncId}
    {o : Owner} (r : Restocks home s home' s') (lit : Literal) (segment : List Ir.Line)
    (h : Copies c s home fn o lit segment) : Copies c s' home' fn o lit segment := by
  obtain ⟨n, copy, g, buffer, he, hc, hg, hb⟩ := h
  refine ⟨n, copy, g, buffer, he, r.memcpy hc, r.strings hg, ?_⟩
  split at hb
  · rwa [if_pos ‹_›]
  · rw [if_neg ‹_›]
    exact hb.imp fun b hb => hb.imp_right r.tenants

namespace Restocks

variable {home home' home'' : Tenancy} {s s' s'' : State}

theorem refl (S : Stocked home s) : Restocks home s home s :=
  ⟨S, id, id, id, .inl, fun hd => ⟨_, hd, rfl⟩⟩

theorem size (h : Restocks home s home' s') : s.module.globals.size ≤ s'.module.globals.size := by
  refine Nat.not_lt.mp fun hlt => ?_
  obtain ⟨d, hd, -⟩ := h.privacy (Array.getElem?_eq_getElem hlt)
  exact Nat.lt_irrefl _ (Array.getElem?_eq_some_iff.mp hd).1

theorem trans (h₁ : Restocks home s home' s') (h₂ : Restocks home' s' home'' s'') :
    Restocks home s home'' s'' where
  stocked := h₂.stocked
  memcpy h := h₂.memcpy (h₁.memcpy h)
  strings h := h₂.strings (h₁.strings h)
  tenants h := h₂.tenants (h₁.tenants h)
  fresh h := by
    rcases h₂.fresh h with h | h
    · exact h₁.fresh h
    · exact .inr (Nat.le_trans h₁.size h)
  privacy hd := by
    obtain ⟨d₁, hd₁, hp₁⟩ := h₁.privacy hd
    obtain ⟨d₂, hd₂, hp₂⟩ := h₂.privacy hd₁
    exact ⟨d₂, hd₂, hp₂.trans hp₁⟩

theorem setBody (h : Restocks home s home' s') (b : Body) : Restocks home s home' (s'.setBody b) :=
  ⟨⟨h.stocked.data, h.stocked.listed, h.stocked.buffers, h.stocked.copy⟩, h.memcpy, h.strings,
    h.tenants, h.fresh, h.privacy⟩

end Restocks

/-- Globals are only added, and those that are added are not private. -/
structure Widens (s s' : State) : Prop where
  kept : ∀ {g : Ir.GlobalId} {d}, s.module.globals[g]? = some d → s'.module.globals[g]? = some d
  added : ∀ {g : Ir.GlobalId} {d}, s'.module.globals[g]? = some d →
    s.module.globals[g]? = some d ∨ d.isPrivate = false

namespace Widens

variable {s s' s'' : State}

theorem of_eq (h : s'.module.globals = s.module.globals) : Widens s s' :=
  ⟨fun hd => h ▸ hd, fun hd => .inl (h ▸ hd)⟩

theorem trans (h₁ : Widens s s') (h₂ : Widens s' s'') : Widens s s'' where
  kept hd := h₂.kept (h₁.kept hd)
  added hd := by
    rcases h₂.added hd with hd | hp
    · exact h₁.added hd
    · exact .inr hp

theorem push {d : Ir.Global} (h : s'.module.globals = s.module.globals.push d)
    (hp : d.isPrivate = false) : Widens s s' := by
  constructor
  · intro g x hx
    rw [h]
    exact getElem?_push_of_some hx
  · intro g x hx
    rw [h] at hx
    rcases getElem?_push_cases hx with hx | ⟨-, rfl⟩
    · exact .inl hx
    · exact .inr hp

end Widens

namespace Stocked

variable {home : Tenancy} {s s' : State} (S : Stocked home s)

include S

theorem lt_size {g : Ir.GlobalId} {t : Tenant} (h : home g = some t) :
    g < s.module.globals.size := by
  obtain ⟨d, hd, -⟩ := S.buffers h
  exact (Array.getElem?_eq_some_iff.mp hd).1

/-- Steps that add globals that are not private, and functions. -/
theorem grow (hs : s'.strings = s.strings) (hm : s'.memcpy = s.memcpy) (hg : Widens s s')
    (hf : Registry.KeepsTypes s s') : Restocks home s home s' := by
  refine ⟨⟨?_, ?_, ?_, ?_⟩, fun h => hm ▸ h, fun h => hs ▸ h, id, .inl,
    fun hd => ⟨_, hg.kept hd, rfl⟩⟩
  · intro content g h
    exact (S.data (hs ▸ h)).imp fun d hd => hd.imp_left hg.kept
  · intro g d hd hp
    rcases hg.added hd with hd | hn
    · exact hs ▸ S.listed hd hp
    · rw [hn] at hp
      cases hp
  · intro g t h
    exact (S.buffers h).imp fun d hd => hd.imp_left hg.kept
  · intro id h
    obtain ⟨f, hf₀, hname, htype⟩ := S.copy (hm ▸ h)
    obtain ⟨f', hf', hn', ht'⟩ := hf id f hf₀
    exact ⟨f', hf', hn'.trans hname, ht'.trans htype⟩

/-- A new global for a buffer. -/
theorem buffer {name : String} {g : Ir.GlobalId} {length : Nat}
    (h : addGlobal name (.array length (.int 8)) s = .ok g s') (fn : Ir.FuncId) (line : Nat) :
    Restocks home s (fun i => if i = g then some ⟨fn, line, length⟩ else home i) s' := by
  obtain ⟨rfl, unique, names, rfl⟩ := addGlobal_eq_ok h
  have new : ∀ {i : Ir.GlobalId} {t : Tenant}, home i = some t → i ≠ s.module.globals.size :=
    fun hi => Nat.ne_of_lt (S.lt_size hi)
  refine ⟨⟨?_, ?_, ?_, S.copy⟩, id, id, ?_, ?_, ?_⟩
  · intro content g hg
    exact (S.data hg).imp fun d hd => hd.imp_left getElem?_push_of_some
  · intro g d hd hp
    rcases getElem?_push_cases hd with hd | ⟨-, rfl⟩
    · exact S.listed hd hp
    · cases hp
  · intro g t ht
    split at ht
    · rename_i he
      subst he
      cases ht
      exact ⟨_, Array.getElem?_push_size, rfl, rfl, rfl⟩
    · exact (S.buffers ht).imp fun d hd => hd.imp_left getElem?_push_of_some
  · intro g t ht
    rw [if_neg (new ht), ht]
  · intro g t ht
    split at ht
    · rename_i he
      exact .inr (Nat.le_of_eq he.symm)
    · exact .inl ht
  · exact fun hd => ⟨_, getElem?_push_of_some hd, rfl⟩

/-- The buffer of a literal is on the stack or a new global. -/
theorem literalBuffer {here : Bool} {length : Nat} {buffer : Ir.Inst} {b : Body} {s₀ : State}
    (h : if here then buffer = Ir.stackBuffer length ∧ s₀ = s.setBody b
      else buffer = Ir.staticBuffer s.module.globals.size length ∧
        addGlobal Abi.stringBuffer (.array length (.int 8)) (s.setBody b) =
          .ok s.module.globals.size s₀) (fn : Ir.FuncId) (line : Nat) :
    ∃ home', Restocks home s home' s₀ ∧ s₀.strings = s.strings ∧
      if here then buffer = Ir.stackBuffer length
      else ∃ g, buffer = Ir.staticBuffer g length ∧ home' g = some ⟨fn, line, length⟩ := by
  have start := (Restocks.refl S).setBody b
  cases here with
  | true =>
    obtain ⟨hb, rfl⟩ := h
    exact ⟨home, start, rfl, hb⟩
  | false =>
    obtain ⟨hb, hg⟩ := h
    refine ⟨_, start.trans (start.stocked.buffer hg fn line), ?_, _, hb, if_pos rfl⟩
    cases hg
    rfl

theorem copyIntrinsic {copy : Ir.FuncId}
    (h : copyIntrinsic s = .ok (Ir.copyFunction.value copy) s') :
    Restocks home s home s' ∧ s'.memcpy = some copy ∧ s'.strings = s.strings := by
  obtain ⟨id, hid, ⟨hm, rfl⟩ | ⟨hm, rfl, rfl⟩⟩ := copyIntrinsic_eq_ok h
  · cases hid
    exact ⟨.refl S, hm, rfl⟩
  · cases hid
    refine ⟨⟨⟨S.data, S.listed, S.buffers, ?_⟩, ?_, fun h => h, fun h => h, .inl,
      fun hd => ⟨_, hd, rfl⟩⟩, rfl, rfl⟩
    · intro id hi
      cases hi
      exact ⟨_, Array.getElem?_push_size, rfl, rfl⟩
    · intro id hi
      rw [hm] at hi
      cases hi

theorem internedData {content : Bytes} {g : Ir.GlobalId}
    (h : internedData content s = .ok (.firstChar g content.length) s') :
    Restocks home s home s' ∧ s'.strings.lookup content = some g ∧
      ∀ other, (s'.strings.lookup other).isSome →
        (s.strings.lookup other).isSome ∨ other = content := by
  obtain ⟨g', hg', ⟨hl, rfl⟩ | ⟨hl, rfl, d, names, isData, rfl⟩⟩ := internedData_eq_ok h
  · cases hg'
    exact ⟨.refl S, hl, fun _ => .inl⟩
  · cases hg'
    have keeps : ∀ {content' i}, s.strings.lookup content' = some i →
        ((content, s.module.globals.size) :: s.strings).lookup content' = some i :=
      lookup_cons_of_fresh hl
    refine ⟨⟨⟨?_, ?_, ?_, S.copy⟩, id, keeps, id, .inl, ?_⟩, List.lookup_cons_self, ?_⟩
    · intro content' i hi
      rcases lookup_cons_cases hi with hi | ⟨rfl, rfl⟩
      · exact (S.data hi).imp fun d hd => hd.imp_left getElem?_push_of_some
      · exact ⟨d, Array.getElem?_push_size, isData⟩
    · intro i d' hd hp
      rcases getElem?_push_cases hd with hd | ⟨rfl, -⟩
      · exact (S.listed hd hp).imp fun _ => keeps
      · exact ⟨content, List.lookup_cons_self⟩
    · intro i t ht
      exact (S.buffers ht).imp fun d hd => hd.imp_left getElem?_push_of_some
    · exact fun hd => ⟨_, getElem?_push_of_some hd, rfl⟩
    · intro content' hsome
      by_cases he : content' = content
      · exact .inr he
      · rw [lookup_cons_of_ne he] at hsome
        exact .inl hsome

end Stocked

/-! ## What steps store -/

/-- A function with blocks is that of a definition that was lowered, and copies its literals. -/
def Recorded (c : Context) (F : Definitions) (home : Tenancy) (s : State) : Prop :=
  ∀ (i : Ir.FuncId) f, s.module.funcs[i]? = some f → f.blocks ≠ [] →
    ∃ h body, F h body ∧ Owns F s h i ∧ h.site.id ∈ s.lowered ∧
      Laid (Copies c s home i (some h.site.id)) (body.gathers c Expr.literals) f.slots

/-- What holds between any two steps. -/
structure Logged (c : Context) (F : Definitions) (home : Tenancy) (s : State) : Prop where
  ledger : Ledger c F s
  stocked : Stocked home s
  recorded : Recorded c F home s

/-- A definition whose body was lowered has a literal with this content. -/
def Cited (c : Context) (F : Definitions) (s : State) (content : Bytes) : Prop :=
  ∃ h body, F h body ∧ h.site.id ∈ s.lowered ∧
    ∃ lit ∈ body.gathers c Expr.literals, lit.content = content

/-- What a step does that lowers some literals into the body under construction. -/
structure Stored (c : Context) (F : Definitions) (l : List Literal) (home : Tenancy) (s : State)
    (home' : Tenancy) (s' : State) : Prop extends Restocks home s home' s' where
  books : Bookkeeping c F (fun _ => True) s s'
  recorded : Recorded c F home' s'
  body : s.body.Adds (Copies c s' home' s.body.fn s.body.owner) l s'.body
  cited : ∀ content, (s'.strings.lookup content).isSome → (s.strings.lookup content).isSome ∨
    (∃ lit ∈ l, lit.content = content) ∨ Cited c F s' content

/-- A step that stores its literals wherever it starts. -/
def Stows (c : Context) (F : Definitions) (l : List Literal) (s s' : State) : Prop :=
  ∀ home, Logged c F home s → ∃ home', Stored c F l home s home' s'

/-- Functions are only added, without blocks, or changed in something else. -/
def FillsNone (s s' : State) : Prop :=
  ∀ (i : Ir.FuncId) f', s'.module.funcs[i]? = some f' → f'.blocks ≠ [] →
    ∃ f, s.module.funcs[i]? = some f ∧ f.blocks = f'.blocks

theorem FillsNone.of_calm {s s' : State} (h : Calm s s') : FillsNone s s' := by
  obtain ⟨more, hm, none⟩ := h.funcs
  intro i f hf hb
  rw [← Array.getElem?_toList, hm, List.getElem?_append] at hf
  split at hf
  · exact ⟨f, by rw [← Array.getElem?_toList, hf], rfl⟩
  · exact absurd (none f (List.mem_of_getElem? hf)) hb

theorem FillsNone.modify {s s' : State} {id : Ir.FuncId} {g : Ir.Function → Ir.Function}
    (hs : s'.module.funcs = s.module.funcs.modify id g) (hg : ∀ f, (g f).blocks = f.blocks) :
    FillsNone s s' := by
  intro i f hf _
  rw [hs, Array.getElem?_modify] at hf
  split at hf
  · obtain ⟨x, hx, rfl⟩ := Option.map_eq_some_iff.mp hf
    exact ⟨x, hx, (hg x).symm⟩
  · exact ⟨f, hf, rfl⟩

section
variable {c : Context} {F : Definitions} {home home' home'' : Tenancy} {s s' s'' : State}
  {l l' : List Literal}

theorem Ir.Function.slots_congr {f f' : Ir.Function} (h : f.blocks = f'.blocks) :
    f.slots = f'.slots := by
  rw [Ir.Function.slots, h, Ir.Function.slots]

theorem Recorded.mono (R : Recorded c F home s) (r : Restocks home s home' s')
    (ho : ∀ h i, Owns F s h i → Owns F s' h i) (hl : s.lowered ⊆ s'.lowered)
    (hf : FillsNone s s') : Recorded c F home' s' := by
  intro i f' hi hb
  obtain ⟨f, hf₀, he⟩ := hf i f' hi hb
  obtain ⟨h, body, hd, owns, lowered, laid⟩ := R i f hf₀ (he ▸ hb)
  refine ⟨h, body, hd, ho h i owns, hl lowered, ?_⟩
  rw [← Ir.Function.slots_congr he]
  exact laid.mono (Copies.mono r)

theorem Cited.mono {K : NodeId → Prop} (p : Bookkeeping c F K s s') {content : Bytes}
    (h : Cited c F s content) : Cited c F s' content := by
  obtain ⟨d, body, hd, hl, hlit⟩ := h
  exact ⟨d, body, hd, p.lowered hl, hlit⟩

namespace Stored

theorem logged (h : Stored c F l home s home' s') : Logged c F home' s' :=
  ⟨h.books.ledger, h.stocked, h.recorded⟩

theorem trans (h₁ : Stored c F l home s home' s') (h₂ : Stored c F l' home' s' home'' s'') :
    Stored c F (l ++ l') home s home'' s'' where
  toRestocks := h₁.toRestocks.trans h₂.toRestocks
  books := h₁.books.trans h₂.books
  recorded := h₂.recorded
  body := by
    have second := h₂.body
    rw [h₁.body.fn, h₁.body.owner] at second
    exact (h₁.body.mono (Copies.mono h₂.toRestocks)).trans second
  cited content hc := by
    rcases h₂.cited content hc with hc | ⟨lit, hm, he⟩ | hc
    · rcases h₁.cited content hc with hc | ⟨lit, hm, he⟩ | hc
      · exact .inl hc
      · exact .inr (.inl ⟨lit, List.mem_append_left _ hm, he⟩)
      · exact .inr (.inr (hc.mono h₂.books))
    · exact .inr (.inl ⟨lit, List.mem_append_right _ hm, he⟩)
    · exact .inr (.inr hc)

end Stored

end

/-! ## Steps without literals -/

/-- A step that leaves the string table and the blocks of functions alone. -/
structure Bypasses (s s' : State) : Prop where
  strings : s'.strings = s.strings
  memcpy : s'.memcpy = s.memcpy
  globals : Widens s s'
  types : Registry.KeepsTypes s s'
  fills : FillsNone s s'
  body : s.body.Adds (fun _ _ => False) [] s'.body

namespace Bypasses

variable {c : Context} {F : Definitions} {home : Tenancy} {s s' : State}

theorem of_funcs_eq (hs : s'.strings = s.strings) (hm : s'.memcpy = s.memcpy)
    (hg : Widens s s') (hf : s'.module.funcs = s.module.funcs)
    (hb : s.body.Adds (fun _ _ => False) [] s'.body) : Bypasses s s' :=
  ⟨hs, hm, hg, fun _ f hi => ⟨f, hf ▸ hi, rfl, rfl⟩, fun _ f hi _ => ⟨f, hf ▸ hi, rfl⟩, hb⟩

theorem of_module_eq (hs : s'.strings = s.strings) (hm : s'.memcpy = s.memcpy)
    (hg : s'.module.globals = s.module.globals) (hf : s'.module.funcs = s.module.funcs)
    (hb : s'.body = s.body) : Bypasses s s' :=
  .of_funcs_eq hs hm (.of_eq hg) hf (hb ▸ .of_kept (.refl _) rfl)

theorem setBody {b : Body} (h : s.body.Adds (fun _ _ => False) [] b) : Bypasses s (s.setBody b) :=
  .of_funcs_eq rfl rfl (.of_eq rfl) rfl h

theorem stored (h : Bypasses s s') (L : Logged c F home s)
    (p : Bookkeeping c F (fun _ => True) s s') : Stored c F [] home s home s' := by
  have r := L.stocked.grow h.strings h.memcpy h.globals h.types
  exact
    { r with
      books := p
      recorded := L.recorded.mono r p.owns p.lowered h.fills
      body := h.body.mono fun _ _ => False.elim
      cited := fun content hc => .inl (h.strings ▸ hc) }

end Bypasses

namespace Lower

variable {α : Type} {c : Context} {F : Definitions}

instance : Lasting Bypasses where
  refl _ := .of_module_eq rfl rfl rfl rfl rfl
  trans h₁ h₂ := by
    refine ⟨h₂.strings.trans h₁.strings, h₂.memcpy.trans h₁.memcpy, h₁.globals.trans h₂.globals,
      h₁.types.trans h₂.types, ?_, h₁.body.trans h₂.body⟩
    intro i f hf hb
    obtain ⟨f₁, hf₁, hb₁⟩ := h₂.fills i f hf hb
    obtain ⟨f₂, hf₂, hb₂⟩ := h₁.fills i f₁ hf₁ (hb₁ ▸ hb)
    exact ⟨f₂, hf₂, hb₂.trans hb₁⟩

instance : Recording (Stows c F) where
  refl s home L := ⟨home, Bypasses.stored (Lasting.refl s) L (.refl L.ledger)⟩
  trans h₁ h₂ home L := by
    obtain ⟨home₁, S₁⟩ := h₁ home L
    obtain ⟨home₂, S₂⟩ := h₂ home₁ S₁.logged
    exact ⟨home₂, S₁.trans S₂⟩

theorem stows_of_bypasses {m : Lower α} (ha : Always Bypasses m)
    (hb : Always (Tracks c F fun _ => True) m) : Always (Quiet (Stows c F)) m :=
  fun s a s' h home L => ⟨home, (ha s a s' h).stored L (hb s a s' h L.ledger)⟩

theorem bypasses_emitAt_vars {inst : Ir.Inst} (hp : inst.isPlain = true) (type : Ir.Ty) :
    Always Bypasses (emitAt .vars inst type) := by
  intro s v s' h
  obtain ⟨-, rfl⟩ := emitAt_vars_eq_ok.mp h
  exact .setBody ⟨rfl, rfl, _, rfl, .line _ hp .nil⟩

theorem bypasses_steer {s : State} {b : Body} (h : s.body.Steers (fun _ => True) b) :
    Bypasses s (s.setBody b) := by
  refine .setBody ?_
  cases h with
  | addBlock name => exact .of_kept (.addBlock _ _) rfl
  | branch t _ _ => exact .of_kept (.finish _ _) (by simp)
  | goto l => exact .of_kept (.goto _ _) rfl
  | halt => exact .of_kept (.halt _) rfl
  | loops loops => exact ⟨rfl, rfl, [], by simp, .nil⟩
  | closeJoin done reached =>
    refine .of_kept (.closeJoin _ _ _) ?_
    cases reached <;> rfl

theorem bypasses_emit (inst : Ir.Inst) (type : Ir.Ty) : Always Bypasses (emit inst type) := by
  intro s v s' h
  obtain ⟨-, -, rfl⟩ := emitAt_cursor_eq_ok.mp h
  exact .setBody (.of_kept (.emit _ _ _) (by simp))

theorem touches_bypasses (c : Context) : Touches c Bypasses where
  emit inst type _ := bypasses_emit inst type
  instruction := bypasses_emit
  slot _ _ := bypasses_emitAt_vars rfl _
  openBlock name := by
    intro s l s' h
    cases h
    exact bypasses_steer (.addBlock name)
  terminate t := by
    intro s u s' h
    obtain ⟨-, rfl⟩ := terminate_eq_ok.mp h
    exact .setBody (.of_kept (.finish _ _) (by simp))
  moveTo l := by
    intro s u s' h
    cases h
    exact bypasses_steer (.goto l)
  buffer content := by
    intro s g s' h
    obtain ⟨-, unique, names, rfl⟩ := addGlobal_eq_ok h
    exact .of_funcs_eq rfl rfl (.push rfl rfl) rfl (.of_kept (.refl _) rfl)
  instructionType := by
    refine always_instructionType (fun _ _ => .of_module_eq rfl rfl rfl rfl rfl) ?_ ?_
    · intro id o _ s t s' h
      cases h
      exact .of_module_eq rfl rfl rfl rfl rfl
    · intro t ts
      unfold setFields
      split
      · exact .modify' fun _ => .of_module_eq rfl rfl rfl rfl rfl
      · exact .pure' _

/-! ## Literals -/

theorem stows_stringValue (site : Site) (content : Bytes) :
    Always (Stows c F [⟨site, content⟩]) (stringValue c site content) := by
  intro s v s' h home L
  have calm : Calm s s' := (emits_stringValue (p := .free s.body.fn) c site content s v s' h rfl
    (Policy.free_covers _ _)).2.1
  obtain ⟨copy, g, buffer, b, b', s₀, s₁, s₂, hbuffer, h₁, h₂, -, rfl⟩ := stringValue_eq_ok h
  obtain ⟨home', R₀, hs₀, hb⟩ :=
    L.stocked.literalBuffer hbuffer s.body.fn (s.body.lineCount + 1)
  obtain ⟨R₁, hm, hs₁⟩ := (R₀.setBody b').stocked.copyIntrinsic h₁
  obtain ⟨R₂, hstr, hc⟩ := R₁.stocked.internedData h₂
  generalize hlines : Ir.copyLines s.body.fn s.body.lineCount copy g buffer content.length = lines
    at calm
  have r := (((R₀.setBody b').trans R₁).trans R₂).setBody (s.body.addVarsLines lines)
  have books : Bookkeeping c F (fun _ => True) s _ := books_of_calm L.ledger calm
  have one : Copies c (s₂.setBody (s.body.addVarsLines lines)) home' s.body.fn s.body.owner
      ⟨site, content⟩ lines := ⟨_, copy, g, buffer, hlines.symm, R₂.memcpy hm, hstr, hb⟩
  refine ⟨home', { r with
    books := books
    recorded := L.recorded.mono r books.owns books.lowered (.of_calm calm)
    body := ⟨rfl, rfl, lines, rfl, lines.append_nil ▸ .copy one .nil⟩
    cited := ?_ }⟩
  intro other ho
  rcases hc other ho with ho | rfl
  · rw [hs₁] at ho
    exact .inl (hs₀ ▸ ho)
  · exact .inr (.inl ⟨_, List.mem_singleton.mpr rfl, rfl⟩)

theorem records_stows (c : Context) (F : Definitions) : Records c (Stows c F) := by
  have t := touches_bypasses c
  have books := tolerant_tracks c F fun _ => True
  exact
    { emit := fun i type h => stows_of_bypasses (t.emit i type h) (books.touches.emit i type h)
      instruction := fun i type =>
        stows_of_bypasses (t.instruction i type) (books.touches.instruction i type)
      slot := fun type n => stows_of_bypasses (t.slot type n) (books.touches.slot type n)
      openBlock := fun n => stows_of_bypasses (t.openBlock n) (books.touches.openBlock n)
      terminate := fun x => stows_of_bypasses (t.terminate x) (books.touches.terminate x)
      moveTo := fun l => stows_of_bypasses (t.moveTo l) (books.touches.moveTo l)
      buffer := fun x => stows_of_bypasses (t.buffer x) (books.touches.buffer x)
      instructionType := fun x =>
        stows_of_bypasses (t.instructionType x) (books.touches.instructionType x)
      string := stows_stringValue }

/-! ## Definitions -/

theorem stows_bind (s : State) (values : List (ObjectId × Ir.Value)) :
    Stows c F [] s { s with values } := fun home L =>
  ⟨home, Bypasses.stored (.of_module_eq rfl rfl rfl rfl rfl) L
    (.of_funcs_eq L.ledger rfl rfl rfl rfl)⟩

theorem stows_report (s : State) (trace : List Event) : Stows c F [] s { s with trace } :=
  fun home L => ⟨home, Bypasses.stored (.of_module_eq rfl rfl rfl rfl rfl) L
    (.of_funcs_eq L.ledger rfl rfl rfl rfl)⟩

/-- A global that is neither data nor a buffer may change. -/
theorem stored_modifyGlobal {home : Tenancy} {s s' : State} (L : Logged c F home s)
    {g : Ir.GlobalId} {d : Ir.Global} {f : Ir.Global → Ir.Global}
    (hd : s.module.globals[g]? = some d) (hp : d.isPrivate = false) (hh : home g = none)
    {u : PUnit} (h : modifyGlobal g f s = .ok u s') (hf : ∀ x, (f x).isPrivate = x.isPrivate) :
    Stored c F [] home s home s' := by
  cases h
  have other : ∀ {i : Ir.GlobalId} {x}, i ≠ g → s.module.globals[i]? = some x →
      (s.module.globals.modify g f)[i]? = some x := by
    intro i x hne hx
    rw [Array.getElem?_modify, if_neg hne.symm, hx]
  have stocked : Stocked home
      { s with module := { s.module with globals := s.module.globals.modify g f } } := by
    refine ⟨?_, ?_, ?_, L.stocked.copy⟩
    · intro content i hi
      obtain ⟨x, hx, isData⟩ := L.stocked.data hi
      refine ⟨x, other ?_ hx, isData⟩
      rintro rfl
      cases hd.symm.trans hx
      simp [isData.isPrivate] at hp
    · intro i x hx hpx
      rw [Array.getElem?_modify] at hx
      split at hx
      · obtain ⟨y, hy, rfl⟩ := Option.map_eq_some_iff.mp hx
        exact L.stocked.listed hy (hf y ▸ hpx)
      · exact L.stocked.listed hx hpx
    · intro i t ht
      obtain ⟨x, hx, isBuffer⟩ := L.stocked.buffers ht
      refine ⟨x, other ?_ hx, isBuffer⟩
      rintro rfl
      simp [hh] at ht
  have r : Restocks home s home
      { s with module := { s.module with globals := s.module.globals.modify g f } } := by
    refine ⟨stocked, id, id, id, .inl, ?_⟩
    intro i x hx
    by_cases hi : g = i
    · exact ⟨f x, by simp [Array.getElem?_modify, hi, hx], hf x⟩
    · exact ⟨x, other (Ne.symm hi) hx, rfl⟩
  have books : Bookkeeping c F (fun _ => True) s
      { s with module := { s.module with globals := s.module.globals.modify g f } } :=
    .of_funcs_eq L.ledger rfl rfl rfl rfl
  exact
    { r with
      books := books
      recorded := L.recorded.mono r books.owns books.lowered fun _ x hx _ => ⟨x, hx, rfl⟩
      body := .of_kept (.refl _) rfl
      cited := fun _ hc => .inl hc }

/-- A new global is nobody's buffer, and not private. -/
theorem stored_addGlobal {home : Tenancy} {s s' : State} (L : Logged c F home s) {name : String}
    {type : Ir.Ty} {g : Ir.GlobalId} (h : addGlobal name type s = .ok g s') :
    Stored c F [] home s home s' ∧ home g = none ∧ g < s'.module.globals.size ∧
      ∃ d, s'.module.globals[g]? = some d ∧ d.isPrivate = false := by
  obtain ⟨rfl, unique, names, rfl⟩ := addGlobal_eq_ok h
  refine ⟨Bypasses.stored (.of_funcs_eq rfl rfl (.push rfl rfl) rfl (.of_kept (.refl _) rfl)) L
    (.of_funcs_eq L.ledger rfl rfl rfl rfl), ?_, ?_, _, Array.getElem?_push_size, rfl⟩
  · refine Option.eq_none_iff_forall_ne_some.mpr fun t ht => ?_
    exact Nat.lt_irrefl _ (L.stocked.lt_size ht)
  · exact Nat.lt_of_lt_of_eq (Nat.lt_succ_self _) (Array.size_push _).symm

theorem stows_defineGlobal (d : VarDecl) (v : ObjectId) (type : Ir.Ty) :
    Always (Stows c F d.value.literals) (defineGlobal c d v type) := by
  intro s u s' h home L
  obtain ⟨g, s₁, h₁, h⟩ := bind_eq_ok.mp h
  obtain ⟨S₁, hnone, hlt, x, hx, hp⟩ := stored_addGlobal L h₁
  have bound : ∀ {s s' : State} {home : Tenancy} {x : Ir.Value}, Logged c F home s →
      bindVariable v x s = .ok u s' → ∃ home', Stored c F [] home s home' s' := by
    intro s s' home x L h
    cases h
    exact stows_bind s _ home L
  rcases ite_eq_ok.mp h with ⟨ha, h⟩ | ⟨ha, h⟩
  · obtain ⟨home', S₂⟩ := bound S₁.logged h
    rw [d.value.eq_absent ha]
    exact ⟨home', S₁.trans S₂⟩
  obtain ⟨init, s₂, h₂, h⟩ := bind_eq_ok.mp h
  obtain ⟨home₂, S₂⟩ := (records_stows c F).valueAs _ _ _ _ _ h₂ home S₁.logged
  rcases ite_eq_ok.mp h with ⟨-, h⟩ | ⟨-, h⟩
  · obtain ⟨_, s₃, h₃, h₄⟩ := bind_eq_ok.mp h
    obtain ⟨y, hy, hpy⟩ := S₂.privacy hx
    -- what became a buffer meanwhile is newer
    have hnone₂ : home₂ g = none := by
      refine Option.eq_none_iff_forall_ne_some.mpr fun t ht => ?_
      rcases S₂.fresh ht with ht | hle
      · simp [hnone] at ht
      · exact Nat.lt_irrefl _ (Nat.lt_of_lt_of_le hlt hle)
    have S₃ := stored_modifyGlobal S₂.logged hy (hpy.trans hp) hnone₂ h₃ fun _ => rfl
    obtain ⟨home₄, S₄⟩ := bound S₃.logged h₄
    exact ⟨home₄, by simpa using S₁.trans (S₂.trans (S₃.trans S₄))⟩
  · obtain ⟨_, s₃, h₃, h₄⟩ := bind_eq_ok.mp h
    obtain ⟨home₃, S₃⟩ := (records_stows c F).store _ _ _ _ _ h₃ home₂ S₂.logged
    obtain ⟨home₄, S₄⟩ := bound S₃.logged h₄
    exact ⟨home₄, by simpa using S₁.trans (S₂.trans (S₃.trans S₄))⟩

/-! ## Functions -/

theorem bypasses_enterPrototype (h : FuncHead) (body : Block) :
    Always Bypasses (enterPrototype c h body) := by
  refine (touches_bypasses c).enterPrototype (fun _ _ => .of_module_eq rfl rfl rfl rfl rfl)
    (fun _ _ => .of_module_eq rfl rfl rfl rfl rfl) (fun _ _ => .of_module_eq rfl rfl rfl rfl rfl) ?_
  intro hasBody result params s id s' hr
  rcases declareSymbol_eq_ok hr with ⟨-, -, f, -, hb, -, rfl⟩ | ⟨-, -, rfl⟩
  · refine ⟨rfl, rfl, .of_eq rfl, fun i g hg => ⟨g, getElem?_push_of_some hg, rfl, rfl⟩, ?_,
      .of_kept (.refl _) rfl⟩
    intro i g hg hne
    rcases getElem?_push_cases hg with hg | ⟨-, rfl⟩
    · exact ⟨g, hg, rfl⟩
    · exact absurd hb hne
  · exact Lasting.refl s'

/-- When a body begins, its definition counts as lowered. -/
theorem logged_begin {home : Tenancy} {s : State} (L : Logged c F home s) {h : FuncHead}
    {id : Ir.FuncId} (ho : Owns F s h id) (hnew : h.site.id ∉ s.lowered) (exported : Bool)
    (b : Body) : Logged c F home ((s.beginBody h.site.id id exported).setBody b) ∧
      Restocks home s home ((s.beginBody h.site.id id exported).setBody b) := by
  have changes : Registry.KeepsTypes s ((s.beginBody h.site.id id exported).setBody b) ∧
      FillsNone s ((s.beginBody h.site.id id exported).setBody b) ∧
      Widens s ((s.beginBody h.site.id id exported).setBody b) := by
    cases exported with
    | true =>
      exact ⟨.modify (g := fun f => { f with isExported := true }) rfl fun _ => ⟨rfl, rfl⟩,
        .modify (g := fun f => { f with isExported := true }) rfl fun _ => rfl, .of_eq rfl⟩
    | false => exact ⟨fun _ f hf => ⟨f, hf, rfl, rfl⟩, fun _ f hf _ => ⟨f, hf, rfl⟩, .of_eq rfl⟩
  obtain ⟨types, fills, globals⟩ := changes
  have r : Restocks home s home ((s.beginBody h.site.id id exported).setBody b) :=
    L.stocked.grow rfl rfl globals types
  refine ⟨⟨ledger_begin L.ledger ho hnew exported b, r.stocked, ?_⟩, r⟩
  exact L.recorded.mono r (fun _ _ ho => ⟨ho.1, ho.2⟩) (fun _ hk => List.mem_cons_of_mem _ hk) fills

theorem stocked_install {home : Tenancy} {s : State} (S : Stocked home s) (outer : Body)
    (trace : List Event) : Restocks home s home { s.install outer with trace } :=
  S.grow rfl rfl (.of_eq rfl)
    (.modify (g := fun f => { f with blocks := s.body.closed }) rfl fun _ => ⟨rfl, rfl⟩)

/-- The blocks of a body are installed in the function of its definition. -/
theorem recorded_install {home : Tenancy} {s : State} (R : Recorded c F home s) {h : FuncHead}
    {body : Block} (hd : F h body) (ho : Owns F s h s.body.fn) (hl : h.site.id ∈ s.lowered)
    (laid : Laid (Copies c s home s.body.fn (some h.site.id)) (body.gathers c Expr.literals)
      s.body.vars) (outer : Body) (trace : List Event) :
    Recorded c F home { s.install outer with trace } := by
  intro i f hf hb
  change (s.module.funcs.modify s.body.fn fun f => { f with blocks := s.body.closed })[i]? = some f
    at hf
  rw [Array.getElem?_modify] at hf
  split at hf
  · rename_i hi
    subst hi
    obtain ⟨x, -, rfl⟩ := Option.map_eq_some_iff.mp hf
    exact ⟨h, body, hd, ⟨ho.1, ho.2⟩, hl, laid⟩
  · obtain ⟨h', body', hd', ho', hl', laid'⟩ := R i f hf hb
    exact ⟨h', body', hd', ⟨ho'.1, ho'.2⟩, hl', laid'⟩

theorem stows_storeParams (fn : Ir.FuncId) (site : Site) (params : List (String × Ir.Ty)) :
    Always (Quiet (Stows c F)) (storeParams c fn site 0 params) := by
  refine always_storeParams (records_stows c F).slot (fun value place => ?_) stows_bind fn site 0
    params
  have books := tolerant_tracks c F fun _ => True
  refine stows_of_bypasses ?_
    (always_storeAt (fun _ _ _ => always_emitAt books.body .vars _ _) value place)
  exact .get_bind fun _ => .ite' (.discard' (bypasses_emitAt_vars rfl _)) (.breach' _)

theorem stows_fillBody {h : FuncHead} {body : Block} (hd : F h body)
    (hs : Always (Live (Stows c F) (body.gathers c Expr.literals)) (blockStatements c body)) :
    Always (Quiet (Stows c F)) (fillBody c h body (blockStatements c body)) := by
  intro s u s' hf home L
  by_cases henter : h.hasBody body = true ∧ h.Active c
  · obtain ⟨hb, hdecl, params, result, htype⟩ := henter
    obtain ⟨id, site, types, exported, s₁, trace, hproto, -, hnew, hsteps, rfl⟩ :=
      fillBody_enters hb hdecl htype hf
    have ho : Owns F s h id := ⟨⟨body, hd, hb⟩, hproto⟩
    have hfn := bodySteps_fn (realizes_blockStatements c body) hsteps
    obtain ⟨L₀, r₀⟩ := logged_begin L ho hnew exported { fn := id, head := some h, result }
    obtain ⟨home', S⟩ := live_bodySteps (stows_storeParams id site _) hs
      (records_stows c F).closeBody _ _ _ hsteps rfl home L₀
    have r₁ := stocked_install S.stocked s.body trace
    have lowered : h.site.id ∈ s₁.lowered := S.books.lowered List.mem_cons_self
    have laid : Laid (Copies c s₁ home' id (some h.site.id)) (body.gathers c Expr.literals)
        s₁.body.vars := by
      obtain ⟨lines, hv, laid⟩ := S.body.vars
      rw [hv]
      exact laid
    subst hfn
    refine ⟨home', { r₀.trans (S.toRestocks.trans r₁) with
      books := books_enclose ho rfl S.books s.body trace
      recorded :=
        recorded_install S.recorded hd (S.books.owns h _ ⟨ho.1, ho.2⟩) lowered laid s.body trace
      body := .of_kept (.refl _) rfl
      cited := fun content hc => ?_ }⟩
    rcases S.cited content hc with hc | hc | hc
    · exact .inl hc
    · exact .inr (.inr ⟨h, body, hd, lowered, hc⟩)
    · exact .inr (.inr hc)
  · rw [fillBody_skips henter hf]
    exact Recording.refl (R := Stows c F) s home L

/-! ## Units -/

theorem completes_stows (ident : F.Identified) :
    Completes c (fun n => ∀ h body, n = .funcDecl h body → F h body) Expr.literals (Stows c F) := by
  have t := records_stows c F
  have steer : ∀ s b, s.body.Steers (fun _ => True) b → Stows c F [] s (s.setBody b) :=
    fun s b h home L => ⟨home, (bypasses_steer h).stored L (.of_funcs_eq L.ledger rfl rfl rfl rfl)⟩
  exact
    { absent := rfl
      steer := fun s b h => steer s b h.any
      expression := fun e _ => t.valueOf e
      condition := fun _ _ e _ => .of_always (t.condition e) steer
      leave := fun site e _ => t.leave (.modify' fun s => steer s _ .halt) site e
      varDecl := fun d _ => t.defineVariable stows_bind (stows_defineGlobal d)
      structDecl := fun d _ => t.enterStruct d
      report := stows_report
      prototype := fun h body hn => stows_of_bypasses (bypasses_enterPrototype h body)
        fun s u s' hr L => (enterPrototype_books ident (hn h body rfl) hr L).mono fun _ _ => trivial
      fillBody := fun h body hn hs => stows_fillBody (hn h body rfl) hs
      runEntry := t.runEntry
      finish := t.terminate _ }

end Lower

end TreeLowering
