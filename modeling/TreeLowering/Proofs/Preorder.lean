import TreeLowering.Tree.Outline

/-!
Walks and dumps of one tree side by side. Nodes are found by their addresses, the numbers of the
children on the way down, and addresses in lexicographic order are the depth-first order with a node
before its children. `Outline.visits` lists what a walk meets with the addresses: it is the walk
(`walk_eq_visits`), and the text dump and the objects of the JSON dump are its entries one by one
(`dump_eq_visits`, `toJson_eq_visits`). Which addresses occur is said without a walk by
`Node.Reaches`.
-/
namespace TreeLowering

/-! ## Addresses -/

/-- The way from a node down to another one: the number of a child, of a child of it, and so on. -/
abbrev Address := List Nat

/-- The node at an address. -/
def Node.at? (n : Node) : Address → Option Node
  | [] => some n
  | i :: a => (n.children[i]?).bind fun c => c.at? a

/-- At an address stands a node, no empty slot, and no node above it is one to stop at. -/
structure Node.Reaches (n : Node) (stop : Node → Bool) (a : Address) (m : Node) : Prop where
  found : n.at? a = some m
  present : m.isAbsent = false
  above : ∀ b x, b <+: a → b ≠ a → n.at? b = some x → stop x = false

section
variable {n m : Node} {stop : Node → Bool} {i : Nat} {a : Address}

theorem Node.reaches_nil : n.Reaches stop [] m ↔ n.isAbsent = false ∧ m = n := by
  constructor
  · rintro ⟨found, present, -⟩
    obtain rfl : n = m := Option.some.inj found
    exact ⟨present, rfl⟩
  · rintro ⟨present, rfl⟩
    exact ⟨rfl, present, fun b x hb hne => absurd (List.prefix_nil.mp hb) hne⟩

theorem Node.reaches_cons : n.Reaches stop (i :: a) m ↔
    stop n = false ∧ ∃ c, n.children[i]? = some c ∧ c.Reaches stop a m := by
  constructor
  · rintro ⟨found, present, above⟩
    obtain ⟨c, hc, found⟩ := Option.bind_eq_some_iff.mp found
    refine ⟨above [] n List.nil_prefix (by simp) rfl, c, hc, found, present, ?_⟩
    intro b x hb hne hx
    exact above (i :: b) x (List.cons_prefix_cons.mpr ⟨rfl, hb⟩) (by simpa using hne)
      (Option.bind_eq_some_iff.mpr ⟨c, hc, hx⟩)
  · rintro ⟨hn, c, hc, found, present, above⟩
    refine ⟨Option.bind_eq_some_iff.mpr ⟨c, hc, found⟩, present, ?_⟩
    intro b x hb hne hx
    cases b with
    | nil => exact Option.some.inj hx ▸ hn
    | cons j b =>
      obtain ⟨rfl, hba⟩ := List.cons_prefix_cons.mp hb
      obtain ⟨d, hd, hx⟩ := Option.bind_eq_some_iff.mp hx
      obtain rfl : c = d := Option.some.inj (hc.symm.trans hd)
      exact above b x hba (by simpa using hne) hx

end

/-! ## Visits -/

/-- What stands at an address below a child, as its parent sees it. -/
def below (i : Nat) (v : Address × Node) : Address × Node := (i :: v.1, v.2)

namespace Outline

mutual

/-- The nodes that a walk meets, with their addresses. -/
def visits (enter : Node → Bool) : Outline → List (Address × Node)
  | .mk n children =>
    if n.isAbsent then []
    else ([], n) :: (if enter n then visitsFrom enter 0 children else [])

/-- The nodes met in a list of outlines that are children from a number on. -/
def visitsFrom (enter : Node → Bool) (i : Nat) : List Outline → List (Address × Node)
  | [] => []
  | o :: os => (visits enter o).map (below i) ++ visitsFrom enter (i + 1) os

end

section
variable {enter : Node → Bool}

mutual

/-- A walk meets what it visits. -/
theorem walk_eq_visits : ∀ o : Outline, o.walk enter = (o.visits enter).map Prod.snd
  | .mk n children => by
    have below := walkAll_eq_visits 0 children
    rw [walk, visits]
    cases n.isAbsent <;> cases enter n <;> simp [below]

theorem walkAll_eq_visits (i : Nat) : ∀ os : List Outline,
    walkAll enter os = (visitsFrom enter i os).map Prod.snd
  | [] => rfl
  | o :: os => by
    have same : (Prod.snd ∘ below i : Address × Node → Node) = Prod.snd := rfl
    rw [walkAll, visitsFrom, List.map_append, List.map_map, same, walk_eq_visits o,
      walkAll_eq_visits (i + 1) os]

end

theorem mem_visitsFrom {a : Address} {m : Node} : ∀ {i : Nat} {os : List Outline},
    (a, m) ∈ visitsFrom enter i os ↔
      ∃ j o b, os[j]? = some o ∧ a = (i + j) :: b ∧ (b, m) ∈ visits enter o
  | i, [] => by simp [visitsFrom]
  | i, o :: os => by
    rw [visitsFrom, List.mem_append, List.mem_map, mem_visitsFrom]
    constructor
    · rintro (⟨⟨b, x⟩, hv, he⟩ | ⟨j, p, b, hj, rfl, hv⟩)
      · cases he
        exact ⟨0, o, b, rfl, rfl, hv⟩
      · exact ⟨j + 1, p, b, hj, by rw [Nat.add_right_comm, Nat.add_assoc], hv⟩
    · rintro ⟨j, p, b, hj, rfl, hv⟩
      cases j with
      | zero =>
        obtain rfl : o = p := Option.some.inj hj
        exact .inl ⟨(b, m), hv, rfl⟩
      | succ j => exact .inr ⟨j, p, b, hj, by rw [Nat.add_right_comm, Nat.add_assoc], hv⟩

/-- The addresses of the later children come after those of the first one. -/
theorem lt_of_mem_visitsFrom {i : Nat} {a b : Address} {m : Node} {os : List Outline}
    (h : (b, m) ∈ visitsFrom enter (i + 1) os) : i :: a < b := by
  obtain ⟨j, -, c, -, rfl, -⟩ := mem_visitsFrom.mp h
  exact List.cons_lt_cons_iff.mpr (.inl (by omega))

mutual

/-- Visits go in the order of the addresses. -/
theorem visits_sorted : ∀ o : Outline, ((o.visits enter).map Prod.fst).Pairwise (· < ·)
  | .mk n children => by
    have later := visitsFrom_sorted 0 children
    rw [visits]
    split
    · exact .nil
    · split
      · refine List.pairwise_cons.mpr ⟨fun a ha => ?_, later⟩
        obtain ⟨⟨_, m⟩, hv, rfl⟩ := List.mem_map.mp ha
        obtain ⟨j, -, b, -, rfl, -⟩ := mem_visitsFrom.mp hv
        exact List.nil_lt_cons _ _
      · exact List.pairwise_singleton _ _

theorem visitsFrom_sorted (i : Nat) : ∀ os : List Outline,
    ((visitsFrom enter i os).map Prod.fst).Pairwise (· < ·)
  | [] => .nil
  | o :: os => by
    have first := visits_sorted o
    have later := visitsFrom_sorted (i + 1) os
    rw [visitsFrom, List.map_append, List.pairwise_append]
    refine ⟨?_, later, ?_⟩
    · rw [List.map_map, List.pairwise_map]
      exact (List.pairwise_map.mp first).imp fun h => List.cons_lt_cons_iff.mpr (.inr ⟨rfl, h⟩)
    · intro a ha b hb
      obtain ⟨v, hv, rfl⟩ := List.mem_map.mp ha
      obtain ⟨w, -, rfl⟩ := List.mem_map.mp hv
      obtain ⟨⟨_, m⟩, hm, rfl⟩ := List.mem_map.mp hb
      exact lt_of_mem_visitsFrom hm

end

end

end Outline

namespace Node

variable {n m : Node} {enter : Node → Bool}

/-- An empty slot has nothing below it. -/
theorem children_of_isAbsent (h : n.isAbsent = true) : n.children = [] := by
  cases n with
  | expr e => cases e <;> first | rfl | cases h
  | _ => cases h

theorem mem_visits_nil : ([], m) ∈ n.outline.visits enter ↔ n.isAbsent = false ∧ m = n := by
  have later : ([], m) ∉ Outline.visitsFrom enter 0 (n.children.map outline) := fun h => by
    obtain ⟨_, _, _, _, h, _⟩ := Outline.mem_visitsFrom.mp h
    cases h
  rw [outline_eq, Outline.visits]
  cases n.isAbsent <;> cases enter n <;> simp [later]

theorem mem_visits_cons {i : Nat} {a : Address} :
    (i :: a, m) ∈ n.outline.visits enter ↔
      enter n = true ∧ ∃ c, n.children[i]? = some c ∧ (a, m) ∈ c.outline.visits enter := by
  have later : (i :: a, m) ∈ Outline.visitsFrom enter 0 (n.children.map outline) ↔
      ∃ c, n.children[i]? = some c ∧ (a, m) ∈ c.outline.visits enter := by
    rw [Outline.mem_visitsFrom]
    constructor
    · rintro ⟨j, o, b, hj, he, hv⟩
      obtain ⟨rfl, rfl⟩ : i = j ∧ a = b := by simpa using he
      obtain ⟨c, hc, rfl⟩ := Option.map_eq_some_iff.mp (List.getElem?_map .. ▸ hj)
      exact ⟨c, hc, hv⟩
    · rintro ⟨c, hc, hv⟩
      exact ⟨i, c.outline, a, by rw [List.getElem?_map, hc, Option.map_some],
        by rw [Nat.zero_add], hv⟩
  rw [outline_eq, Outline.visits]
  cases hn : n.isAbsent with
  | true => simp [children_of_isAbsent hn]
  | false => cases enter n <;> simp [later]

/-- A walk visits just what it can reach. -/
theorem mem_visits_iff {stop : Node → Bool} {a : Address} :
    (a, m) ∈ n.outline.visits (fun x => !stop x) ↔ n.Reaches stop a m := by
  induction a generalizing n with
  | nil => rw [mem_visits_nil, reaches_nil]
  | cons i a ih => simp only [mem_visits_cons, reaches_cons, ih, Bool.not_eq_true']

end Node

/-! ## Dumps -/

mutual

/-- The objects of a JSON dump, each one before those below it, without the empty slots. -/
def JsonTree.objects : JsonTree → List JsonObject
  | .null => []
  | .object o children => o :: JsonTree.objectsAll children

/-- The objects of a list of trees. -/
def JsonTree.objectsAll : List JsonTree → List JsonObject
  | [] => []
  | t :: ts => t.objects ++ JsonTree.objectsAll ts

end

namespace Outline

/-- The entry of a visited node, indented by two spaces for each node above it. -/
def indentedEntry (indent : Nat) (v : Address × Node) : Except Breach Bytes :=
  (margin (indent + v.1.length) ++ ·) <$> v.2.entry

theorem indentedEntry_below (indent i : Nat) (v : Address × Node) :
    indentedEntry indent (below i v) = indentedEntry (indent + 1) v := by
  rw [indentedEntry, indentedEntry, below, List.length_cons, Nat.add_right_comm, Nat.add_assoc]

mutual

/-- The text dump is made of the entries of what a walk visits. -/
theorem dump_eq_visits (indent : Nat) : ∀ o : Outline,
    o.dump indent =
      List.flatten <$> (o.visits fun _ => true).mapM (indentedEntry indent)
  | .mk n children => by
    have later := dumpAll_eq_visits indent 0 children
    rw [dump, visits]
    cases n.isAbsent with
    | true => rfl
    | false =>
      simp only [Bool.false_eq_true, if_false, if_true, List.mapM_cons, later]
      generalize (visitsFrom (fun _ => true) 0 children).mapM (indentedEntry indent) = entries
      simp only [indentedEntry, List.length_nil, Nat.add_zero]
      cases n.entry with
      | error b => rfl
      | ok e =>
        cases entries with
        | error b => rfl
        | ok es => rfl

theorem dumpAll_eq_visits (indent i : Nat) : ∀ os : List Outline,
    dumpAll (indent + 1) os =
      List.flatten <$> (visitsFrom (fun _ => true) i os).mapM (indentedEntry indent)
  | [] => rfl
  | o :: os => by
    have first := dump_eq_visits (indent + 1) o
    have later := dumpAll_eq_visits indent (i + 1) os
    have shift : indentedEntry indent ∘ below i = indentedEntry (indent + 1) :=
      funext (indentedEntry_below indent i)
    rw [dumpAll, visitsFrom, List.mapM_append, List.mapM_map, shift, first, later]
    generalize (visits (fun _ => true) o).mapM (indentedEntry (indent + 1)) = entries
    generalize (visitsFrom (fun _ => true) (i + 1) os).mapM (indentedEntry indent) = others
    cases entries with
    | error b => rfl
    | ok es =>
      cases others with
      | error b => rfl
      | ok fs => exact congrArg Except.ok List.flatten_append.symm

end

mutual

/-- The objects of the JSON dump are those of what a walk visits. -/
theorem toJson_eq_visits : ∀ o : Outline,
    JsonTree.objects <$> o.toJson = (o.visits fun _ => true).mapM fun v => v.2.jsonObject
  | .mk n children => by
    have later := toJsonAll_eq_visits 0 children
    rw [toJson, visits]
    cases n.isAbsent with
    | true => rfl
    | false =>
      simp only [Bool.false_eq_true, if_false, if_true, List.mapM_cons, ← later]
      cases n.jsonObject with
      | error b => rfl
      | ok o => cases toJsonAll children <;> rfl

theorem toJsonAll_eq_visits (i : Nat) : ∀ os : List Outline,
    JsonTree.objectsAll <$> toJsonAll os =
      (visitsFrom (fun _ => true) i os).mapM fun v => v.2.jsonObject
  | [] => rfl
  | o :: os => by
    have first := toJson_eq_visits o
    have later := toJsonAll_eq_visits (i + 1) os
    have shift : ((fun v => v.2.jsonObject) ∘ below i : Address × Node → _) =
        fun v => v.2.jsonObject := rfl
    rw [toJsonAll, visitsFrom, List.mapM_append, List.mapM_map, shift, ← first, ← later]
    cases toJson o with
    | error b => rfl
    | ok t => cases toJsonAll os <;> rfl

end

end Outline

/-! ## Agreement -/

namespace Node

/-- A label in front of a text. -/
def labelText : Option String → Bytes
  | some label => utf8 (label ++ ": ")
  | none => []

/-- A line as the text dump writes it. -/
def Line.entry (l : Line) : Bytes :=
  labelText l.label ++ (l.text ++ utf8 (" " ++ l.position.render ++ "\n"))

/-- A line as the JSON dump shows it. -/
def Line.object (l : Line) : JsonObject where
  kind := l.kind
  label := l.label.getD ""
  text := l.text
  position := if l.position.isValid then l.position.render else ""

theorem entry_eq_line (n : Node) : n.entry = Line.entry <$> n.line := by
  unfold entry line place
  cases n.describe with
  | error b => rfl
  | ok text =>
    cases n.position? with
    | none => rfl
    | some p => cases n <;> rfl

theorem jsonObject_eq_line (n : Node) : n.jsonObject = Line.object <$> n.line := by
  unfold jsonObject line place
  cases n.describe with
  | error b => rfl
  | ok text =>
    cases n.position? with
    | none => cases n <;> rfl
    | some p => cases n <;> rfl

/-- The nodes that can be reached, with their addresses, each one before those below it and the
    children of a node one after the other. -/
structure Preorder (n : Node) (stop : Node → Bool) (visits : List (Address × Node)) : Prop where
  sorted : (visits.map Prod.fst).Pairwise (· < ·)
  complete : ∀ a m, (a, m) ∈ visits ↔ n.Reaches stop a m

theorem preorder_visits (n : Node) (stop : Node → Bool) :
    n.Preorder stop (n.outline.visits fun m => !stop m) :=
  ⟨n.outline.visits_sorted, fun _ _ => mem_visits_iff⟩

end Node

section
variable {ε α β : Type} {f : α → Except ε β}

theorem exists_of_map_eq_ok {x : Except ε α} {g : α → β} {b : β} (h : g <$> x = .ok b) :
    ∃ a, x = .ok a ∧ g a = b := by
  cases x with
  | error e => cases h
  | ok a => exact ⟨a, rfl, Except.ok.inj h⟩

theorem ok_of_mapM {l : List α} : ∀ {bs : List β}, l.mapM f = .ok bs →
    ∀ a ∈ l, ∃ b, f a = .ok b := by
  induction l with
  | nil => exact fun _ a ha => by cases ha
  | cons a l ih =>
    intro bs h
    rw [List.mapM_cons] at h
    cases hb : f a with
    | error e => rw [hb] at h; cases h
    | ok b =>
      cases hl : l.mapM f with
      | error e => rw [hb, hl] at h; cases h
      | ok bs => exact List.forall_mem_cons.mpr ⟨⟨b, hb⟩, ih hl⟩

theorem mapM_of_ok {g : α → β} {l : List α} (h : ∀ a ∈ l, f a = .ok (g a)) :
    l.mapM f = .ok (l.map g) := by
  induction l with
  | nil => rfl
  | cons a l ih =>
    obtain ⟨ha, hl⟩ := List.forall_mem_cons.mp h
    rw [List.mapM_cons, ha, ih hl]
    rfl

end

/-- A text dump is made of the lines of the nodes that a walk visits, and all of them have one. -/
theorem exists_lines {n : Node} {out : Bytes} (h : n.dump = .ok out) :
    ∃ line : Node → Node.Line,
      (∀ v ∈ n.outline.visits fun _ => true, v.2.line = .ok (line v.2)) ∧
      out = (n.outline.visits fun _ => true).flatMap fun v =>
        Outline.margin v.1.length ++ (line v.2).entry := by
  let line (m : Node) : Node.Line := m.line.toOption.getD ⟨none, "", [], {}⟩
  obtain ⟨entries, hentries, hout⟩ :=
    exists_of_map_eq_ok ((n.outline.dump_eq_visits 0).symm.trans h)
  -- An entry needs all that a line shows.
  have lines : ∀ v ∈ n.outline.visits fun _ => true, v.2.line = .ok (line v.2) := by
    intro v hv
    obtain ⟨e, he⟩ := ok_of_mapM hentries v hv
    obtain ⟨_, he, -⟩ := exists_of_map_eq_ok he
    obtain ⟨l, hl, -⟩ := exists_of_map_eq_ok (v.2.entry_eq_line ▸ he)
    simp only [line, hl, Except.toOption, Option.getD_some]
  have indented : (n.outline.visits fun _ => true).mapM (Outline.indentedEntry 0) =
      .ok ((n.outline.visits fun _ => true).map fun v =>
        Outline.margin v.1.length ++ (line v.2).entry) :=
    mapM_of_ok fun v hv => by
      rw [Outline.indentedEntry, v.2.entry_eq_line, lines v hv, Nat.zero_add]
      rfl
  refine ⟨line, lines, ?_⟩
  rw [← hout, Except.ok.inj (hentries.symm.trans indented), List.flatMap_def]

/-- Where the text dump ends well, the three traversals agree. A walk that does not go below the
    nodes to stop at meets what it can reach, in depth-first order; and what a walk without a stop
    meets are, one by one, the objects of the JSON dump and the entries of the text dump, all with
    the same label, kind, rendering and position, each entry behind two spaces for each node above. -/
theorem traversals_agree {n : Node} {out : Bytes} (h : n.dump = .ok out) :
    (∀ stop, ∃ visits, n.Preorder stop visits ∧
      n.walk (fun m => !stop m) = visits.map Prod.snd) ∧
    ∃ (visits : List (Address × Node)) (line : Node → Node.Line) (tree : JsonTree),
      n.Preorder (fun _ => false) visits ∧
      n.walk (fun _ => true) = visits.map Prod.snd ∧
      (∀ v ∈ visits, v.2.line = .ok (line v.2)) ∧
      n.toJson = .ok tree ∧ n.dumpJson = .ok (tree.render 0 ++ "\n") ∧
      tree.objects = visits.map (fun v => (line v.2).object) ∧
      out = visits.flatMap fun v => Outline.margin v.1.length ++ (line v.2).entry := by
  refine ⟨fun stop => ⟨_, n.preorder_visits stop, n.outline.walk_eq_visits⟩, ?_⟩
  obtain ⟨line, lines, hout⟩ := exists_lines h
  have objects : (n.outline.visits fun _ => true).mapM (fun v => v.2.jsonObject) =
      .ok ((n.outline.visits fun _ => true).map fun v => (line v.2).object) :=
    mapM_of_ok fun v hv => by rw [v.2.jsonObject_eq_line, lines v hv]; rfl
  obtain ⟨tree, htree, hobjects⟩ :=
    exists_of_map_eq_ok (n.outline.toJson_eq_visits.trans objects)
  refine ⟨_, line, tree, n.preorder_visits fun _ => false, n.outline.walk_eq_visits, lines,
    htree, ?_, hobjects, hout⟩
  rw [Node.dumpJson, Node.toJson, htree]
  rfl

/-- The loop `while (i < 3) { break }`. -/
def breakLoop : Node :=
  .whileStmt { id := 6 }
    (.binary { id := 3 } (.known .lss) (.varRef { id := 1 } "i" (.known .none))
      (.intLit { id := 2 } 3))
    (.mk { id := 5 } [.branch { id := 4 } (.known .breakWord)])

theorem dump_breakLoop : breakLoop.dump = .ok (utf8 ("while -\n  condition: < -\n    i -\n" ++
    "    3 -\n  body: block -\n    break -\n")) :=
  eq_ok_of_mem_toOption (by decide +kernel)

/-- The walk over the loop that does not go below its condition: four nodes of six. -/
theorem traversals_agree_breakLoop :
    breakLoop.dump = .ok (utf8 ("while -\n  condition: < -\n    i -\n" ++
      "    3 -\n  body: block -\n    break -\n")) ∧
    ∃ visits, breakLoop.Preorder (fun m => m.label? == some "condition") visits ∧
      visits.length = 4 := by
  obtain ⟨visits, hv, hw⟩ :=
    (traversals_agree dump_breakLoop).1 fun m => m.label? == some "condition"
  refine ⟨dump_breakLoop, visits, hv, ?_⟩
  have met : (breakLoop.walk fun m => !(m.label? == some "condition")).length = 4 := by
    decide +kernel
  rw [← met, hw, List.length_map]

end TreeLowering
