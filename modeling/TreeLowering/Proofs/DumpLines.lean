import Mathlib.Algebra.Ring.Nat
import TreeLowering.Proofs.Preorder

/-!
Lines of a text dump. Every entry ends its line, and names, operators, numbers and type references
bring no newline into it; what is left are two texts that come as they are: the contents of a string
literal and the name of the file in a position. So a dump has one line for each node just if those
have no newline (`dump_newlines`), and a literal of two lines takes two (`literal_splits_line`).
-/
namespace TreeLowering

/-! ## Texts of one line -/

/-- The byte that ends a line. -/
def newline : UInt8 := 10

theorem utf8_eq_flatMap (s : String) : utf8 s = s.toList.flatMap String.utf8EncodeChar := by
  rw [utf8, String.toUTF8_eq_toByteArray, ← String.utf8Encode_toList, List.utf8Encode,
    List.toList_data_toByteArray]

theorem utf8_append (s t : String) : utf8 (s ++ t) = utf8 s ++ utf8 t := by
  rw [utf8_eq_flatMap, String.toList_append, List.flatMap_append, ← utf8_eq_flatMap,
    ← utf8_eq_flatMap]

/-- Only the newline itself is encoded with its byte: all bytes of a longer encoding are above. -/
theorem newline_mem_utf8EncodeChar (c : Char) : newline ∈ String.utf8EncodeChar c ↔ c = '\n' := by
  have byte (k : Nat) (hk : k < 256) : newline = UInt8.ofNat k ↔ k = 10 := by
    rw [← UInt8.toNat_inj, UInt8.toNat_ofNat_of_lt' hk]
    exact eq_comm
  have char : c = '\n' ↔ c.val.toNat = 10 := by
    rw [Char.ext_iff, ← UInt32.toNat_inj]
    rfl
  rw [char, String.utf8EncodeChar]
  generalize c.val.toNat = v
  -- One case for each length of the encoding.
  split
  · rw [List.mem_singleton, byte _ (by omega)]
  split
  · simp only [List.mem_cons, List.not_mem_nil, or_false]
    rw [byte _ (by omega), byte _ (by omega)]
    omega
  split
  · simp only [List.mem_cons, List.not_mem_nil, or_false]
    rw [byte _ (by omega), byte _ (by omega), byte _ (by omega)]
    omega
  · simp only [List.mem_cons, List.not_mem_nil, or_false]
    rw [byte _ (by omega), byte _ (by omega), byte _ (by omega), byte _ (by omega)]
    omega

/-- A text within a line. -/
def OneLine (s : String) : Prop := '\n' ∉ s.toList

instance (s : String) : Decidable (OneLine s) := inferInstanceAs (Decidable (¬_))

theorem newline_mem_utf8 (s : String) : newline ∈ utf8 s ↔ ¬OneLine s := by
  simp only [utf8_eq_flatMap, List.mem_flatMap, newline_mem_utf8EncodeChar, OneLine,
    Decidable.not_not, exists_eq_right]

theorem OneLine.count {s : String} (h : OneLine s) : (utf8 s).count newline = 0 :=
  List.count_eq_zero.mpr fun hn => (newline_mem_utf8 s).mp hn h

@[simp] theorem oneLine_append {s t : String} : OneLine (s ++ t) ↔ OneLine s ∧ OneLine t := by
  simp only [OneLine, String.toList_append, List.mem_append, not_or]

theorem oneLine_replicate {c : Char} (hc : c ≠ '\n') (k : Nat) :
    OneLine (String.ofList (List.replicate k c)) := by
  rw [OneLine, String.toList_ofList]
  exact fun h => hc (List.eq_of_mem_replicate h).symm

@[simp] theorem oneLine_repr (n : Nat) : OneLine n.repr := by
  intro h
  have digit := Nat.isDigit_of_mem_toDigits (by decide) (by decide) (String.toList_ofList ▸ h)
  exact absurd digit (by decide)

theorem oneLine_int (x : Int) : OneLine (toString x) := by
  cases x with
  | ofNat n => exact oneLine_repr n
  | negSucc n => exact oneLine_append.mpr ⟨by decide, oneLine_repr (n + 1)⟩

@[simp] theorem oneLine_ite {p : Prop} [Decidable p] {s t : String} :
    OneLine (if p then s else t) ↔ (p → OneLine s) ∧ (¬p → OneLine t) := by
  by_cases h : p <;> simp [h]

theorem oneLine_fixed2 (x : Binary64) : OneLine x.fixed2 := by
  cases x with
  | nan negative => cases negative <;> decide
  | infinite negative => cases negative <;> decide
  | finite negative mantissa exponent =>
    have sign : OneLine (Binary64.signText negative) := by cases negative <;> decide
    have digits (n : Nat) : OneLine (Binary64.hundredthsText n) := by
      have point : OneLine "." := by decide
      have zero : OneLine "0" := by decide
      simp [Binary64.hundredthsText, point, zero]
    exact oneLine_append.mpr ⟨sign, digits _⟩

/-! ## Lines of nodes -/

/-- The identifiers that an expression shows. -/
def Expr.names : Expr → List String
  | .varRef _ name _ | .structLit _ name _ | .call _ name _ => [name]
  | .selector _ _ field _ => [field]
  | .cast _ _ (some t) => [t.name]
  | _ => []

/-- The labels of a node and the identifiers that it shows. -/
def Node.names : Node → List String
  | .labelled _ label x => label :: x.names
  | .expr e => e.names
  | .typeRef (some t) => [t.name]
  | .space _ name _ => [name]
  | .varDecl d => [d.name]
  | .funcDecl h _ => [h.name]
  | .structDecl d => [d.name]
  | _ => []

/-- The contents of a string literal, nothing of any other expression. -/
def Expr.contents : Expr → Bytes
  | .stringLit _ value => value
  | _ => []

/-- The contents of a node that is a string literal under its labels. -/
def Node.contents : Node → Bytes
  | .labelled _ _ x => x.contents
  | .expr e => e.contents
  | _ => []

/-- The file that the position of a node names, if it shows one. -/
def Node.fileName (n : Node) : String :=
  match n.position? with
  | some p => if p.isValid then p.file else ""
  | none => ""

theorem oneLine_binaryOp (op : BinaryOp) : OneLine op.text := by cases op <;> decide

theorem oneLine_unaryOp (op : UnaryOp) : OneLine op.text := by cases op <;> decide

theorem oneLine_token (token : Token) : OneLine (Token.text token) := by
  cases token with
  | known kind => cases kind <;> decide
  | unknown code =>
    have opens : OneLine "token(" := by decide
    have closes : OneLine ")" := by decide
    simp [Token.text, opens, closes]

theorem TypeRef.describe_count (t : TypeRef) {text : Bytes} (h : t.describe = .ok text)
    (hn : OneLine t.name) : text.count newline = 0 := by
  unfold TypeRef.describe at h
  split at h
  · cases h
  · cases h
    have brackets : OneLine "[]" := by decide
    refine (oneLine_append.mpr ⟨?_, oneLine_replicate (by decide) _⟩).count
    split
    · exact oneLine_append.mpr ⟨hn, brackets⟩
    · exact hn

/-- A text of one line stands for a node that is no literal. -/
theorem count_of_oneLine {s : String} {text : Bytes}
    (h : (.ok (utf8 s) : Except Breach Bytes) = .ok text) (hs : OneLine s) :
    text.count newline = 0 := by
  cases h
  exact hs.count

theorem Expr.describe_count {e : Expr} {text : Bytes} (h : e.describe = .ok text)
    (hn : ∀ s ∈ e.names, OneLine s) : text.count newline = e.contents.count newline := by
  cases e with
  | absent => cases h
  | varRef _ name step =>
    have hname : OneLine name := hn name (List.mem_singleton_self _)
    have signs : OneLine "++" ∧ OneLine "--" := by decide
    rcases step with (_ | _ | _ | _ | _) | code
    · exact count_of_oneLine h hname
    · exact count_of_oneLine h (oneLine_append.mpr ⟨signs.1, hname⟩)
    · exact count_of_oneLine h (oneLine_append.mpr ⟨signs.2, hname⟩)
    · exact count_of_oneLine h (oneLine_append.mpr ⟨hname, signs.1⟩)
    · exact count_of_oneLine h (oneLine_append.mpr ⟨hname, signs.2⟩)
    · cases h
  | structLit _ name | call _ name =>
    have hname : OneLine name := hn name (List.mem_singleton_self _)
    exact count_of_oneLine h (oneLine_append.mpr ⟨hname, by decide⟩)
  | arrayLit | index | assign => exact count_of_oneLine h (by decide)
  | arrayAlloc _ length =>
    exact count_of_oneLine h
      (oneLine_append.mpr ⟨oneLine_append.mpr ⟨by decide, oneLine_int _⟩, by decide⟩)
  | selector _ _ field arrow =>
    have hfield : OneLine field := hn field (List.mem_singleton_self _)
    refine count_of_oneLine h (oneLine_append.mpr ⟨?_, hfield⟩)
    cases arrow <;> decide
  | binary _ op =>
    cases op with
    | known op => exact count_of_oneLine h (oneLine_binaryOp op)
    | unknown code => cases h
  | unary _ op =>
    cases op with
    | known op => exact count_of_oneLine h (oneLine_unaryOp op)
    | unknown code => cases h
  | cast _ _ target =>
    cases target with
    | none => cases h
    | some t =>
      have hname : OneLine t.name := hn t.name (List.mem_singleton_self _)
      obtain ⟨inner, ht, rfl⟩ := exists_of_map_eq_ok h
      rw [List.count_append, List.count_append, t.describe_count ht hname]
      rfl
  | intLit _ value => exact count_of_oneLine h (oneLine_int _)
  | floatLit _ bits => exact count_of_oneLine h (oneLine_fixed2 _)
  | boolLit _ value => exact count_of_oneLine h (by cases value <;> decide)
  | stringLit _ value =>
    cases h
    rfl

theorem Node.describe_count : ∀ {n : Node} {text : Bytes}, n.describe = .ok text →
    (∀ s ∈ n.names, OneLine s) → text.count newline = n.contents.count newline
  | .labelled _ _ x, _, h, hn => x.describe_count h fun s hs => hn s (List.mem_cons_of_mem _ hs)
  | .expr e, _, h, hn => e.describe_count h hn
  | .typeRef (some t), _, h, hn => t.describe_count h (hn t.name (List.mem_singleton_self _))
  | .space _ name _, _, h, hn =>
    count_of_oneLine h (oneLine_append.mpr ⟨by decide, hn name (List.mem_singleton_self _)⟩)
  | .varDecl d, _, h, hn => by
    refine count_of_oneLine h (oneLine_append.mpr ⟨oneLine_append.mpr ⟨?_, ?_⟩, by decide⟩)
    · split <;> decide
    · exact hn d.name (List.mem_singleton_self _)
  | .funcDecl head _, _, h, hn => by
    refine count_of_oneLine h (oneLine_append.mpr ⟨oneLine_append.mpr ⟨?_, ?_⟩, by decide⟩)
    · split <;> decide
    · exact hn head.name (List.mem_singleton_self _)
  | .structDecl d, _, h, hn =>
    count_of_oneLine h (oneLine_append.mpr ⟨hn d.name (List.mem_singleton_self _), by decide⟩)
  | .branch _ token, _, h, _ => count_of_oneLine h (oneLine_token token)
  | .program _ _, _, h, _ | .file _, _, h, _ | .block _, _, h, _ | .ifStmt _ _ _ _ _, _, h, _
  | .elif _, _, h, _ | .forStmt _ _ _ _ _, _, h, _ | .whileStmt _ _ _, _, h, _
  | .ret _ _, _, h, _ => count_of_oneLine h (by decide)

/-- A position names its file; all else of it are numbers. -/
theorem count_render (p : Position) :
    (utf8 p.render).count newline = (utf8 (if p.isValid then p.file else "")).count newline := by
  have colon : OneLine ":" := by decide
  have place : OneLine (toString p.line ++ ":" ++ toString p.column) := by simp [colon]
  unfold Position.render
  split
  · dsimp only
    split
    · rename_i hfile
      rw [place.count, hfile]
      rfl
    · rw [utf8_append, utf8_append, List.count_append, List.count_append, place.count,
        colon.count, Nat.add_zero]
  · rfl

theorem Node.exists_of_line {n : Node} {l : Node.Line} (h : n.line = .ok l) :
    ∃ text p, n.describe = .ok text ∧ n.position? = some p ∧
      l = ⟨n.label?, n.unwrap.kind, text, p⟩ := by
  unfold line at h
  cases ht : n.describe with
  | error b => rw [ht] at h; cases h
  | ok text =>
    cases hp : n.position? with
    | none => rw [ht, hp] at h; cases h
    | some p => rw [ht, hp] at h; exact ⟨text, p, rfl, rfl, (Except.ok.inj h).symm⟩

theorem Node.oneLine_label {n : Node} {label : String} (h : n.label? = some label)
    (hn : ∀ s ∈ n.names, OneLine s) : OneLine label := by
  cases n with
  | labelled _ l x => exact Option.some.inj h ▸ hn l (List.mem_cons_self ..)
  | _ => cases h

/-- An entry ends its line, and has the newlines of a literal and of a file name besides. -/
theorem Node.entry_count {n : Node} {l : Node.Line} (h : n.line = .ok l)
    (hn : ∀ s ∈ n.names, OneLine s) :
    l.entry.count newline =
      1 + (n.contents.count newline + (utf8 n.fileName).count newline) := by
  obtain ⟨text, p, ht, hp, rfl⟩ := n.exists_of_line h
  have label : (labelText n.label?).count newline = 0 := by
    cases hl : n.label? with
    | none => rfl
    | some label => exact (oneLine_append.mpr ⟨n.oneLine_label hl hn, by decide⟩).count
  have file : n.fileName = if p.isValid then p.file else "" := by rw [fileName, hp]
  have ends : (utf8 "\n").count newline = 1 := by decide
  have space : (utf8 " ").count newline = 0 := by decide
  simp only [Line.entry, List.count_append, label, utf8_append, n.describe_count ht hn,
    count_render, ← file, ends, space]
  omega

theorem count_margin (k : Nat) : (Outline.margin k).count newline = 0 :=
  (oneLine_replicate (by decide) _).count

theorem sum_map_succ {α : Type} (f : α → Nat) (l : List α) :
    (l.map fun a => 1 + f a).sum = l.length + (l.map f).sum := by
  induction l with
  | nil => rfl
  | cons a l ih =>
    rw [List.map_cons, List.sum_cons, ih, List.length_cons, List.map_cons, List.sum_cons]
    omega

/-- The newlines of a text dump, where the identifiers and labels of the tree have none: one for
    each node that a walk meets, and those of string literals and file names. So there is one line
    for each node if and only if no string literal and no file name has a newline. -/
theorem dump_newlines {n : Node} {out : Bytes} (h : n.dump = .ok out)
    (hn : ∀ m ∈ n.walk fun _ => true, ∀ s ∈ m.names, '\n' ∉ s.toList) :
    out.count newline = (n.walk fun _ => true).length + ((n.walk fun _ => true).map fun m =>
      m.contents.count newline + (utf8 m.fileName).count newline).sum ∧
    (out.count newline = (n.walk fun _ => true).length ↔
      ∀ m ∈ n.walk fun _ => true, newline ∉ m.contents ∧ '\n' ∉ m.fileName.toList) := by
  have visited : n.walk (fun _ => true) = (n.outline.visits fun _ => true).map Prod.snd :=
    n.outline.walk_eq_visits
  obtain ⟨line, lines, rfl⟩ := exists_lines h
  have entry (v) (hv : v ∈ n.outline.visits fun _ => true) :
      (Outline.margin v.1.length ++ (line v.2).entry).count newline =
        1 + (v.2.contents.count newline + (utf8 v.2.fileName).count newline) := by
    rw [List.count_append, count_margin, Nat.zero_add]
    exact v.2.entry_count (lines v hv) (hn v.2 (visited ▸ List.mem_map_of_mem hv))
  have total : List.count newline ((n.outline.visits fun _ => true).flatMap fun v =>
      Outline.margin v.1.length ++ (line v.2).entry) =
        (n.walk fun _ => true).length + ((n.walk fun _ => true).map fun m =>
          m.contents.count newline + (utf8 m.fileName).count newline).sum := by
    rw [List.count_flatMap, ← sum_map_succ, visited, List.map_map]
    exact congrArg List.sum (List.map_congr_left entry)
  refine ⟨total, ?_⟩
  rw [total, Nat.add_eq_left, List.sum_eq_zero_iff_forall_eq_nat, List.forall_mem_map]
  refine forall₂_congr fun m _ => ?_
  rw [Nat.add_eq_zero_iff, List.count_eq_zero, List.count_eq_zero, newline_mem_utf8,
    Decidable.not_not, OneLine]

/-- The function `fun greet(who: string) { print("hi") }`. -/
def greetFunction : Node :=
  .funcDecl
    { site := { id := 6, position := ⟨"a.pr", 1, 1⟩ }
      name := "greet"
      params := [("who", some { site := { id := 5 }, name := "string" })] }
    (.mk { id := 4 } [.expr (.call { id := 3 } "print" [.stringLit { id := 2 } (utf8 "hi")])])

theorem names_greetFunction :
    ∀ m ∈ greetFunction.walk fun _ => true, ∀ s ∈ m.names, '\n' ∉ s.toList := by
  have all : ((greetFunction.walk fun _ => true).all fun m =>
      m.names.all fun s => !s.toList.contains '\n') = true := by decide +kernel
  simpa using all

/-- Five nodes, five lines. -/
theorem dump_newlines_greetFunction :
    greetFunction.dump = .ok (utf8 ("greet(...) a.pr:1:1\n  block -\n    print() -\n" ++
      "      hi -\n  who: string -\n")) ∧
    (∀ m ∈ greetFunction.walk fun _ => true, ∀ s ∈ m.names, '\n' ∉ s.toList) ∧
    (utf8 ("greet(...) a.pr:1:1\n  block -\n    print() -\n" ++
      "      hi -\n  who: string -\n")).count newline = 5 := by
  have dumped : greetFunction.dump = .ok (utf8 ("greet(...) a.pr:1:1\n  block -\n    print() -\n" ++
      "      hi -\n  who: string -\n")) := eq_ok_of_mem_toOption (by decide +kernel)
  have extra : ((greetFunction.walk fun _ => true).map fun m =>
      m.contents.count newline + (utf8 m.fileName).count newline).sum = 0 := by decide +kernel
  have nodes : (greetFunction.walk fun _ => true).length = 5 := by decide +kernel
  refine ⟨dumped, names_greetFunction, ?_⟩
  rw [(dump_newlines dumped names_greetFunction).1, nodes, extra]

/-- A literal of two lines. -/
def twoLines : Node := .expr (.stringLit { id := 1 } (utf8 "a\nb"))

/-- A literal with a newline takes a line more than it is nodes, though no name or label is to
    blame. -/
theorem literal_splits_line :
    twoLines.dump = .ok (utf8 "a\nb -\n") ∧
    (∀ m ∈ twoLines.walk fun _ => true, ∀ s ∈ m.names, '\n' ∉ s.toList) ∧
    (twoLines.walk fun _ => true).length = 1 ∧ (utf8 "a\nb -\n").count newline = 2 := by
  have names : ((twoLines.walk fun _ => true).all fun m =>
      m.names.all fun s => !s.toList.contains '\n') = true := by decide +kernel
  exact ⟨eq_ok_of_mem_toOption (by decide +kernel), by simpa using names, by decide +kernel,
    by decide +kernel⟩

end TreeLowering
