import TreeLowering.Tree.Iteration

/-!
Handing on children, call by call. `recorded` writes down each call of the receiver with its answer
and changes nothing else; `Iterates` says which calls an iteration over a list may make: the
elements in order, each one only after all before it were answered with `true`, and all of them
unless an answer stops it. Every kind of node goes through the list of its children in that way
(`yieldChildren_eq`), so the calls keep to it for every receiver (`children_iterated`).
-/
namespace TreeLowering

variable {σ : Type} {yield : Node → Visit σ Bool}

/-! ## Iterations over lists -/

namespace Visit

theorem andM_eq (x y : Visit σ Bool) :
    (x <&&> y) = x >>= fun go => if go then y else pure false := by
  unfold andM
  congr 1
  funext go
  cases go <;> rfl

@[simp] theorem andM_true (x : Visit σ Bool) : (x <&&> pure true) = x := by
  have answer (go : Bool) : (if go then pure true else pure false : Visit σ Bool) = pure go := by
    cases go <;> rfl
  simp only [andM_eq, answer, bind_pure]

@[simp] theorem true_andM (x : Visit σ Bool) : (pure true <&&> x) = x := by
  simp [andM_eq]

theorem andM_assoc (x y z : Visit σ Bool) : ((x <&&> y) <&&> z) = (x <&&> y <&&> z) := by
  simp only [andM_eq, bind_assoc]
  congr 1
  funext go
  cases go <;> simp

end Visit

open Visit

theorem allM_cons_eq (n : Node) (ns : List Node) :
    (n :: ns).allM yield = (yield n <&&> ns.allM yield) := by
  rw [List.allM_cons, andM_eq]

theorem allM_singleton (n : Node) : [n].allM yield = yield n := by
  rw [allM_cons_eq, List.allM_nil, andM_true]

theorem allM_append (xs ys : List Node) :
    (xs ++ ys).allM yield = (xs.allM yield <&&> ys.allM yield) := by
  induction xs with
  | nil => rw [List.nil_append, List.allM_nil, true_andM]
  | cons x xs ih => rw [List.cons_append, allM_cons_eq, ih, allM_cons_eq, andM_assoc]

theorem allM_map {α : Type} (f : α → Node) (xs : List α) :
    (xs.map f).allM yield = xs.allM fun x => yield (f x) := by
  induction xs with
  | nil => rfl
  | cons x xs ih => simp only [List.map_cons, List.allM_cons, ih]

/-- A child that may be left out is a list of at most one. -/
theorem allM_when (present : Bool) (n : Node) :
    (if present then [n] else []).allM yield = yieldIf present yield n := by
  cases present with
  | true => exact allM_singleton n
  | false => rfl

theorem allM_unless (absent : Bool) (n : Node) :
    (if absent then [] else [n]).allM yield = yieldIf (!absent) yield n := by
  cases absent with
  | true => rfl
  | false => exact allM_singleton n

theorem allM_typeNodes (site : Site) (label : String) (t : Option TypeRef) :
    (typeNodes site label t).allM yield =
      yieldIf t.isSome yield (.labelled site label (.typeRef t)) := by
  cases t with
  | some t => exact allM_singleton _
  | none => rfl

theorem allM_typedNameNodes (site : Site) (names : List TypedName) :
    (typedNameNodes site names).allM yield = yieldTypedNames site yield names :=
  allM_map _ names

theorem allM_numberedNodes (site : Site) (label : String) (nodes : List Node) :
    (numberedNodes site label nodes).allM yield = yieldNumbered site label yield nodes :=
  allM_map _ nodes.zipIdx

/-! ## Nodes -/

/-- Whether a node, under its labels, is a missing block, arm or file. -/
def Node.isHollow : Node → Bool
  | .labelled _ _ x => x.isHollow
  | .block .missing | .elif .missing | .file .missing => true
  | _ => false

theorem Expr.yieldChildren_eq (e : Expr) : e.yieldChildren yield = e.children.allM yield := by
  cases e with
  | structLit | call | arrayLit => exact (allM_map _ _).symm
  | arrayAlloc | selector | unary => exact (allM_singleton _).symm
  | index | assign | binary | cast =>
    simp only [Expr.yieldChildren, Expr.children, allM_cons_eq, List.allM_nil, andM_true]
  | _ => rfl

/-- Each kind of node hands on its children as a loop over their list does. -/
theorem Node.yieldChildren_eq : ∀ n : Node,
    n.yieldChildren yield = if n.isHollow then throw .missingPart else n.children.allM yield
  | .labelled _ _ x => x.yieldChildren_eq
  | .expr e => e.yieldChildren_eq
  | .program _ files => (allM_map _ files).symm
  | .file (.mk _ _) | .space _ _ _ | .block (.mk _ _) | .typeRef _ | .branch _ _ => rfl
  | .file .missing | .block .missing | .elif .missing => rfl
  | .ifStmt site cond yes elifs no => by
    change _ = List.allM yield (Node.children (.ifStmt site cond yes elifs no))
    simp only [yieldChildren, children, List.cons_append, List.nil_append, allM_cons_eq,
      allM_append, allM_map, allM_unless]
  | .elif (.mk _ _ _) => by
    change _ = List.allM yield (Node.children (.elif _))
    simp only [yieldChildren, children, allM_cons_eq, List.allM_nil, andM_true]
  | .forStmt site init cond iter body => by
    change _ = List.allM yield (Node.children (.forStmt site init cond iter body))
    simp only [yieldChildren, children, allM_append, allM_numberedNodes, allM_unless,
      allM_singleton, andM_assoc]
  | .whileStmt site cond body => by
    change _ = List.allM yield (Node.children (.whileStmt site cond body))
    simp only [yieldChildren, children, allM_cons_eq, List.allM_nil, andM_true]
  | .varDecl d => by
    change _ = List.allM yield (Node.children (.varDecl d))
    simp only [yieldChildren, children, allM_append, allM_unless, allM_typeNodes]
  | .funcDecl h body => by
    change _ = List.allM yield (Node.children (.funcDecl h body))
    simp only [yieldChildren, children, allM_append, allM_when, allM_typedNameNodes,
      allM_typeNodes, andM_assoc]
  | .structDecl d => (allM_typedNameNodes d.site d.fields).symm
  | .ret _ result => (allM_unless result.isAbsent (.expr result)).symm

/-! ## Calls -/

/-- One call of a receiver: the child it was handed, and its answer. -/
structure Offer where
  child : Node
  answer : Except Breach Bool

/-- The receiver that writes down its calls beside its state. -/
def recorded (yield : Node → Visit σ Bool) (n : Node) : Visit (σ × List Offer) Bool :=
  ExceptT.mk fun (s, calls) =>
    let (answer, s') := yield n s
    (answer, s', calls ++ [⟨n, answer⟩])

/-- The calls that an iteration over a list makes, and how it ends. -/
structure Iterates (list : List Node) (calls : List Offer) (answer : Except Breach Bool) :
    Prop where
  /-- The first elements are handed on, in order. -/
  inOrder : calls.map Offer.child = list.take calls.length
  /-- After an answer other than `true` there is no call. -/
  goesOn : ∀ call ∈ calls.dropLast, call.answer = .ok true
  /-- The iteration ends as the last call was answered. -/
  ends : (calls.getLast?.map Offer.answer).getD (.ok true) = answer
  /-- Unless an answer stops it, it goes through the whole list. -/
  complete : answer = .ok true → calls.length = list.length

namespace Iterates

variable {n : Node} {ns : List Node} {calls : List Offer} {answer : Except Breach Bool}

theorem nil : Iterates [] [] (.ok true) := ⟨rfl, by simp, rfl, fun _ => rfl⟩

theorem stop (h : answer ≠ .ok true) : Iterates (n :: ns) [⟨n, answer⟩] answer :=
  ⟨rfl, by simp, rfl, fun ha => absurd ha h⟩

theorem cons (h : Iterates ns calls answer) :
    Iterates (n :: ns) (⟨n, .ok true⟩ :: calls) answer := by
  refine ⟨by simp [h.inOrder], fun call hc => ?_, ?_, fun ha => by simp [h.complete ha]⟩
  · cases calls with
    | nil => cases hc
    | cons first rest =>
      rcases List.mem_cons.mp hc with rfl | hc
      · rfl
      · exact h.goesOn call hc
  · rw [← h.ends, List.getLast?_cons]
    cases calls.getLast? <;> rfl

end Iterates

/-- The first answer decides whether the others are asked for. -/
theorem allM_cons_run (n : Node) (ns : List Node) (s : σ) :
    (n :: ns).allM yield s =
      match yield n s with
      | (.ok true, s') => ns.allM yield s'
      | (answer, s') => (answer, s') := by
  rw [List.allM_cons]
  rcases h : yield n s with ⟨_ | _ | _, s'⟩ <;>
    simp only [bind, ExceptT.bind, ExceptT.mk, ExceptT.bindCont, StateT.bind, h] <;> rfl

theorem recorded_run (n : Node) (s : σ) (before : List Offer) :
    recorded yield n (s, before) =
      ((yield n s).1, (yield n s).2, before ++ [⟨n, (yield n s).1⟩]) := rfl

/-- A loop over a list makes the calls of an iteration, and writing them down does not change it. -/
theorem allM_iterates (ns : List Node) : ∀ (s : σ) (before : List Offer), ∃ calls answer s',
    ns.allM (recorded yield) (s, before) = (answer, s', before ++ calls) ∧
    ns.allM yield s = (answer, s') ∧ Iterates ns calls answer := by
  induction ns with
  | nil => exact fun s before => ⟨[], .ok true, s, by rw [List.append_nil]; rfl, rfl, .nil⟩
  | cons n ns ih =>
    intro s before
    rw [allM_cons_run, allM_cons_run, recorded_run]
    obtain ⟨answer, s'⟩ := yield n s
    by_cases h : answer = .ok true
    · subst h
      obtain ⟨calls, answer, s'', hr, hy, hi⟩ := ih s' (before ++ [⟨n, .ok true⟩])
      exact ⟨⟨n, .ok true⟩ :: calls, answer, s'', by simpa using hr, hy, hi.cons⟩
    · refine ⟨[⟨n, answer⟩], answer, s', ?_, ?_, .stop h⟩ <;>
        rcases answer with _ | _ | _ <;> first | rfl | exact absurd rfl h

/-! ## Leaving early -/

theorem allM_collecting_cons (enough : List Node → Bool) (n : Node) (ns found : List Node) :
    (n :: ns).allM (collecting enough) found =
      if enough (found ++ [n]) then (.ok false, found ++ [n])
      else ns.allM (collecting enough) (found ++ [n]) := by
  have collect : collecting enough n found = (.ok (!enough (found ++ [n])), found ++ [n]) := rfl
  rw [allM_cons_run, collect]
  cases enough (found ++ [n]) <;> rfl

/-- Without an end the whole list is collected. -/
theorem allM_collecting_all (ns : List Node) : ∀ found,
    ns.allM (collecting fun _ => false) found = (.ok true, found ++ ns) := by
  induction ns with
  | nil => exact fun found => by rw [List.append_nil]; rfl
  | cons n ns ih =>
    intro found
    rw [allM_collecting_cons, if_neg Bool.false_ne_true, ih, List.append_assoc,
      List.singleton_append]

/-- Once `k` elements are enough, the first `k` are collected. -/
theorem allM_collecting_take {k : Nat} (ns : List Node) : ∀ found, found.length < k →
    ∃ go, ns.allM (collecting fun found => found.length == k) found =
      (.ok go, found ++ ns.take (k - found.length)) := by
  induction ns with
  | nil => exact fun found _ => ⟨true, by rw [List.take_nil, List.append_nil]; rfl⟩
  | cons n ns ih =>
    intro found hlt
    have next : k - found.length = k - (found.length + 1) + 1 := by omega
    rw [allM_collecting_cons, next, List.take_succ_cons]
    by_cases hk : found.length + 1 = k
    · exact ⟨false, by simp [hk]⟩
    · obtain ⟨go, h⟩ := ih (found ++ [n]) (by rw [List.length_append, List.length_singleton]; omega)
      refine ⟨go, ?_⟩
      rw [List.length_append, List.length_singleton, List.append_assoc,
        List.singleton_append] at h
      simpa [hk] using h

theorem collectChildren_eq {n : Node} (hn : n.isHollow = false) {enough : List Node → Bool}
    {go : Bool} {found : List Node} (h : n.children.allM (collecting enough) [] = (.ok go, found)) :
    n.collectChildren enough = .ok found := by
  rw [Node.collectChildren, n.yieldChildren_eq, hn, if_neg Bool.false_ne_true, h]

/-- The children of a node are handed on as one fixed list: whatever the receiver does and keeps, it
    is called on the elements in order, until an answer stops the iteration, and never after that.
    An iteration that is left after `k` elements met the first `k` of them. -/
theorem children_iterated (n : Node) :
    (∀ (σ : Type) (yield : Node → Visit σ Bool) (s : σ), ∃ calls answer s',
      n.yieldChildren (recorded yield) (s, []) = (answer, s', calls) ∧
      n.yieldChildren yield s = (answer, s') ∧
      if n.isHollow then calls = [] ∧ answer = .error .missingPart
      else Iterates n.children calls answer) ∧
    (n.isHollow = false →
      n.collectChildren (fun _ => false) = .ok n.children ∧
      ∀ k, 0 < k →
        n.collectChildren (fun found => found.length == k) = .ok (n.children.take k)) := by
  refine ⟨fun σ yield s => ?_, fun hn => ⟨?_, fun k hk => ?_⟩⟩
  · rw [n.yieldChildren_eq, n.yieldChildren_eq]
    cases hn : n.isHollow with
    | true => exact ⟨[], .error .missingPart, s, rfl, rfl, rfl, rfl⟩
    | false =>
      obtain ⟨calls, answer, s', hr, hy, hi⟩ := @allM_iterates σ yield n.children s []
      exact ⟨calls, answer, s', hr, hy, hi⟩
  · exact collectChildren_eq hn (allM_collecting_all n.children [])
  · obtain ⟨go, h⟩ := allM_collecting_take n.children [] hk
    exact collectChildren_eq hn h

/-- The loop `for (i; ; i++) {}` under a label: three children. -/
def labelledLoop : Node :=
  .labelled { id := 5 } "then" (.forStmt { id := 4 }
    [.expr (.varRef { id := 1 } "i" (.known .none))] .absent
    [.expr (.varRef { id := 2 } "i" (.known .postInc))] (.mk { id := 3 } []))

/-- A loop over the children of a loop that is left after two of the three. -/
theorem children_iterated_labelledLoop :
    labelledLoop.isHollow = false ∧ labelledLoop.children.length = 3 ∧
      labelledLoop.collectChildren (fun found => found.length == 2) =
        .ok (labelledLoop.children.take 2) :=
  ⟨rfl, rfl, ((children_iterated labelledLoop).2 rfl).2 2 (by decide)⟩

end TreeLowering
