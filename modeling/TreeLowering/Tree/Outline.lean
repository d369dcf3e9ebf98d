import TreeLowering.Tree.Children
import TreeLowering.Tree.Describe
import TreeLowering.Text.Json

/-!
Whole trees: the outline of a node (the node over the outlines of its children), the walk over it,
and its two written forms, an indented text and JSON.
-/
namespace TreeLowering

/-- A node over the outlines of its children. -/
inductive Outline where
  | mk (node : Node) (children : List Outline)

/-- The outline of a node. -/
def Node.outline (n : Node) : Outline :=
  .mk n (n.children.attach.map fun c => c.1.outline)
termination_by n.weight
decreasing_by exact Node.weight_lt_of_mem_children c.2

/-- An outline holds the node and the outlines of its children. -/
theorem Node.outline_eq (n : Node) : n.outline = .mk n (n.children.map Node.outline) := by
  rw [Node.outline]
  simp

namespace Outline

mutual

/-- The nodes met in depth-first order; below a node that `enter` refuses nothing is visited, and
    empty slots are passed over. -/
def walk (enter : Node → Bool) : Outline → List Node
  | .mk n children =>
    if n.isAbsent then []
    else n :: (if enter n then walkAll enter children else [])

/-- The nodes met in a list of outlines. -/
def walkAll (enter : Node → Bool) : List Outline → List Node
  | [] => []
  | o :: os => walk enter o ++ walkAll enter os

end

end Outline

/-! ## Text -/

/-- Where a node stands; one that is not there stands nowhere. -/
def Node.place (n : Node) : Except Breach Position :=
  match n.position? with
  | some p => .ok p
  | none => .error .missingPart

/-- The entry of a node in the text dump: the label if it has one, its rendering, its position. -/
def Node.entry (n : Node) : Except Breach Bytes := do
  let text ← n.describe
  let position ← n.place
  let shown := text ++ utf8 (" " ++ position.render ++ "\n")
  match n with
  | .labelled _ label _ => .ok (utf8 (label ++ ": ") ++ shown)
  | _ => .ok shown

namespace Outline

/-- The margin of an entry: two spaces per level. -/
def margin (indent : Nat) : Bytes := utf8 (String.ofList (List.replicate (2 * indent) ' '))

mutual

/-- The text dump: an entry per node, two more spaces per level, nothing for an empty slot. -/
def dump (indent : Nat) : Outline → Except Breach Bytes
  | .mk n children =>
    if n.isAbsent then .ok []
    else do
      let entry ← n.entry
      let below ← dumpAll (indent + 1) children
      .ok (margin indent ++ entry ++ below)

/-- The text dump of a list of outlines. -/
def dumpAll (indent : Nat) : List Outline → Except Breach Bytes
  | [] => .ok []
  | o :: os => do
    let first ← dump indent o
    let rest ← dumpAll indent os
    .ok (first ++ rest)

end

end Outline

/-! ## JSON -/

/-- What the JSON dump shows of a node beside its children. -/
structure JsonObject where
  kind : String
  /-- Empty if the node has no label. -/
  label : String
  text : Bytes
  /-- Empty if the node has no valid position. -/
  position : String

/-- The JSON dump as a tree of objects, with nothing where a slot is empty. -/
inductive JsonTree where
  | null
  | object (o : JsonObject) (children : List JsonTree)

/-- The object of a node: a labelled one shows its label and the kind of what is under it. -/
def Node.jsonObject (n : Node) : Except Breach JsonObject := do
  let text ← n.describe
  let (label, kind) := match n with
    | .labelled _ label x => (label, x.unwrap.kind)
    | _ => ("", n.kind)
  let place ← n.place
  .ok { kind, label, text, position := if place.isValid then place.render else "" }

namespace Outline

mutual

/-- The objects of an outline. -/
def toJson : Outline → Except Breach JsonTree
  | .mk n children =>
    if n.isAbsent then .ok .null
    else do
      let o ← n.jsonObject
      let below ← toJsonAll children
      .ok (.object o below)

/-- The objects of a list of outlines. -/
def toJsonAll : List Outline → Except Breach (List JsonTree)
  | [] => .ok []
  | o :: os => do
    let first ← toJson o
    let rest ← toJsonAll os
    .ok (first :: rest)

end

end Outline

/-- The written members of an object; an empty label and an empty position are left out. -/
def JsonObject.members (o : JsonObject) : List String :=
  ["\"kind\": " ++ Json.quote o.kind] ++
    (if o.label = "" then [] else ["\"label\": " ++ Json.quote o.label]) ++
    ["\"text\": " ++ Json.quote o.text] ++
    (if o.position = "" then [] else ["\"pos\": " ++ Json.quote o.position])

namespace JsonTree

/-- A new line with `depth` steps of indentation. -/
def newLine (depth : Nat) : String := "\n" ++ String.ofList (List.replicate (2 * depth) ' ')

/-- Items between brackets, one to a line. -/
def bracketed (left right : String) (depth : Nat) (items : List String) : String :=
  left ++ newLine (depth + 1) ++ String.intercalate ("," ++ newLine (depth + 1)) items ++
    newLine depth ++ right

mutual

/-- The written form of a tree at a depth. -/
def render (depth : Nat) : JsonTree → String
  | .null => "null"
  | .object o children =>
    let below := renderAll (depth + 2) children
    let members := o.members ++
      (if below.isEmpty then [] else ["\"children\": " ++ bracketed "[" "]" (depth + 1) below])
    bracketed "\x7b" "\x7d" depth members

/-- The written forms of a list of trees. -/
def renderAll (depth : Nat) : List JsonTree → List String
  | [] => []
  | t :: ts => render depth t :: renderAll depth ts

end

end JsonTree

namespace Node

/-- The nodes of a tree in depth-first order, without what lies below nodes that `enter` refuses. -/
def walk (enter : Node → Bool) (n : Node) : List Node := n.outline.walk enter

/-- The indented text of a tree. -/
def dump (n : Node) : Except Breach Bytes := n.outline.dump 0

/-- The JSON objects of a tree. -/
def toJson (n : Node) : Except Breach JsonTree := n.outline.toJson

/-- The JSON text of a tree, with a final newline. -/
def dumpJson (n : Node) : Except Breach String := n.toJson.map fun t => t.render 0 ++ "\n"

end Node

end TreeLowering
