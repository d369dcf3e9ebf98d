import TreeLowering.Scope.Store

/-!
Types seen through a store: printing, identity, and the classes that lowering asks for. A class
looks through one declared name.
-/
namespace TreeLowering.Store

/-- The written form of a type. -/
def render (st : Store) (t : Ty) : Except Breach String := t.render st.namedText

/-- A type as a message shows it, also where it is missing or has a missing part. -/
def shown (st : Store) (t : Ty) : String :=
  if t.isMissing then "%!s(<nil>)" else shownInMessage (st.render t)

/-- Whether two types are identical. -/
def identical (st : Store) (x y : Ty) : Bool := x.identical st.declaration y

/-- What a declared type stands for; any other type stands for itself. -/
def underlying (st : Store) : Ty → Ty
  | .named id => (st.named[id]?.map NamedType.underlying).getD .missing
  | t => t

/-- The scalar kind below a type. -/
def scalar? (st : Store) (t : Ty) : Option Scalar :=
  match st.underlying t with
  | .scalar k => some k
  | _ => none

/-- Whether a type is `bool`. -/
def isBoolean (st : Store) (t : Ty) : Bool := (st.scalar? t).any Scalar.isBoolean

/-- Whether a type is an integer type. -/
def isInteger (st : Store) (t : Ty) : Bool := (st.scalar? t).any Scalar.isInteger

/-- Whether a type is an integer type without a sign. -/
def isUnsigned (st : Store) (t : Ty) : Bool := (st.scalar? t).any Scalar.isUnsigned

/-- Whether a type is a floating-point type. -/
def isFloat (st : Store) (t : Ty) : Bool := (st.scalar? t).any Scalar.isFloat

/-- Whether a type is an integer or floating-point type. -/
def isNumeric (st : Store) (t : Ty) : Bool := st.isInteger t || st.isFloat t

/-- Whether a type is `void`. -/
def isVoid (st : Store) (t : Ty) : Bool := (st.scalar? t).any Scalar.isVoid

/-- Whether a type is a pointer type. -/
def isPointer (st : Store) (t : Ty) : Bool :=
  match st.underlying t with
  | .pointer _ => true
  | _ => false

/-- Whether a type is an array type, the string type included. -/
def isArray (st : Store) (t : Ty) : Bool := (st.underlying t).elem?.isSome

/-- Whether a type is the string type or identical to it. -/
def isString (st : Store) (t : Ty) : Bool := st.identical t .string

/-- Whether values of a type can be tested for equality; there must be a type. -/
def comparable (st : Store) (t : Ty) : Except Breach Bool :=
  if t.isMissing then .error .missingPart
  else
    match st.underlying t with
    | .scalar k => .ok !k.isVoid
    | .pointer _ => .ok true
    | _ => .ok false

/-- Whether values of a type can be ordered. -/
def ordered (st : Store) (t : Ty) : Bool := st.isNumeric t || st.isPointer t

/-- The fields of the struct below a type. -/
def structFields? (st : Store) (t : Ty) : Option (List (String × Ty)) :=
  match st.underlying t with
  | .struct fields => some fields
  | _ => none

/-! ## Printing scopes -/

/-- The written form of a scope: its bindings in ascending order, then the scopes opened in it. The
    first argument bounds the depth. -/
def renderScopeFrom (st : Store) : Nat → Nat → ScopeId → String
  | 0, _, _ => ""
  | depth + 1, indent, s =>
    match st.scopes[s]? with
    | none => ""
    | some scope =>
      let margin := String.ofList (List.replicate (2 * indent) ' ')
      let binding (name : String) : String :=
        let type := ((st.lookup s name).bind fun o => st.objects[o]?).map Object.type
        margin ++ "  " ++ name ++ ": " ++ st.shown (type.getD .missing) ++ "\n"
      margin ++ "scope " ++ scope.comment ++ " \x7b\n" ++
        String.join ((st.names s).map binding) ++
        String.join (scope.children.map (st.renderScopeFrom depth (indent + 1))) ++
        margin ++ "\x7d\n"

/-- The written form of a scope with everything below it. -/
def renderScope (st : Store) (s : ScopeId) : String := st.renderScopeFrom st.scopes.size 0 s

end TreeLowering.Store
