/-!
Enumerations that travel as numbers. A tree may carry a number that no case of the enumeration has;
`Coded` keeps it, and every consumer decides what an unknown number means there.
-/
namespace TreeLowering

/-- A case of an enumeration, or a number that stands for none. -/
inductive Coded (α : Type) where
  /-- A case of the enumeration. -/
  | known (a : α)
  /-- A number past the last case. -/
  | unknown (code : Nat)
deriving DecidableEq, Repr, Inhabited

/-- Reads a number against the cases in their order. -/
def Coded.ofCode {α : Type} (cases : List α) (code : Nat) : Coded α :=
  match cases[code]? with
  | some a => .known a
  | none => .unknown code

/-- The case, if there is one. -/
def Coded.get? {α : Type} : Coded α → Option α
  | .known a => some a
  | .unknown _ => none

end TreeLowering
