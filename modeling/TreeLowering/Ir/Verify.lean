import TreeLowering.Ir.Module
import TreeLowering.Abi
import TreeLowering.Text.Quoted

/-!
The structural rules that every lowered function follows. For a function with a body: the first
block is `vars` and the second `entry`, `vars` ends in a branch to that second block, every block
ends in a terminator, stack slots stand only in the first block, and block names are distinct.
-/
namespace TreeLowering.Ir

/-- A broken rule. -/
inductive Violation where
  | tooFewBlocks (count : Nat)
  | firstBlock (name : String)
  | secondBlock (name : String)
  | noBranchToEntry
  | duplicateName (name : String)
  | noTerminator (block : String)
  | strayAlloca (block : String)
deriving DecidableEq, Repr

/-- The text of a broken rule in a function. -/
def Violation.message (fn : String) : Violation → String
  | .tooFewBlocks n =>
    "func " ++ fn ++ ": " ++ toString n ++ " blocks, want at least " ++ Abi.varsBlock ++ " and " ++
      Abi.entryBlock
  | .firstBlock name =>
    "func " ++ fn ++ ": first block is " ++ Text.quoted name ++ ", want " ++
      Text.quoted Abi.varsBlock
  | .secondBlock name =>
    "func " ++ fn ++ ": second block is " ++ Text.quoted name ++ ", want " ++
      Text.quoted Abi.entryBlock
  | .noBranchToEntry =>
    "func " ++ fn ++ ": " ++ Abi.varsBlock ++ " does not branch to " ++ Abi.entryBlock
  | .duplicateName name => "func " ++ fn ++ ": duplicate block name " ++ Text.quoted name
  | .noTerminator block => "func " ++ fn ++ ", " ++ block ++ ": block has no terminator"
  | .strayAlloca block => "func " ++ fn ++ ", " ++ block ++ ": alloca outside " ++ Abi.varsBlock

/-- Whether an instruction makes a stack slot. -/
def Inst.isAlloca : Inst → Bool
  | .alloca _ _ => true
  | _ => false

/-- Whether a terminator is an unconditional branch to a block. -/
def branchesTo (term : Option Term) (target : Label) : Bool :=
  match term with
  | some (.br l) => l.id = target.id
  | _ => false

/-- The rules broken by a block, but for the uniqueness of its name; the first block of a function
    may hold stack slots. -/
def Block.violations (isFirst : Bool) (b : Block) : List Violation :=
  (if b.term.isNone then [.noTerminator b.label.name] else []) ++
    (if isFirst then []
      else (b.lines.filter fun l => l.inst.isAlloca).map fun _ => .strayAlloca b.label.name)

/-- The rules broken by blocks whose names must differ from those in `seen`. The block `vars` counts
    as the first one wherever it is met. -/
def blockViolations (vars : Label) (seen : List String) : List Block → List Violation
  | [] => []
  | b :: rest =>
    (if seen.contains b.label.name then [.duplicateName b.label.name] else []) ++
      b.violations (b.label = vars) ++ blockViolations vars (b.label.name :: seen) rest

/-- The rules that a function breaks; a declaration breaks none. -/
def Function.violations (f : Function) : List Violation :=
  match f.blocks with
  | [] => []
  | [_] => [.tooFewBlocks 1]
  | vars :: entry :: rest =>
    (if vars.label.name = Abi.varsBlock then [] else [.firstBlock vars.label.name]) ++
      (if entry.label.name = Abi.entryBlock then [] else [.secondBlock entry.label.name]) ++
      (if branchesTo vars.term entry.label then [] else [.noBranchToEntry]) ++
      blockViolations vars.label [] (vars :: entry :: rest)

/-- The broken rules of a module, function by function, each with the function's name. -/
def Module.violations (m : Module) : List (String × Violation) :=
  m.funcs.toList.flatMap fun f => f.violations.map fun v => (messageName f.name, v)

/-- The text for a list of broken rules. -/
def verificationMessage (found : List (String × Violation)) : String :=
  "IR verification failed:\n  " ++
    String.intercalate "\n  " (found.map fun (fn, v) => v.message fn)

/-- Accepts a module that breaks no rule; otherwise gives every broken one. -/
def Module.verify (m : Module) : Except (List (String × Violation)) Unit :=
  match m.violations with
  | [] => .ok ()
  | found => .error found

end TreeLowering.Ir
