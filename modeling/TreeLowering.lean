import TreeLowering.Tree.Outline
import TreeLowering.Tree.Rescope
import TreeLowering.Ir.Print
import TreeLowering.Lower.Unit
import TreeLowering.Proofs.Unit
import TreeLowering.Proofs.Meaning
import TreeLowering.Proofs.Capture
import TreeLowering.Proofs.Effects
import TreeLowering.Proofs.Walk
import TreeLowering.Proofs.Traversal
import TreeLowering.Proofs.Naming
import TreeLowering.Proofs.Prototypes
import TreeLowering.Proofs.Completion
import TreeLowering.Proofs.Dominance
import TreeLowering.Proofs.Supply
import TreeLowering.Proofs.Certification
import TreeLowering.Proofs.Preservation
import TreeLowering.Proofs.TypeTable
import TreeLowering.Proofs.Materialization
import TreeLowering.Proofs.Symbols
import TreeLowering.Proofs.IdenticalTypes
import TreeLowering.Proofs.Literals
import TreeLowering.Proofs.Storage
import TreeLowering.Proofs.Strings
import TreeLowering.Proofs.TypedModule
import TreeLowering.Proofs.Faults
import TreeLowering.Proofs.Guards
import TreeLowering.Proofs.Oversight
import TreeLowering.Proofs.ForwardReferences
import TreeLowering.Proofs.Consistency
import TreeLowering.Proofs.CallOrder
import TreeLowering.Proofs.Batch
import TreeLowering.Proofs.Transparency
import TreeLowering.Proofs.Warnings
import TreeLowering.Proofs.Branches
import TreeLowering.Proofs.InitFunction
import TreeLowering.Proofs.Rounding
import TreeLowering.Proofs.Denotation
import TreeLowering.Proofs.Folding
import TreeLowering.Proofs.Receivers
import TreeLowering.Proofs.Truth
import TreeLowering.Proofs.Addressing
import TreeLowering.Proofs.DeadCode
import TreeLowering.Proofs.Redeclaration
import TreeLowering.Proofs.ArrayLengths
import TreeLowering.Proofs.BitConstants
import TreeLowering.Proofs.EmissionOrder
import TreeLowering.Proofs.TypeClasses
import TreeLowering.Proofs.Enclosing
import TreeLowering.Proofs.Places
import TreeLowering.Proofs.CanonicalTypes
import TreeLowering.Proofs.ScopeTree
import TreeLowering.Proofs.Resolution
import TreeLowering.Proofs.FloatFolding
import TreeLowering.Proofs.Iteration
import TreeLowering.Proofs.Preorder
import TreeLowering.Proofs.DumpLines
import TreeLowering.Proofs.VoidPointers
import TreeLowering.Proofs.Verification
import TreeLowering.Proofs.TypeReferences
