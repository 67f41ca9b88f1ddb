import ConstRestore.Expr.Evaluate
import ConstRestore.Bytecode.Assembly
import ConstRestore.Bytecode.Edits
import ConstRestore.Dataflow.ValueType
import ConstRestore.OrderedSet
import ConstRestore.Code.Generate
import ConstRestore.Code.NullCheck
import ConstRestore.Code.Flags
import ConstRestore.Group.Store
import ConstRestore.Registry.Callers
import ConstRestore.Dataflow.Solution
import ConstRestore.Restore.Restoration
import ConstRestore.Proofs.Machine
import ConstRestore.Proofs.Conversion
import ConstRestore.Proofs.Folding
import ConstRestore.Proofs.PushedFlags
import ConstRestore.Proofs.Paths
import ConstRestore.Proofs.Partition
import ConstRestore.Proofs.Termination
import ConstRestore.Proofs.Agreement
import ConstRestore.Proofs.Rewriting
import ConstRestore.Proofs.Interleaving
import ConstRestore.Proofs.Loaded
import ConstRestore.Proofs.Literals
import ConstRestore.Proofs.Repetition
import ConstRestore.Proofs.Coverage
import ConstRestore.Proofs.Admission
import ConstRestore.Proofs.Denotation
import ConstRestore.Proofs.Rearrangement
import ConstRestore.Proofs.Concatenation
import ConstRestore.Proofs.Rejection
import ConstRestore.Proofs.Preservation
import ConstRestore.Proofs.Superclasses
import ConstRestore.Proofs.Inheritance
import ConstRestore.Proofs.Transparency
import ConstRestore.Proofs.FoldedChecks
import ConstRestore.Proofs.Resolution
import ConstRestore.Proofs.Slicing
import ConstRestore.Proofs.Scopes
import ConstRestore.Proofs.Refusal
import ConstRestore.Proofs.FrameShape
import ConstRestore.Proofs.Enclosing
import ConstRestore.Proofs.Assembled
import ConstRestore.Proofs.Phrases
import ConstRestore.Proofs.Readings
