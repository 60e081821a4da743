import EcmaEval.Proofs.Soundness
import EcmaEval.Proofs.Stack.Restore
import EcmaEval.Proofs.Host.Termination
import EcmaEval.Proofs.Host.Jump
import EcmaEval.Proofs.Host.Confinement
import EcmaEval.Proofs.Host.This
import EcmaEval.Proofs.Host.Locality
import EcmaEval.Proofs.Host.WellFormed
import EcmaEval.Proofs.Host.Integrity
import EcmaEval.Proofs.Host.Array
import EcmaEval.Proofs.Host.Alias
import EcmaEval.Proofs.Heap.Insertion
import EcmaEval.Proofs.Host.Define
import EcmaEval.Proofs.Host.Read
import EcmaEval.Proofs.Host.Write
import EcmaEval.Proofs.Host.Enumerate
import EcmaEval.Proofs.Heap.Copy
import EcmaEval.Proofs.Heap.Name
import EcmaEval.Proofs.Host.Binding
import EcmaEval.Proofs.Host.Global
import EcmaEval.Proofs.Host.Declare
import EcmaEval.Proofs.Host.Reference
import EcmaEval.Proofs.Host.Attribution
import EcmaEval.Proofs.Host.Entry
import EcmaEval.Proofs.Heap.Arguments
import EcmaEval.Proofs.Host.Hoist
import EcmaEval.Proofs.Pattern
import EcmaEval.Proofs.Loop.Iteration
import EcmaEval.Proofs.Switch
import EcmaEval.Proofs.Equality
import EcmaEval.Proofs.Host.Frozen
import EcmaEval.Proofs.Numeral
import EcmaEval.Proofs.Literal
import EcmaEval.Proofs.Residue
import EcmaEval.Proofs.IndexWord
