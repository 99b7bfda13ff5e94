import LogicScript.Files.Snapshot
import LogicScript.Main
import LogicScript.Proofs.Completeness
import LogicScript.Proofs.DeadCode
import LogicScript.Proofs.DepthLimit
import LogicScript.Proofs.Accounting
import LogicScript.Proofs.Atoms
import LogicScript.Proofs.Entries
import LogicScript.Proofs.FactOrder
import LogicScript.Proofs.Frames
import LogicScript.Proofs.Functors
import LogicScript.Proofs.Locality
import LogicScript.Proofs.Meaning
import LogicScript.Proofs.Monotone
import LogicScript.Proofs.Parentheses
import LogicScript.Proofs.Purity
import LogicScript.Proofs.Resolution
import LogicScript.Proofs.RoundTrip
import LogicScript.Proofs.Shapes
import LogicScript.Proofs.Stores
import LogicScript.Proofs.Termination
import LogicScript.Proofs.Voids
import LogicScript.Proofs.Widening
import LogicScript.Tree.Nodes
import LogicScript.Proofs.IntegerFields
import LogicScript.Proofs.Literals
import LogicScript.Proofs.Unification
import LogicScript.Proofs.Symmetry
import LogicScript.Proofs.FieldTypes
import LogicScript.Proofs.TypeOrder
import LogicScript.Proofs.ManifestSearch
import LogicScript.Proofs.ResultKinds
import LogicScript.Proofs.Coverage
import LogicScript.Proofs.WrappedArguments
import LogicScript.Proofs.Arithmetic
import LogicScript.Proofs.Integrity
