import MethodLowering.Descriptor.Reader
import MethodLowering.Flow.Execution
import MethodLowering.Flow.Graph
import MethodLowering.Order.StableSort
import MethodLowering.Proofs.Check.Dangling
import MethodLowering.Proofs.Check.Injection
import MethodLowering.Proofs.Check.Normalization
import MethodLowering.Proofs.Check.Redirection
import MethodLowering.Proofs.Classes.History
import MethodLowering.Proofs.Compile.Initializers
import MethodLowering.Proofs.Compile.Outcome
import MethodLowering.Proofs.Compile.Signature
import MethodLowering.Proofs.Descriptor.Reading
import MethodLowering.Proofs.Flow.Edges
import MethodLowering.Proofs.Flow.ImmediateDominators
import MethodLowering.Proofs.Flow.Queries
import MethodLowering.Proofs.Flow.Traversal
import MethodLowering.Proofs.Linkage.Symbol
import MethodLowering.Proofs.Order.Precedence
import MethodLowering.Proofs.Wasm.Decoding
import MethodLowering.Workspace
