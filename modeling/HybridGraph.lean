import HybridGraph.Compilation.Compile
import HybridGraph.Engine.Reference
import HybridGraph.Execute.Interpreter
import HybridGraph.Graph.Parser
import HybridGraph.Program.Stored
import HybridGraph.Settings.Stored
import HybridGraph.Proofs.Lowering.Emission
import HybridGraph.Proofs.Lowering.Simplification
import HybridGraph.Proofs.Partition.Cover
import HybridGraph.Proofs.Program.Assembling
import HybridGraph.Proofs.Lowering.Preservation
import HybridGraph.Proofs.Lowering.Decomposition
import HybridGraph.Proofs.Lowering.Pipeline
import HybridGraph.Proofs.Execute.Solution
import HybridGraph.Proofs.Execute.Attributes
import HybridGraph.Proofs.Lowering.Fallbacks
import HybridGraph.Proofs.Lowering.SameRun
import HybridGraph.Proofs.Lowering.Meaning
import HybridGraph.Proofs.Kernel.Stored
import HybridGraph.Proofs.Execute.Elementwise
import HybridGraph.Proofs.Lowering.GatedFunctions
import HybridGraph.Proofs.Compilation.Exclusions
import HybridGraph.Proofs.Lowering.FoldedRuns
import HybridGraph.Proofs.Lowering.LinearMaps
import HybridGraph.Proofs.Build.Supported
import HybridGraph.Proofs.Build.Sharing
import HybridGraph.Proofs.Engine.Contract
import HybridGraph.Proofs.Compilation.SingleEngine
import HybridGraph.Proofs.Graph.RoundTrip
import HybridGraph.Proofs.Program.Stored
import HybridGraph.Proofs.Compilation.Calls
import HybridGraph.Proofs.Execute.Calls
import HybridGraph.Proofs.Fidelity.Verdicts
import HybridGraph.Proofs.Graph.Edits
import HybridGraph.Proofs.Compilation.Outputs
import HybridGraph.Proofs.Compilation.Contracts
import HybridGraph.Proofs.Shapes.Ranges
import HybridGraph.Proofs.Compilation.Leases
import HybridGraph.Proofs.Conversion.Reductions
import HybridGraph.Proofs.Conversion.Movements
import HybridGraph.Proofs.Conversion.Integers
import HybridGraph.Proofs.Conversion.SingleLayers
import HybridGraph.Proofs.Conversion.MissingAxes
import HybridGraph.Proofs.Engine.Loaded
import HybridGraph.Proofs.Guarded.Interpreter
import HybridGraph.Proofs.Lowering.Liveness
import HybridGraph.Proofs.Build.Renaming
import HybridGraph.Proofs.Lowering.Progress
import HybridGraph.Proofs.Lowering.Labels
import HybridGraph.Proofs.Lowering.Idempotence
import HybridGraph.Proofs.Tensor.Contracts
import HybridGraph.Proofs.Kernel.Movements
import HybridGraph.Proofs.Kernel.Reshaping
import HybridGraph.Proofs.Engine.Concrete
