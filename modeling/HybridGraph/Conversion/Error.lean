import HybridGraph.Conversion.Support
import HybridGraph.Engine.Error
/-!
# Conversion errors

Why a node did not become layers, although it may have passed its support predicate.
-/

namespace HybridGraph

/-- Why a converter gives up. -/
inductive ConversionFault where
  | missingOperand (operand : Nat)
  | unknownTensor (tensor : TensorRef)
  | layerOutputs (count : Nat)
  | wideConstant (dtype : DType)
  | constantPayload
  | missingNumber (name : String)
  | missingIntList (name : String)
  | axisRange (axis : Int) (rank : Nat)
  | missingAxis (axis rank : Nat)
  | needsFloat (dtype : DType)
  | notBinary
  | notUnary
  | missingOther
  | operandTypes (lhs rhs : DType)
  | matmulRank (rank : Nat)
  | linearWeight
  | softmaxAxis
  | reductionAxes
  | permuteCount (found rank : Nat)
  | permuteRepeats (axis : Nat)
  | transposeAxes
  | flattenOrder (first last : Nat)
  | flattenOpen (axis : Nat)
  | padList (length rank : Nat)
  | slopeRank (rank : Nat)
  | custom (text : String)

/-- The wording of a fault. -/
def ConversionFault.message : ConversionFault → String
  | .missingOperand operand => s!"missing operand {operand}"
  | .unknownTensor tensor => s!"unknown network tensor {tensor.index}"
  | .layerOutputs count => s!"layer produced {count} outputs, expected 1"
  | .wideConstant dtype => s!"{dtype.name} constant needs truncate_long_and_double"
  | .constantPayload => "constant payload is not a tensor"
  | .missingNumber name => s!"missing numeric attribute `{name}`"
  | .missingIntList name => s!"missing int list attribute `{name}`"
  | .axisRange axis rank => s!"axis {axis} out of range for rank {rank}"
  | .missingAxis axis rank => s!"a rank-{rank} tensor has no axis {axis}"
  | .needsFloat dtype => s!"expected a floating tensor, found {dtype.name}"
  | .notBinary => "not an elementwise binary op"
  | .notUnary => "not a unary op"
  | .missingOther => "missing scalar `other`"
  | .operandTypes lhs rhs => s!"operand dtypes differ: {lhs.name} and {rhs.name}"
  | .matmulRank rank => s!"matmul operand of rank {rank}"
  | .linearWeight => "linear weight must be a matrix"
  | .softmaxAxis => "missing softmax `dim`"
  | .reductionAxes => "malformed reduction `dim`"
  | .permuteCount found rank => s!"permute lists {found} dims for rank {rank}"
  | .permuteRepeats axis => s!"permute repeats axis {axis}"
  | .transposeAxes => "missing transpose dims"
  | .flattenOrder first last => s!"flatten start_dim {first} is after end_dim {last}"
  | .flattenOpen axis => s!"flatten keeps dynamic axis {axis} after the flattened run"
  | .padList length rank => s!"pad list of length {length} for rank {rank}"
  | .slopeRank rank => s!"prelu weight must be rank 0 or 1, found rank {rank}"
  | .custom text => text

/-- What went wrong at a node.  `unsupported` means that a converter was asked for a node that its
own predicate refuses. -/
inductive ConversionCause where
  | unsupported (reason : Reason)
  | failed (fault : ConversionFault)
  | missingTensor (value : ValueId)
  | outputCount (expected found : Nat)
  | outputMismatch (value : ValueId) (declared : ValueType) (found : TensorSig)
  | engine (cause : EngineError)

/-- Why a node did not become layers. -/
structure ConversionError where
  node : NodeId
  kind : OpKind
  cause : ConversionCause

/-- The wording of an error. -/
def ConversionError.message (e : ConversionError) : String :=
  let place := s!"node {e.node.text} ({e.kind.name})"
  match e.cause with
  | .unsupported reason =>
    s!"internal error: converter for {e.kind.name} invoked on unsupported node {e.node.text}: " ++
      reason.message
  | .failed fault => s!"{place}: {fault.message}"
  | .missingTensor value => s!"{place} reads {value.text}, which has no network tensor"
  | .outputCount expected found =>
    s!"{place} produced {found} tensors for {expected} declared outputs"
  | .outputMismatch value declared found =>
    s!"{place} output {value.text} is tensor<{found.dtype.name}, rank {found.rank}> " ++
      s!"but declared {declared.text}"
  | .engine cause => s!"{place}: {cause.message}"

end HybridGraph
