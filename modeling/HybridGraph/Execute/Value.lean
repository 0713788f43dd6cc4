import HybridGraph.Engine.Error
import HybridGraph.Graph.Basic
/-!
# Values and errors of an execution

A value is a tensor or a scalar payload.  `ExecError` says why an execution stopped, and
`Interpreter` is anything that can run one node, and a `Stepper` keeps a state while it does.
-/

namespace HybridGraph

/-- A value that flows through a graph. -/
inductive Datum where
  | tensor (value : Tensor)
  | scalar (value : Attr)

/-- The tensor, if it is one. -/
def Datum.tensor? : Datum → Option Tensor
  | .tensor t => some t
  | .scalar _ => none

/-- Why a node cannot run. -/
inductive NodeFault where
  | notTensor (operand : Nat) (found : Attr)
  | missingOperand (operand : Nat)
  | notNumber (name : String) (found : Attr)
  | missingInteger (name : String)
  | notIntList (name : String) (found : Option Attr)
  | scalarCode (code : Int)
  | notDType (name : String) (found : Attr)
  | scalarOperand (found : Attr)
  | missingRight
  | kernel (cause : KernelError)
  | approximation (name : String)
  | weightRank (dims : List Nat)
  | padList (amounts : List Int) (rank : Nat)
  | flattenRange (rank : Nat)
  | training
  | noAxes
  | notInt (name : String) (found : Attr)
  | notAxes (name : String) (found : Attr)
  | meanType (dtype : DType)
  | noReference
  | engineMissing
  | engineUnknown (engine : Nat)
  | engineOperands (expected given : Nat)
  | engineOperand (value : ValueId)

/-- The wording of a fault. -/
def NodeFault.message : NodeFault → String
  | .notTensor operand found => s!"operand {operand} is {found.text}, not a tensor"
  | .missingOperand operand => s!"missing operand {operand}"
  | .notNumber name found => s!"`{name}` is {found.text}, not a number"
  | .missingInteger name => s!"missing integer `{name}`"
  | .notIntList name found =>
    let held := (found.map Attr.text).getD "nothing"
    s!"`{name}` must be an int list, found {held}"
  | .scalarCode code => s!"unknown scalar type code {code}"
  | .notDType name found => s!"`{name}` is {found.text}, not a dtype"
  | .scalarOperand found => s!"scalar operand {found.text} is not a number"
  | .missingRight => "missing right-hand operand"
  | .kernel cause => cause.message
  | .approximation name => s!"unknown gelu approximation `{name}`"
  | .weightRank dims => s!"linear weight must be rank 2, got {Text.natList dims}"
  | .padList amounts rank => s!"pad list {Text.intList amounts} does not fit rank {rank}"
  | .flattenRange rank => s!"invalid flatten range for rank {rank}"
  | .training => "training-mode dropout has no deterministic reference"
  | .noAxes => "size of a rank-0 tensor has no axes"
  | .notInt name found => s!"`{name}` is {found.text}, not an int"
  | .notAxes name found => s!"`{name}` is {found.text}, not an axis list"
  | .meanType dtype => s!"mean of a {dtype.name} tensor needs a float dtype"
  | .noReference => "control flow and engine calls have no reference implementation"
  | .engineMissing => "engine call without an engine index"
  | .engineUnknown engine => s!"engine {engine} is not in the program"
  | .engineOperands expected given => s!"engine takes {expected} inputs, {given} given"
  | .engineOperand value => s!"{value.text} is not a tensor"

/-- Why an execution stopped. -/
inductive ExecError where
  | inputCount (expected found : Nat)
  | inputType (input : Nat) (expected found : DType)
  | inputShape (input : Nat) (dims : List Nat)
  | unbound (value : ValueId)
  | node (node : NodeId) (kind : OpKind) (fault : NodeFault)
  | outputCount (node : NodeId) (kind : OpKind) (expected found : Nat)
  | engine (engine : Nat) (cause : EngineError)
  | notTensor (found : Attr)

/-- The wording of an error. -/
def ExecError.message : ExecError → String
  | .inputCount expected found => s!"graph takes {expected} inputs, {found} given"
  | .inputType input expected found =>
    s!"input {input}: expected {expected.name}, found {found.name}"
  | .inputShape input dims =>
    s!"input {input}: shape {Text.natList dims} does not fit the declared type"
  | .unbound value => s!"value {value.text} is read before it is computed"
  | .node id kind fault => s!"node {id.text} ({kind.name}): {fault.message}"
  | .outputCount id kind expected found =>
    s!"node {id.text} ({kind.name}) returned {found} values for {expected} outputs"
  | .engine number cause => s!"engine {number}: {cause.message}"
  | .notTensor found => s!"expected a tensor, found {found.text}"

/-- A fault at a node. -/
def Node.fault (node : Node) (fault : NodeFault) : ExecError := .node node.id node.kind fault

/-- Anything that runs one node on the values of its operands. -/
abbrev Interpreter := Node → List Datum → Except ExecError (List Datum)

/-- An interpreter that keeps a state of its own between calls, and keeps it through failures. -/
abbrev Stepper (σ : Type) := Node → List Datum → ExceptT ExecError (StateM σ) (List Datum)

end HybridGraph
