import HybridGraph.Program.Basic
import HybridGraph.Random.Stream
import HybridGraph.Tensor.InputSpec
/-!
# Fidelity of programs

A program is compared with the graph it was compiled from: both run on sampled inputs, and on every
output the largest difference must stay within the threshold, relative to the larger of the two
magnitudes.  A comparison that is not wanted or cannot be made is skipped; none of this makes a
compilation fail.

Sampled inputs are at the typical shapes of their contracts.  All of them take their elements from
one random stream, one word for each element, in order.
-/

namespace HybridGraph

/-! ## Sampled inputs -/

/-- Where sampled numbers come from. -/
structure Sampler where
  seed : UInt64 := 0x5eed
  low : Float := -5.0
  high : Float := 5.0

namespace Sampler

/-- An element from one word; integers are rounded, and truth values are true above zero. -/
def element (s : Sampler) (dtype : DType) (word : UInt64) : Float :=
  let value := Random.uniform s.low s.high word
  if dtype = .bool then (if value > 0.0 then 1.0 else 0.0)
  else if dtype.isInteger then Number.roundHalfAway value
  else value

/-- A tensor from the front of a stream. -/
def tensor (s : Sampler) (spec : InputSpec) (stream : List UInt64) : Tensor :=
  let dims := spec.shape.opt
  let values := (stream.take (elementCount dims)).map (s.element spec.dtype)
  ⟨spec.dtype, dims, Tensor.store values.toArray spec.dtype⟩

/-- Tensors from a stream, one after the other. -/
def tensors (s : Sampler) : List InputSpec → List UInt64 → List Tensor
  | [], _ => []
  | spec :: specs, stream =>
    s.tensor spec stream :: tensors s specs (stream.drop (elementCount spec.shape.opt))

/-- Number of words that the inputs of contracts take. -/
def wordCount : List InputSpec → Nat
  | [] => 0
  | spec :: specs => elementCount spec.shape.opt + wordCount specs

/-- Inputs for contracts. -/
def inputs (s : Sampler) (specs : List InputSpec) : List Tensor :=
  s.tensors specs (Random.draws s.seed (wordCount specs))

end Sampler

/-! ## Verdicts -/

/-- Why outputs were not compared. -/
inductive SkipReason where
  | disabled | precisionChanged | executionFailed
deriving DecidableEq

/-- The difference found on one output, and how much is tolerated. -/
structure Deviation where
  output : Nat
  maxDifference : Float
  tolerance : Float

/-- Whether the difference is tolerated; one that is no number is not. -/
def Deviation.within (d : Deviation) : Bool := d.maxDifference ≤ d.tolerance

/-- What a comparison found. -/
inductive FidelityOutcome where
  | passed (outputs : List Deviation)
  | deviated (outputs : List Deviation) (threshold : Float)
  | skipped (reason : SkipReason)

namespace FidelityOutcome

/-- The note for the user, if there is one. -/
def advisory? : FidelityOutcome → Option String
  | .passed _ => none
  | .deviated _ threshold =>
    let limit := Number.FloatLayout.scientific.double threshold
    some s!"Maximum numerical deviation for output exceeds set threshold ({limit})"
  | .skipped .disabled => some "Threshold check skipped, numerical precision is not checked"
  | .skipped .precisionChanged =>
    some "Due to change in operating data type, numerical precision is not checked"
  | .skipped .executionFailed =>
    some ("Sample inputs could not be run through both programs, " ++
      "numerical precision is not checked")

/-- The wording of an outcome. -/
def message (o : FidelityOutcome) : String :=
  o.advisory?.getD "outputs match within threshold"

end FidelityOutcome

/-! ## Comparing outputs -/

/-- The distance of two elements; one that is no number counts as infinite. -/
def elementDistance (a b : Float) : Float :=
  let d := (a - b).abs
  if d.isNaN then Number.infinity else d

/-- The largest distance of elements at the same place. -/
def maxDistance (expected actual : List Float) : Float :=
  (List.zipWith elementDistance expected actual).foldl Number.larger 0.0

namespace Deviation

/-- An output that cannot match. -/
def incomparable (output : Nat) : Deviation := ⟨output, Number.infinity, 0.0⟩

/-- Compares two tensors element by element, whatever their extents. -/
def compare (threshold : Float) (output : Nat) (expected actual : Tensor) : Deviation :=
  if expected.doubles.size ≠ actual.doubles.size then incomparable output
  else {
    output
    maxDifference := maxDistance expected.doubles.toList actual.doubles.toList
    tolerance := threshold * Number.larger expected.maxMagnitude actual.maxMagnitude }

/-- Compares an output that the other side may not have. -/
def compareWith (threshold : Float) (actual : List Tensor) (entry : Tensor × Nat) :
    Deviation :=
  match actual[entry.2]? with
  | some t => compare threshold entry.2 entry.1 t
  | none => incomparable entry.2

end Deviation

/-- Compares the outputs of two runs. -/
def compareRuns (threshold : Float) (expected actual : List Tensor) : FidelityOutcome :=
  let outputs := expected.zipIdx.map (Deviation.compareWith threshold actual)
  if outputs.all Deviation.within && actual.length == expected.length then .passed outputs
  else .deviated outputs threshold

/-! ## Checking programs -/

/-- How programs are compared. -/
structure FidelityCheck where
  threshold : Float
  sampler : Sampler := {}

/-- The comparison that the options ask for. -/
def FidelityCheck.ofConfig (c : CompileConfig) : FidelityCheck := { threshold := c.threshold }

/-- Why the options rule a comparison out. -/
def CompileConfig.skipReason? (c : CompileConfig) : Option SkipReason :=
  if c.skipFidelity then some .disabled
  else if !c.keepsPrecision then some .precisionChanged
  else none

/-- Compares a program with the graph it stands for. -/
def FidelityCheck.run {A : Accelerator} (check : FidelityCheck) (c : CompileConfig)
    (reference : Graph) (p : HybridProgram A) (interpret : Interpreter) : FidelityOutcome :=
  match c.skipReason? with
  | some reason => .skipped reason
  | none =>
    let inputs := check.sampler.inputs c.inputSpecs
    match reference.run interpret inputs, p.run interpret inputs with
    | .ok expected, .ok actual => compareRuns check.threshold expected actual
    | _, _ => .skipped .executionFailed

end HybridGraph
