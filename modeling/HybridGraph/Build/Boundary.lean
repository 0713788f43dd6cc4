import HybridGraph.Conversion.Error
import HybridGraph.Settings.Config
import HybridGraph.Shapes.Table
/-!
# Segment boundaries

What is known about the values that enter a segment: the element type that the surrounding graph
expects, the one that the engine reads, and the shapes.  An engine never reads 64-bit elements.
-/

namespace HybridGraph

/-! ## Errors -/

/-- What keeps a segment from becoming an engine. -/
inductive BuildFault where
  | unknownType (value : ValueId)
  | wideInput (value : ValueId) (dtype : DType)
  | unknownShape (value : ValueId)
  | foreignMember
  | unknownMember (node : NodeId)
  | unbound (value : ValueId)
  | neverConverted (value : ValueId)
  | outputCount (found expected : Nat)
  | conversion (cause : ConversionError)
  | engine (cause : EngineError)

/-- The wording of a fault. -/
def BuildFault.message : BuildFault → String
  | .unknownType value => s!"input {value.text} has no known dtype"
  | .wideInput value dtype =>
    s!"input {value.text} is {dtype.name}; enable truncate_long_and_double to feed it as " ++
      dtype.truncated.name
  | .unknownShape value => s!"input {value.text} has no known shape"
  | .foreignMember => "node is not in the graph"
  | .unknownMember node => s!"node {node.text} is not in the graph"
  | .unbound value => s!"{value.text} is not bound"
  | .neverConverted value => s!"output {value.text} was never converted"
  | .outputCount found expected => s!"engine has {found} outputs for {expected} segment outputs"
  | .conversion cause => cause.message
  | .engine cause => cause.message

/-- Why a segment did not become an engine, and the node to blame, if one can be named. -/
structure BuildError where
  segment : Nat
  node : Option NodeId
  fault : BuildFault

/-- The wording of an error. -/
def BuildError.message (e : BuildError) : String :=
  let place := (e.node.map fun node => s!" (node {node.text})").getD ""
  s!"segment {e.segment}{place}: {e.fault.message}"

/-! ## Inputs -/

/-- A value that enters a segment. -/
structure BoundaryInput where
  value : ValueId
  declared : DType
  engine : DType
  shape : ShapeSpec
deriving DecidableEq

namespace Graph

/-- The element type of a value: the declared one, or else the measured one. -/
def knownType? (g : Graph) (shapes : ShapeTable) (v : ValueId) : Option DType :=
  (g.dtype? v).or ((shapes.get? v).map ValueShape.dtype)

/-- The shapes of a value: the measured ones, or else the declared extents. -/
def knownShape? (g : Graph) (shapes : ShapeTable) (v : ValueId) : Option ShapeSpec :=
  match shapes.get? v with
  | some measured => some measured.shape
  | none => ((g.tensorType? v).bind TensorType.fixedExtents?).map .fixed

/-- The element type that an engine reads for a graph type. -/
def engineType (truncateWide : Bool) (v : ValueId) (dtype : DType) : Except BuildFault DType :=
  if !dtype.isWide then .ok dtype
  else if truncateWide then .ok dtype.truncated
  else .error (.wideInput v dtype)

/-- What is known about a value that enters a segment. -/
def boundaryInput (g : Graph) (shapes : ShapeTable) (truncateWide : Bool) (v : ValueId) :
    Except BuildFault BoundaryInput := do
  let some declared := g.knownType? shapes v | throw (.unknownType v)
  let engine ← engineType truncateWide v declared
  let some shape := g.knownShape? shapes v | throw (.unknownShape v)
  return ⟨v, declared, engine, shape⟩

end Graph

end HybridGraph
