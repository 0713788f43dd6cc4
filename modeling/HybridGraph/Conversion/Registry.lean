import HybridGraph.Conversion.Converters
/-!
# Converter registries

A registry gives a converter to some kinds.  `Registry.support` asks the predicate of a node's kind
and `Registry.convert` adds the layers of a node; it refuses nodes that the predicate refuses.
-/

namespace HybridGraph

/-- A support predicate and the converter it guards. -/
structure Converter (A : Accelerator) where
  support : Graph → Node → Support
  convert : Emit A (List TensorRef)

/-- The converters of kinds. -/
abbrev Registry (A : Accelerator) := OpKind → Option (Converter A)

namespace Registry

variable {A : Accelerator}

/-- No converters. -/
def empty (A : Accelerator) : Registry A := fun _ => none

/-- Gives a converter to a kind, instead of an earlier one. -/
def register (r : Registry A) (kind : OpKind) (converter : Converter A) : Registry A :=
  fun k => if k = kind then some converter else r k

/-- Takes the converter of a kind away. -/
def remove (r : Registry A) (kind : OpKind) : Registry A :=
  fun k => if k = kind then none else r k

/-- Whether a kind has a converter. -/
def contains (r : Registry A) (kind : OpKind) : Bool := (r kind).isSome

/-- The kinds with a converter, in their order. -/
def kinds (r : Registry A) : List OpKind := OpKind.all.filter r.contains

/-- Whether a node can become layers. -/
def support (r : Registry A) (g : Graph) (node : Node) : Support :=
  if node.kind.isFallbackOnly then .error (.interpreterOnly node.kind)
  else match r node.kind with
    | some converter => converter.support g node
    | none => .error (.noConverter node.kind)

/-- Adds the layers of a node and binds its results. -/
def emit (r : Registry A) : Emit A Unit := do
  let site ← read
  match r.support site.graph site.node, r site.node.kind with
  | .error reason, _ => Emit.stop (.unsupported reason)
  | .ok _, none => Emit.stop (.unsupported (.noConverter site.node.kind))
  | .ok _, some converter => Emit.bindOutputs (← converter.convert)

/-- Adds the layers of a node to a network; the state is kept also when the node fails. -/
def convert (r : Registry A) (g : Graph) (truncateWide : Bool) (s : EmitState A) (node : Node) :
    Except ConversionError Unit × EmitState A :=
  r.emit ⟨g, node, truncateWide⟩ s

/-! ## The standard registry -/

/-- A converter with one result. -/
def single (support : Graph → Node → Support) (convert : Emit A TensorRef) : Converter A :=
  ⟨support, return [← convert]⟩

/-- The converter of every kind that has one. -/
def standard (A : Accelerator) : Registry A
  | .relu => some (single Support.floatUnary (Converter.activation .relu))
  | .sigmoid => some (single Support.floatUnary (Converter.activation .sigmoid))
  | .tanh => some (single Support.floatUnary (Converter.activation .tanh))
  | .hardtanh => some (single Support.hardtanh Converter.hardtanh)
  | .leakyRelu => some (single Support.leakyRelu Converter.leakyRelu)
  | .elu => some (single Support.elu Converter.elu)
  | .gelu => some (single Support.gelu Converter.gelu)
  | .silu => some (single Support.floatUnary Converter.silu)
  | .prelu => some (single Support.floatBinary Converter.prelu)
  | .add | .sub | .mul | .div | .pow | .maximum | .minimum =>
    some (single Support.binary Converter.binary)
  | .neg | .abs => some (single Support.unary Converter.unary)
  | .exp | .log | .sqrt | .erf => some (single Support.floatUnary Converter.unary)
  | .clamp => some (single Support.clamp Converter.clamp)
  | .matmul => some (single Support.matmul Converter.matmul)
  | .linear => some (single Support.linear Converter.linear)
  | .softmax => some (single Support.softmax Converter.softmax)
  | .sum | .mean => some (single Support.reduce Converter.reduce)
  | .reshape => some (single Support.reshape Converter.reshape)
  | .permute => some (single Support.permute Converter.permute)
  | .transpose => some (single Support.transpose Converter.transpose)
  | .flatten => some (single Support.flatten Converter.flatten)
  | .constantPad => some (single Support.pad Converter.pad)
  | .to => some (single Support.cast Converter.cast)
  | .dropout => some (single Support.dropout Converter.copy)
  | .contiguous => some (single Support.unary Converter.copy)
  | .constant => some (single Support.constant Converter.constant)
  | .cumsum | .size | .branch | .loop | .print | .engineCall => none

end Registry

end HybridGraph
