import HybridGraph.Text.Chars
/-!
# Operation kinds

The closed set of node kinds, with what every kind has in common: its name, how many of its leading
operands are tensors, and the names of the attribute operands that may follow them.
-/

namespace HybridGraph

/-- A node kind. -/
inductive OpKind where
  | constant | relu | sigmoid | tanh | hardtanh | leakyRelu | elu | gelu
  | silu | prelu | add | sub | mul | div | pow | maximum
  | minimum | neg | abs | exp | log | sqrt | erf | clamp
  | matmul | linear | constantPad | reshape | permute | transpose | flatten | softmax
  | sum | mean | to | dropout | contiguous | cumsum | size | branch
  | loop | print | engineCall
deriving DecidableEq

namespace OpKind

/-- Every kind, in the order in which kinds are sorted. -/
def all : List OpKind :=
  [
    .constant, .relu, .sigmoid, .tanh, .hardtanh, .leakyRelu, .elu, .gelu,
    .silu, .prelu, .add, .sub, .mul, .div, .pow, .maximum,
    .minimum, .neg, .abs, .exp, .log, .sqrt, .erf, .clamp,
    .matmul, .linear, .constantPad, .reshape, .permute, .transpose, .flatten, .softmax,
    .sum, .mean, .to, .dropout, .contiguous, .cumsum, .size, .branch,
    .loop, .print, .engineCall ]

/-- The name of a kind in graph texts and messages. -/
def name : OpKind → String
  | .constant => "prim::Constant"
  | .relu => "aten::relu"
  | .sigmoid => "aten::sigmoid"
  | .tanh => "aten::tanh"
  | .hardtanh => "aten::hardtanh"
  | .leakyRelu => "aten::leaky_relu"
  | .elu => "aten::elu"
  | .gelu => "aten::gelu"
  | .silu => "aten::silu"
  | .prelu => "aten::prelu"
  | .add => "aten::add"
  | .sub => "aten::sub"
  | .mul => "aten::mul"
  | .div => "aten::div"
  | .pow => "aten::pow"
  | .maximum => "aten::maximum"
  | .minimum => "aten::minimum"
  | .neg => "aten::neg"
  | .abs => "aten::abs"
  | .exp => "aten::exp"
  | .log => "aten::log"
  | .sqrt => "aten::sqrt"
  | .erf => "aten::erf"
  | .clamp => "aten::clamp"
  | .matmul => "aten::matmul"
  | .linear => "aten::linear"
  | .constantPad => "aten::constant_pad_nd"
  | .reshape => "aten::reshape"
  | .permute => "aten::permute"
  | .transpose => "aten::transpose"
  | .flatten => "aten::flatten"
  | .softmax => "aten::softmax"
  | .sum => "aten::sum"
  | .mean => "aten::mean"
  | .to => "aten::to"
  | .dropout => "aten::dropout"
  | .contiguous => "aten::contiguous"
  | .cumsum => "aten::cumsum"
  | .size => "aten::size"
  | .branch => "prim::If"
  | .loop => "prim::Loop"
  | .print => "prim::Print"
  | .engineCall => "splice::EngineCall"

/-- The tag of a kind in stored records. -/
def tag : OpKind → String
  | .constant => "Constant"
  | .relu => "Relu"
  | .sigmoid => "Sigmoid"
  | .tanh => "Tanh"
  | .hardtanh => "Hardtanh"
  | .leakyRelu => "LeakyRelu"
  | .elu => "Elu"
  | .gelu => "Gelu"
  | .silu => "Silu"
  | .prelu => "Prelu"
  | .add => "Add"
  | .sub => "Sub"
  | .mul => "Mul"
  | .div => "Div"
  | .pow => "Pow"
  | .maximum => "Maximum"
  | .minimum => "Minimum"
  | .neg => "Neg"
  | .abs => "Abs"
  | .exp => "Exp"
  | .log => "Log"
  | .sqrt => "Sqrt"
  | .erf => "Erf"
  | .clamp => "Clamp"
  | .matmul => "Matmul"
  | .linear => "Linear"
  | .constantPad => "ConstantPadNd"
  | .reshape => "Reshape"
  | .permute => "Permute"
  | .transpose => "Transpose"
  | .flatten => "Flatten"
  | .softmax => "Softmax"
  | .sum => "Sum"
  | .mean => "Mean"
  | .to => "To"
  | .dropout => "Dropout"
  | .contiguous => "Contiguous"
  | .cumsum => "Cumsum"
  | .size => "Size"
  | .branch => "If"
  | .loop => "Loop"
  | .print => "Print"
  | .engineCall => "EngineCall"

/-- The place of a kind in the order; it is the number of the tag in byte records. -/
def index (kind : OpKind) : Nat := all.idxOf kind

/-- The kind of a name. -/
def ofName? (name : String) : Option OpKind := all.find? (·.name == name)

/-- A name that no kind has. -/
structure Unknown where
  name : String

/-- The wording for a name that no kind has. -/
def Unknown.message (e : Unknown) : String := s!"unknown op kind `{e.name}`"

/-- Reads a name with blanks around it. -/
def parse (text : String) : Except Unknown OpKind :=
  let name := String.ofList (Text.trim text.toList)
  match ofName? name with
  | some kind => .ok kind
  | none => .error ⟨name⟩

/-- The kind of a tag. -/
def ofTag? (tag : String) : Option OpKind := all.find? (·.tag == tag)

/-- Kinds in their order, each once. -/
def sorted (kinds : List OpKind) : List OpKind := all.filter kinds.contains

/-- Kinds that only the interpreter may run. -/
def isFallbackOnly : OpKind → Bool
  | .branch | .loop | .print | .engineCall => true
  | _ => false

/-- Kinds that stay although nothing uses their results. -/
def hasSideEffects : OpKind → Bool
  | .print | .branch | .loop => true
  | _ => false

/-- Number of leading operands that are tensors; the operands after them are attributes.  `none`
means that all operands are tensors. -/
def tensorOperands? : OpKind → Option Nat
  | .hardtanh | .leakyRelu | .elu | .gelu | .softmax | .reshape | .permute | .transpose
  | .flatten | .constantPad | .sum | .mean | .to | .dropout | .clamp | .cumsum | .size
  | .contiguous => some 1
  | .add | .sub => some 2
  | _ => none

/-- Names of the attribute operands, in call order. -/
def attributeNames : OpKind → List String
  | .hardtanh => ["min_val", "max_val"]
  | .leakyRelu => ["negative_slope"]
  | .elu => ["alpha", "scale", "input_scale"]
  | .gelu => ["approximate"]
  | .softmax => ["dim", "dtype"]
  | .reshape => ["shape"]
  | .permute => ["dims"]
  | .transpose => ["dim0", "dim1"]
  | .flatten => ["start_dim", "end_dim"]
  | .constantPad => ["pad", "value"]
  | .sum | .mean => ["dim", "keepdim", "dtype"]
  | .to => ["dtype", "non_blocking", "copy"]
  | .dropout => ["p", "train"]
  | .clamp => ["min", "max"]
  | .cumsum => ["dim", "dtype"]
  | .size => ["dim"]
  | .contiguous => ["memory_format"]
  | .add | .sub => ["alpha"]
  | _ => []

/-- Binary kinds whose second operand may be a scalar attribute `other`. -/
def takesScalar : OpKind → Bool
  | .add | .sub | .mul | .div | .pow | .maximum | .minimum => true
  | _ => false

/-- A range of operand counts. -/
structure Arity where
  low : Nat
  high : Nat

/-- Whether a count lies in the range. -/
def Arity.admits (a : Arity) (count : Nat) : Bool := a.low ≤ count && count ≤ a.high

/-- The spelling of a range in messages. -/
def Arity.text (a : Arity) : String :=
  if a.low = a.high then toString a.low else s!"{a.low}..={a.high}"

/-- How many operands a node of the kind may have; `none` means any number. -/
def inputArity? : OpKind → Option Arity
  | .constant => some ⟨0, 0⟩
  | .relu | .sigmoid | .tanh | .silu | .neg | .abs | .exp | .log | .sqrt | .erf => some ⟨1, 1⟩
  | .prelu | .matmul => some ⟨2, 2⟩
  | .linear => some ⟨2, 3⟩
  | .mul | .div | .pow | .maximum | .minimum => some ⟨1, 2⟩
  | .add | .sub => some ⟨1, 3⟩
  | .branch | .loop | .print | .engineCall => none
  | kind => kind.tensorOperands?.map fun n => ⟨n, n + kind.attributeNames.length⟩

/-- How many results a node of the kind may have; `none` means any number. -/
def outputArity? : OpKind → Option Arity
  | .print => some ⟨0, 0⟩
  | .branch | .loop | .engineCall => none
  | _ => some ⟨1, 1⟩

end OpKind

end HybridGraph
