import HybridGraph.Proofs.Execute.Attributes
import HybridGraph.Proofs.Guarded.Movements
import HybridGraph.Proofs.Guarded.Products
import HybridGraph.Proofs.Guarded.Reductions
/-!
# The guarded interpreter

The reference interpreter with every index, slice, divisor and difference of its kernels checked,
and with the branch that a conversion rules out.  On well-formed values it is never trapped: it ends
as the reference interpreter does, no kernel reads past the end of an operand, and every tensor that
comes out is well-formed, so whatever runs next may rely on the same.

    (∀ d ∈ args, d.WellFormed) →
      Guarded.interpret node args = plain (Reference.interpret node args) ∧
        ∀ results, Reference.interpret node args = .ok results → ∀ d ∈ results, d.WellFormed

Nothing is asked of the number of operands or of the kind of the node.  Where operands are missing,
the interpreter answers with a fault.
-/

namespace HybridGraph

/-- A tensor whose storage, element count and element ranges fit, or any scalar. -/
def Datum.WellFormed : Datum → Prop
  | .tensor t => t.WellFormed
  | .scalar _ => True

/-- Not a read past the end of an operand. -/
def ExecError.Proper : ExecError → Prop
  | .node _ _ (.kernel cause) => cause.Proper
  | _ => True

namespace Guarded

open Outcome (FailsWith)

/-- Converts the elements.  The converted elements are as many as before, so they make a tensor. -/
def cast {ε : Type} (t : Tensor) (dtype : DType) : Guarded ε Tensor :=
  if dtype = t.dtype then return t
  else match Tensor.ofDoubles dtype t.dims t.doubles with
    | .ok made => return made
    | .error _ => trap .unreachable

theorem cast_eq {ε : Type} {t : Tensor} (ht : t.WellFormed) (dtype : DType) :
    (cast t dtype : Guarded ε Tensor) = pure (t.cast dtype) := by
  unfold cast Tensor.cast
  split
  · rfl
  · rw [Tensor.ofDoubles_eq_ok.mpr ⟨ht.size_doubles, rfl⟩]

namespace Call

/-! ## Families of operations -/

/-- Blames the node for a kernel error. -/
def kernel {α : Type} (call : Reference.Call) (g : Guarded KernelError α) : Guarded ExecError α :=
  g.mapError fun cause => call.node.fault (.kernel cause)

/-- A function of every element of the first operand. -/
def mapAs (call : Reference.Call) (dtype : DType → DType) (f : Float → Float) :
    Guarded ExecError Tensor := do
  let x ← plain (call.tensor 0)
  kernel call (plain (Kernel.map x (dtype x.dtype) f))

/-- A function whose result is floating. -/
def pointwise (call : Reference.Call) (f : Float → Float) : Guarded ExecError Tensor :=
  mapAs call Kernel.floatResult f

/-- A function of two operands.  A number that is not whole makes an integer result floating. -/
def binary (call : Reference.Call) (f : Float → Float → Float) : Guarded ExecError Tensor := do
  let lhs ← plain (call.tensor 0)
  match ← plain call.right with
  | .inl rhs => kernel call (Guarded.binary lhs rhs (Kernel.promote lhs.dtype rhs.dtype) f)
  | .inr x =>
    let dtype := if Number.hasFraction x && !lhs.dtype.isFloat then .f32 else lhs.dtype
    kernel call (plain (Kernel.map lhs dtype (f · x)))

/-- Division, whose result is floating. -/
def divide (call : Reference.Call) : Guarded ExecError Tensor := do
  let lhs ← plain (call.tensor 0)
  match ← plain call.right with
  | .inl rhs =>
    kernel call
      (Guarded.binary lhs rhs (Kernel.floatResult (Kernel.promote lhs.dtype rhs.dtype)) (· / ·))
  | .inr x => kernel call (plain (Kernel.map lhs (Kernel.floatResult lhs.dtype) (· / x)))

/-- Clamping; a missing bound does not bind. -/
def clamp (call : Reference.Call) : Guarded ExecError Tensor := do
  let low ← plain (call.float? "min")
  let high ← plain (call.float? "max")
  mapAs call id fun x =>
    let x := low.elim x (Number.larger x)
    high.elim x (Number.smaller x)

/-- `x · wᵀ + b`. -/
def linear (call : Reference.Call) : Guarded ExecError Tensor := do
  let x ← plain (call.tensor 0)
  let weight ← plain (call.tensor 1)
  if weight.rank ≠ 2 then plain (call.fail (.weightRank weight.dims))
  else
    let product ← kernel call (permute weight [1, 0] >>= matmul x)
    match call.arg? 2 with
    | some (.tensor bias) => kernel call (Guarded.binary product bias product.dtype (· + ·))
    | _ => return product

/-- Constant padding. -/
def constantPad (call : Reference.Call) : Guarded ExecError Tensor := do
  let x ← plain (call.tensor 0)
  let amounts ← plain (call.ints "pad")
  let value ← plain (call.float "value" 0.0)
  if amounts.length % 2 ≠ 0 ∨ x.rank < amounts.length / 2 then
    plain (call.fail (.padList amounts x.rank))
  else
    let (pre, post) ← padSides x.rank 0 amounts (List.replicate x.rank 0, List.replicate x.rank 0)
    kernel call (pad x pre post value)

/-- Exchange of two axes. -/
def transpose (call : Reference.Call) : Guarded ExecError Tensor := do
  let x ← plain (call.tensor 0)
  let n ← plain (call.int "dim0")
  let a ← plain (call.axis n x.rank)
  let m ← plain (call.int "dim1")
  let b ← plain (call.axis m x.rank)
  let perm ← exchange x.rank a b
  kernel call (permute x perm)

/-- Merges a range of axes. -/
def flatten (call : Reference.Call) : Guarded ExecError Tensor := do
  let x ← plain (call.tensor 0)
  if x.rank = 0 then kernel call (plain (Kernel.reshape x [1]))
  else
    let bound (name : String) (default : Int) : Except KernelError ℕ :=
      Kernel.axisIndex (((call.attr? name).bind Attr.int?).getD default) x.rank
    match bound "start_dim" 0, bound "end_dim" (-1) with
    | .ok first, .ok last =>
      if first ≤ last then
        let dims ← flattenedExtents x.dims first last
        kernel call (plain (Kernel.reshape x dims))
      else plain (call.fail (.flattenRange x.rank))
    | _, _ => plain (call.fail (.flattenRange x.rank))

/-- A sum or mean over axes.  Integers are summed as 64-bit integers and have no mean. -/
def reduce (call : Reference.Call) (mean : Bool) : Guarded ExecError Tensor := do
  let x ← plain (call.tensor 0)
  let named ← plain (call.reductionAxes x.rank)
  let axes := (List.range (max x.rank 1)).filter named.contains
  if mean && !x.dtype.isFloat then plain (call.fail (.meanType x.dtype))
  else
    let requested ← plain (call.dtype? "dtype")
    let dtype := requested.getD (if x.dtype.isFloat then x.dtype else .i64)
    let source ← cast x dtype
    kernel call (Guarded.reduce source axes (call.flag "keepdim") mean dtype)

/-- Softmax along an axis. -/
def softmax (call : Reference.Call) : Guarded ExecError Tensor := do
  let x ← plain (call.tensor 0)
  let requested ← plain (call.dtype? "dtype")
  let n ← plain (call.int "dim")
  let axis ← plain (call.axis n x.rank)
  kernel call (Guarded.softmax x axis (requested.getD (Kernel.floatResult x.dtype)))

/-- Running sums along an axis; integers are summed as 64-bit integers. -/
def cumsum (call : Reference.Call) : Guarded ExecError Tensor := do
  let x ← plain (call.tensor 0)
  let requested ← plain (call.dtype? "dtype")
  let n ← plain (call.int "dim")
  let axis ← plain (call.axis n x.rank)
  kernel call
    (Guarded.cumsum x axis (requested.getD (if x.dtype.isFloat then x.dtype else .i64)))

/-- The extents of a tensor, or one of them. -/
def size (call : Reference.Call) : Guarded ExecError Attr := do
  let x ← plain (call.tensor 0)
  match call.attr? "dim" with
  | none | some .none => return .ints (x.dims.map fun (n : ℕ) => (n : ℤ))
  | some a =>
    if x.rank = 0 then plain (call.fail .noAxes)
    else match a.int? with
      | none => plain (call.fail (.notInt "dim" a))
      | some n =>
        let axis ← plain (call.axis n x.rank)
        return .int (← entry x.dims axis)

/-- The approximation of a `gelu` node. -/
def gelu (call : Reference.Call) : Guarded ExecError Tensor :=
  match (call.attr? "approximate").bind Attr.str? with
  | none => pointwise call Kernel.geluErf
  | some name =>
    if name == "none" then pointwise call Kernel.geluErf
    else if name == "tanh" then pointwise call Kernel.geluTanh
    else plain (call.fail (.approximation name))

/-! ## Nodes -/

/-- Runs a node that has one tensor as its result. -/
def tensorResult (call : Reference.Call) : Guarded ExecError Tensor := do
  match call.node.kind with
  | .relu => mapAs call id Kernel.relu
  | .sigmoid => pointwise call Kernel.sigmoid
  | .tanh => pointwise call Float.tanh
  | .hardtanh =>
    let low ← plain (call.float "min_val" (-1.0))
    let high ← plain (call.float "max_val" 1.0)
    pointwise call (Kernel.clip low high)
  | .leakyRelu =>
    let slope ← plain (call.float "negative_slope" 0.01)
    pointwise call (Kernel.leakyRelu · slope)
  | .elu =>
    let alpha ← plain (call.float "alpha" 1.0)
    let scale ← plain (call.float "scale" 1.0)
    let inputScale ← plain (call.float "input_scale" 1.0)
    pointwise call (Kernel.elu · alpha scale inputScale)
  | .gelu => gelu call
  | .silu => pointwise call fun x => x * Kernel.sigmoid x
  | .prelu =>
    let x ← plain (call.tensor 0)
    let slope ← plain (call.tensor 1)
    kernel call (prelu x slope)
  | .add =>
    let alpha ← plain (call.float "alpha" 1.0)
    binary call fun a b => a + 1.0 * alpha * b
  | .sub =>
    let alpha ← plain (call.float "alpha" 1.0)
    binary call fun a b => a + (-1.0) * alpha * b
  | .mul => binary call (· * ·)
  | .div => divide call
  | .pow => binary call Float.pow
  | .maximum => binary call Number.larger
  | .minimum => binary call Number.smaller
  | .neg => mapAs call id (-·)
  | .abs => mapAs call id Float.abs
  | .exp => pointwise call Float.exp
  | .log => pointwise call Float.log
  | .sqrt => pointwise call Float.sqrt
  | .erf => pointwise call Kernel.erf
  | .clamp => clamp call
  | .matmul =>
    let x ← plain (call.tensor 0)
    let y ← plain (call.tensor 1)
    kernel call (matmul x y)
  | .linear => linear call
  | .constantPad => constantPad call
  | .reshape =>
    let x ← plain (call.tensor 0)
    let target ← plain (call.ints "shape")
    kernel call (resolveShape x.dims target false >>= fun dims => plain (Kernel.reshape x dims))
  | .permute =>
    let x ← plain (call.tensor 0)
    let ns ← plain (call.ints "dims")
    let axes ← plain (ns.mapM (call.axis · x.rank))
    kernel call (permute x axes)
  | .transpose => transpose call
  | .flatten => flatten call
  | .softmax => softmax call
  | .sum => reduce call false
  | .mean => reduce call true
  | .to =>
    let x ← plain (call.tensor 0)
    let requested ← plain (call.dtype? "dtype")
    cast x (requested.getD x.dtype)
  | .dropout => if call.flag "train" then plain (call.fail .training) else plain (call.tensor 0)
  | .contiguous => plain (call.tensor 0)
  | .cumsum => cumsum call
  | .constant | .size | .print | .branch | .loop | .engineCall => plain (call.fail .noReference)

/-- Runs a node. -/
def results (call : Reference.Call) : Guarded ExecError (List Datum) := do
  match call.node.kind with
  | .constant => return [Reference.Call.constantValue call.node]
  | .size =>
    let extents ← size call
    return [.scalar extents]
  | .print => return []
  | _ =>
    let t ← tensorResult call
    return [.tensor t]

end Call

/-- The reference interpreter with its checks. -/
def interpret (node : Node) (args : List Datum) : Guarded ExecError (List Datum) :=
  Call.results ⟨node, args⟩

namespace Call

/-! ## Readers -/

variable {α : Type} {call : Reference.Call}

/-- A computation that reads attributes and operands only. -/
theorem reads {r : Except ExecError α} (h : FailsWith ExecError.Proper r) :
    Ends ExecError.Proper (fun _ => True) (plain r) r := .plain h fun _ _ => trivial

theorem kernel_ends {q : α → Prop} {g : Guarded KernelError α} {r : Except KernelError α}
    (h : Ends KernelError.Proper q g r) :
    Ends ExecError.Proper q (kernel call g) (call.kernel r) := h.mapError fun _ hproper => hproper

theorem fails {q : α → Prop} {fault : NodeFault} (h : (call.node.fault fault).Proper) :
    Ends ExecError.Proper q (plain (call.fail fault)) (call.fail fault) := .error h

theorem float?_proper (name : String) : FailsWith ExecError.Proper (call.float? name) := by
  unfold Reference.Call.float?
  split
  · exact .ok _
  · exact .ok _
  · split
    · exact .ok _
    · exact .error trivial

theorem float_proper (name : String) (default : Float) :
    FailsWith ExecError.Proper (call.float name default) :=
  (float?_proper name).bind fun _ => .ok _

theorem int_proper (name : String) : FailsWith ExecError.Proper (call.int name) := by
  unfold Reference.Call.int
  split
  · exact .ok _
  · exact .error trivial

theorem ints_proper (name : String) : FailsWith ExecError.Proper (call.ints name) := by
  unfold Reference.Call.ints
  split
  · exact .ok _
  · exact .ok _
  · exact .error trivial

theorem dtype?_proper (name : String) : FailsWith ExecError.Proper (call.dtype? name) := by
  unfold Reference.Call.dtype?
  split
  · exact .ok _
  · exact .ok _
  · exact .ok _
  · split
    · exact .ok _
    · exact .error trivial
  · exact .error trivial

theorem axis_proper (n : ℤ) (rank : ℕ) : FailsWith ExecError.Proper (call.axis n rank) := by
  refine FailsWith.mapError (p := KernelError.Proper) ?_ fun _ hproper => hproper
  unfold Kernel.axisIndex
  generalize (if n < 0 then n + rank else n) = resolved
  dsimp only
  split
  · exact .error trivial
  · exact .ok _

theorem reductionAxes_proper (rank : ℕ) :
    FailsWith ExecError.Proper (call.reductionAxes rank) := by
  unfold Reference.Call.reductionAxes
  split
  · exact .ok _
  · exact .ok _
  · exact .ok _
  · exact (axis_proper _ _).bind fun _ => .ok _
  · exact .mapM (fun n => axis_proper n rank) _
  · exact .error trivial

theorem map_ends (x : Tensor) (dtype : DType) (f : Float → Float) :
    Ends KernelError.Proper Tensor.WellFormed (plain (Kernel.map x dtype f))
      (Kernel.map x dtype f) := build_ends _ _ _

section

variable (hargs : ∀ d ∈ call.args, d.WellFormed)

include hargs

theorem tensor_ends (operand : ℕ) :
    Ends ExecError.Proper Tensor.WellFormed (plain (call.tensor operand))
      (call.tensor operand) := by
  unfold Reference.Call.tensor
  split
  · next h => exact .pure (hargs _ (List.mem_of_getElem? h))
  · exact .error trivial
  · exact .error trivial

theorem right_ends :
    Ends ExecError.Proper (fun rhs => ∀ t, rhs = .inl t → t.WellFormed) (plain call.right)
      call.right := by
  unfold Reference.Call.right
  split
  · next h =>
    refine .pure ?_
    rintro _ ⟨⟩
    exact hargs _ (List.mem_of_getElem? h)
  · split
    · exact .pure nofun
    · exact .error trivial
  · split
    · exact .pure nofun
    · exact .error trivial

/-! ## Families of operations -/

theorem mapAs_ends (dtype : DType → DType) (f : Float → Float) :
    Ends ExecError.Proper Tensor.WellFormed (mapAs call dtype f) (call.mapAs dtype f) :=
  (tensor_ends hargs 0).bind fun _ _ _ => kernel_ends (map_ends _ _ _)

theorem pointwise_ends (f : Float → Float) :
    Ends ExecError.Proper Tensor.WellFormed (pointwise call f) (call.pointwise f) :=
  mapAs_ends hargs _ f

theorem binary_ends (f : Float → Float → Float) :
    Ends ExecError.Proper Tensor.WellFormed (binary call f) (call.binary f) := by
  refine (tensor_ends hargs 0).bind fun lhs _ hlhs => (right_ends hargs).bind fun rhs _ hrhs => ?_
  cases rhs with
  | inl rhs => exact kernel_ends (Guarded.binary_ends hlhs (hrhs rhs rfl) _ _)
  | inr x => exact kernel_ends (map_ends _ _ _)

theorem divide_ends : Ends ExecError.Proper Tensor.WellFormed (divide call) call.divide := by
  refine (tensor_ends hargs 0).bind fun lhs _ hlhs => (right_ends hargs).bind fun rhs _ hrhs => ?_
  cases rhs with
  | inl rhs => exact kernel_ends (Guarded.binary_ends hlhs (hrhs rhs rfl) _ _)
  | inr x => exact kernel_ends (map_ends _ _ _)

theorem clamp_ends : Ends ExecError.Proper Tensor.WellFormed (clamp call) call.clamp :=
  (reads (float?_proper "min")).bind fun _ _ _ => (reads (float?_proper "max")).bind fun _ _ _ =>
    mapAs_ends hargs _ _

theorem linear_ends : Ends ExecError.Proper Tensor.WellFormed (linear call) call.linear := by
  refine (tensor_ends hargs 0).bind fun x _ hx => (tensor_ends hargs 1).bind fun weight _ hw => ?_
  split
  · exact fails trivial
  refine (kernel_ends ((permute_ends hw _).bind fun _ _ h => matmul_ends hx h)).bind
    fun product _ hproduct => ?_
  cases hbias : call.arg? 2 with
  | none => exact .pure hproduct
  | some d =>
    cases d with
    | tensor bias =>
      exact kernel_ends (Guarded.binary_ends hproduct (hargs _ (List.mem_of_getElem? hbias)) _ _)
    | scalar a => exact .pure hproduct

theorem constantPad_ends :
    Ends ExecError.Proper Tensor.WellFormed (constantPad call) call.constantPad := by
  refine (tensor_ends hargs 0).bind fun x _ hx => (reads (ints_proper "pad")).bind
    fun amounts _ _ => (reads (float_proper "value" 0.0)).bind fun value _ _ => ?_
  split
  · exact fails trivial
  · next hfits =>
    rw [padSides_zero (by omega), pure_bind]
    exact kernel_ends (pad_ends hx _ _ _)

theorem transpose_ends :
    Ends ExecError.Proper Tensor.WellFormed (transpose call) call.transpose := by
  refine (tensor_ends hargs 0).bind fun x _ hx => (reads (int_proper "dim0")).bind fun n _ _ =>
    (reads (axis_proper n x.rank)).bind fun a ha _ => (reads (int_proper "dim1")).bind fun m _ _ =>
    (reads (axis_proper m x.rank)).bind fun b hb _ => ?_
  have ha := Kernel.lt_of_axisIndex (Outcome.mapError_eq_ok.mp ha)
  have hb := Kernel.lt_of_axisIndex (Outcome.mapError_eq_ok.mp hb)
  rw [exchange_eq ha hb, pure_bind]
  exact kernel_ends (permute_ends hx _)

theorem flatten_ends : Ends ExecError.Proper Tensor.WellFormed (flatten call) call.flatten := by
  refine (tensor_ends hargs 0).bind fun x _ hx => ?_
  split
  · exact kernel_ends (reshape_ends hx _)
  next hrank =>
  dsimp only
  generalize Kernel.axisIndex (((call.attr? "start_dim").bind Attr.int?).getD 0) x.rank = first?
  generalize hlast : Kernel.axisIndex (((call.attr? "end_dim").bind Attr.int?).getD (-1)) x.rank =
    last?
  cases first? with
  | error cause => exact fails trivial
  | ok first =>
    cases last? with
    | error cause => exact fails trivial
    | ok last =>
      dsimp only
      split
      · next horder =>
        have hlast : last < x.dims.length := by
          have := Kernel.lt_of_axisIndex hlast
          unfold Tensor.rank at this hrank
          omega
        rw [flattenedExtents_eq horder hlast, pure_bind]
        exact kernel_ends (reshape_ends hx _)
      · exact fails trivial

theorem reduce_ends (mean : Bool) :
    Ends ExecError.Proper Tensor.WellFormed (reduce call mean) (call.reduce mean) := by
  refine (tensor_ends hargs 0).bind fun x _ hx =>
    (reads (reductionAxes_proper x.rank)).bind fun named _ _ => ?_
  dsimp only
  split
  · exact fails trivial
  · refine (reads (dtype?_proper "dtype")).bind fun requested _ _ => ?_
    rw [cast_eq hx, pure_bind]
    exact kernel_ends (Guarded.reduce_ends (hx.cast _) _ _ _ _)

theorem softmax_ends : Ends ExecError.Proper Tensor.WellFormed (softmax call) call.softmax :=
  (tensor_ends hargs 0).bind fun _ _ hx => (reads (dtype?_proper "dtype")).bind fun _ _ _ =>
    (reads (int_proper "dim")).bind fun n _ _ => (reads (axis_proper n _)).bind fun _ _ _ =>
      kernel_ends (Guarded.softmax_ends hx _ _)

theorem cumsum_ends : Ends ExecError.Proper Tensor.WellFormed (cumsum call) call.cumsum :=
  (tensor_ends hargs 0).bind fun _ _ hx => (reads (dtype?_proper "dtype")).bind fun _ _ _ =>
    (reads (int_proper "dim")).bind fun n _ _ => (reads (axis_proper n _)).bind fun _ _ _ =>
      kernel_ends (Guarded.cumsum_ends hx _ _)

theorem size_ends : Ends ExecError.Proper (fun _ => True) (size call) call.size := by
  refine (tensor_ends hargs 0).bind fun x _ _ => ?_
  have hsome : ∀ n : ℤ, x.rank ≠ 0 →
      Ends ExecError.Proper (fun _ => True)
        (plain (call.axis n x.rank) >>= fun axis => entry x.dims axis >>= fun extent =>
          pure (Attr.int extent))
        (call.axis n x.rank >>= fun axis => pure (.int (Kernel.extentAt x.dims axis))) := by
    intro n hrank
    refine (reads (axis_proper n x.rank)).bind fun axis haxis _ => ?_
    have haxis : axis < x.dims.length := by
      have := Kernel.lt_of_axisIndex (Outcome.mapError_eq_ok.mp haxis)
      unfold Tensor.rank at this hrank
      omega
    rw [entry_of_lt haxis, pure_bind, Kernel.extentAt, List.getD_eq_getElem _ _ haxis]
    exact .pure trivial
  cases call.attr? "dim" with
  | none => exact .pure trivial
  | some a =>
    cases a with
    | none => exact .pure trivial
    | int n =>
      dsimp only
      split
      · exact fails trivial
      · next hrank => exact hsome n hrank
    | bool b =>
      dsimp only
      split
      · exact fails trivial
      · next hrank => exact hsome _ hrank
    | _ =>
      dsimp only
      split
      · exact fails trivial
      · exact fails trivial

theorem gelu_ends : Ends ExecError.Proper Tensor.WellFormed (gelu call) call.gelu := by
  unfold gelu Reference.Call.gelu
  cases (call.attr? "approximate").bind Attr.str? with
  | none => exact pointwise_ends hargs _
  | some name =>
    dsimp only
    split
    · exact pointwise_ends hargs _
    split
    · exact pointwise_ends hargs _
    · exact fails trivial

/-! ## Nodes -/

theorem tensorResult_ends :
    Ends ExecError.Proper Tensor.WellFormed (tensorResult call) call.tensorResult := by
  unfold tensorResult Reference.Call.tensorResult
  cases call.node.kind
  case relu | neg | abs => exact mapAs_ends hargs _ _
  case sigmoid | tanh | silu | exp | log | sqrt | erf => exact pointwise_ends hargs _
  case hardtanh | leakyRelu | elu =>
    repeat refine (reads (float_proper _ _)).bind fun _ _ _ => ?_
    exact pointwise_ends hargs _
  case gelu => exact gelu_ends hargs
  case add | sub => exact (reads (float_proper _ _)).bind fun _ _ _ => binary_ends hargs _
  case mul | pow | maximum | minimum => exact binary_ends hargs _
  case div => exact divide_ends hargs
  case clamp => exact clamp_ends hargs
  case prelu =>
    exact (tensor_ends hargs 0).bind fun _ _ hx => (tensor_ends hargs 1).bind fun _ _ _ =>
      kernel_ends (prelu_ends hx _)
  case matmul =>
    exact (tensor_ends hargs 0).bind fun _ _ hx => (tensor_ends hargs 1).bind fun _ _ hy =>
      kernel_ends (matmul_ends hx hy)
  case linear => exact linear_ends hargs
  case constantPad => exact constantPad_ends hargs
  case reshape =>
    exact (tensor_ends hargs 0).bind fun _ _ hx => (reads (ints_proper _)).bind fun _ _ _ =>
      kernel_ends ((resolveShape_ends _ _ _).bind fun _ _ _ => reshape_ends hx _)
  case permute =>
    exact (tensor_ends hargs 0).bind fun _ _ hx => (reads (ints_proper _)).bind fun _ _ _ =>
      (reads (.mapM (fun n => axis_proper n _) _)).bind fun _ _ _ => kernel_ends (permute_ends hx _)
  case transpose => exact transpose_ends hargs
  case flatten => exact flatten_ends hargs
  case softmax => exact softmax_ends hargs
  case cumsum => exact cumsum_ends hargs
  case sum | mean => exact reduce_ends hargs _
  case dropout =>
    dsimp only
    split
    · exact fails trivial
    · exact tensor_ends hargs 0
  case contiguous => exact tensor_ends hargs 0
  case constant | size | print | branch | loop | engineCall => exact fails trivial
  -- what is left is the conversion to another element type
  refine (tensor_ends hargs 0).bind fun _ _ hx => (reads (dtype?_proper _)).bind fun _ _ _ => ?_
  rw [cast_eq hx]
  exact .pure (hx.cast _)

theorem results_ends
    (hvalue : ∀ t, call.node.attr? "value" = some (.tensor t) → t.WellFormed) :
    Ends ExecError.Proper (fun results => ∀ d ∈ results, d.WellFormed) (results call)
      call.results := by
  unfold results
  split
  · next hkind =>
    have hresults : call.results = .ok [Reference.Call.constantValue call.node] := by
      rw [Reference.Call.results, hkind]
    rw [hresults]
    refine .pure (List.forall_mem_singleton.mpr ?_)
    unfold Reference.Call.constantValue
    split
    · next t ht => exact hvalue t ht
    · trivial
    · trivial
  · next hkind =>
    have hresults : call.results = call.size >>= fun a => pure [.scalar a] := by
      rw [Reference.Call.results, hkind]
    rw [hresults]
    exact (size_ends hargs).map fun a _ => List.forall_mem_singleton.mpr trivial
  · next hkind =>
    have hresults : call.results = .ok [] := by rw [Reference.Call.results, hkind]
    rw [hresults]
    exact .pure nofun
  · next hconstant hsize hprint =>
    rw [Reference.Call.results_eq_bind hconstant hsize hprint]
    exact (tensorResult_ends hargs).map fun t ht => List.forall_mem_singleton.mpr ht

end

end Call

end Guarded

/-! ## The interpreter -/

/-- On well-formed values nothing is out of range in any kernel, and results are well-formed. -/
theorem Reference.interpret_closed {node : Node} {args : List Datum}
    (hnode : ∀ name t, node.attr? name = some (.tensor t) → t.WellFormed)
    (hargs : ∀ d ∈ args, d.WellFormed) :
    Guarded.interpret node args = Guarded.plain (interpret node args) ∧
      (∀ index size, interpret node args ≠ .error (node.fault (.kernel (.outOfRange index size)))) ∧
      ∀ results, interpret node args = .ok results → ∀ d ∈ results, d.WellFormed := by
  have h : Guarded.Ends _ _ (Guarded.Call.results ⟨node, args⟩) (Call.results ⟨node, args⟩) :=
    Guarded.Call.results_ends hargs (hnode "value")
  exact ⟨h.run, fun index size herror => h.fails _ herror, h.answers⟩

/-- Rows times a column of bytes. -/
theorem Reference.interpret_closed_matmul :
    let node : Node := ⟨⟨0⟩, .matmul, [⟨0⟩, ⟨1⟩], [⟨2⟩], .empty, none⟩
    let rows : Tensor := ⟨.i64, [2, 3], .i64 #[1, 2, 3, 4, 5, 6]⟩
    let column : Tensor := ⟨.i8, [3], .i32 #[1, 0, -1]⟩
    let args : List Datum := [.tensor rows, .tensor column]
    (∀ d ∈ args, d.WellFormed) ∧
      Guarded.interpret node args = Guarded.plain (interpret node args) ∧
      (∀ index size, interpret node args ≠ .error (node.fault (.kernel (.outOfRange index size)))) ∧
      ∀ results, interpret node args = .ok results → ∀ d ∈ results, d.WellFormed := by
  intro node rows column args
  have hbytes : ∀ v ∈ #[(1 : Int32), 0, -1], -128 ≤ v.toInt ∧ v.toInt ≤ 127 := by
    intro v hv
    simp only [List.mem_toArray, List.mem_cons, List.not_mem_nil, or_false] at hv
    rcases hv with rfl | rfl | rfl <;> decide
  have hargs : ∀ d ∈ args, d.WellFormed := List.forall_mem_cons.mpr
    ⟨⟨rfl, rfl, trivial⟩, List.forall_mem_singleton.mpr ⟨rfl, rfl, fun _ => hbytes⟩⟩
  exact ⟨hargs, interpret_closed nofun hargs⟩

end HybridGraph
