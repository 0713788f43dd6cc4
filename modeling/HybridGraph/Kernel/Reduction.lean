import HybridGraph.Kernel.Layout
/-!
# Along axes

Softmax and running sums along one axis, sums and means over several.
-/

namespace HybridGraph.Kernel

/-! ## Along one axis -/

/-- The softmax of one lane, shifted by its largest element. -/
def softmaxLane (lane : List Float) : List Float :=
  let top := lane.foldl Number.larger Number.negativeInfinity
  let weights := lane.map fun x => (x - top).exp
  let total := weights.foldl (· + ·) 0.0
  weights.map (· / total)

/-- Softmax along an axis; a tensor without axes becomes one. -/
def softmax (x : Tensor) (axis : Nat) (dtype : DType) : Except KernelError Tensor := do
  if x.rank = 0 then build dtype [] #[1.0]
  else if x.rank ≤ axis then .error (.softmaxAxis axis x.dims)
  else build dtype x.dims (← mapLanes x.doubles x.dims axis softmaxLane)

/-- Running sums of one lane. -/
def runningSums : Float → List Float → List Float
  | _, [] => []
  | sum, x :: rest => (sum + x) :: runningSums (sum + x) rest

/-- Running sums along an axis. -/
def cumsum (x : Tensor) (axis : Nat) (dtype : DType) : Except KernelError Tensor := do
  if x.rank = 0 then build dtype [] x.doubles
  else if x.rank ≤ axis then .error (.cumsumAxis axis x.dims)
  else build dtype x.dims (← mapLanes x.doubles x.dims axis (runningSums 0.0))

/-! ## Over several axes -/

/-- The extents with the reduced axes set to one. -/
def keptExtents (dims axes : List Nat) : List Nat :=
  dims.mapIdx fun axis extent => if axes.contains axis then 1 else extent

/-- Steps of the operand's axes in the result; reduced axes do not move. -/
def keptSteps (dims axes : List Nat) : List Nat :=
  (strides (keptExtents dims axes)).mapIdx fun axis stride =>
    if axes.contains axis then 0 else stride

/-- Adds a value to one cell. -/
def addAt {α : Type} [Add α] (sums : Array α) (index : Nat) (value : α) :
    Except KernelError (Array α) :=
  if h : index < sums.size then .ok (sums.set index (sums[index] + value))
  else .error (.outOfRange index sums.size)

/-- Adds every element, in order, to the cell with the same kept coordinates. -/
def reduceValues {α : Type} [OfNat α 0] [Add α] (values : Array α) (dims axes : List Nat) :
    Except KernelError (Array α) :=
  let steps := keptSteps dims axes
  (List.range values.size).foldlM
    (fun sums index => do
      addAt sums (dot (unravel dims index) steps) (← fetch values index))
    (Array.replicate (elementCount (keptExtents dims axes)) 0)

/-- Number of elements that meet in one cell. -/
def reducedCount (dims axes : List Nat) : Nat :=
  elementCount (axes.filterMap fun axis => dims[axis]?)

/-- The extents without the reduced axes. -/
def droppedExtents (dims axes : List Nat) : List Nat :=
  (dims.zipIdx.filter fun entry => !axes.contains entry.2).map Prod.fst

/-- Sums or averages over axes; with `keepDims` the reduced axes stay with extent one. -/
def reduce (x : Tensor) (axes : List Nat) (keepDims mean : Bool) (dtype : DType) :
    Except KernelError Tensor := do
  match axes.find? (Nat.max x.rank 1 ≤ ·) with
  | some axis => .error (.reduceAxis axis x.dims)
  | none =>
    let sums ← reduceValues x.doubles x.dims axes
    let out := if mean then
        let count := Number.ofInt (reducedCount x.dims axes)
        sums.map (· / count)
      else sums
    build dtype (if keepDims then keptExtents x.dims axes else droppedExtents x.dims axes) out

end HybridGraph.Kernel
