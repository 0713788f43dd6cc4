import HybridGraph.Kernel.Error
/-!
# Row-major layout

`strides` are the steps of the axes in the element sequence, `unravel` takes a flat index apart into
coordinates, and `dot` puts coordinates together again.  `lanes` lists, for every setting of the
other axes, the flat indices along one axis.

Extents and indices of elements that are stored stay far below `2 ^ 64`.  Products of extents need
not, and where one is formed before anything is stored it is kept in a `word`.  Sums of extents and
amounts are `signed`.
-/

namespace HybridGraph.Kernel

/-! ## Machine integers -/

/-- What 64 bits keep of a number: what it leaves modulo `2 ^ 64`. -/
def word (n : Nat) : Nat := n % 18446744073709551616

/-- What 64 bits keep of an integer that has a sign. -/
def signed (n : Int) : Int := n.bmod 18446744073709551616

/-- The least number of doubles that is too large for one array, `2 ^ 60`: the bytes of an array are
counted by a signed integer of 64 bits. -/
def capacity : Nat := 1152921504606846976

/-- Refuses more numbers than one array can hold. -/
def needRoom (count : Nat) : Except KernelError Unit :=
  if count < capacity then .ok () else .error (.noRoom count)

/-! ## Indices -/

/-- Steps of the axes in the element sequence. -/
def strides : List Nat → List Nat
  | [] => []
  | _ :: dims => elementCount dims :: strides dims

/-- Coordinates of a flat index. -/
def unravel (dims : List Nat) (index : Nat) : List Nat :=
  List.zipWith (fun extent stride => index / stride % extent) dims (strides dims)

/-- Sum of the products of two lists. -/
def dot (coords steps : List Nat) : Nat :=
  (List.zipWith (· * ·) coords steps).foldl (· + ·) 0

/-- The extent of an axis; axes past the end have extent one. -/
def extentAt (dims : List Nat) (axis : Nat) : Nat := dims.getD axis 1

/-- The element at a flat index. -/
def fetch {α : Type} (values : Array α) (index : Nat) : Except KernelError α :=
  match values[index]? with
  | some value => .ok value
  | none => .error (.outOfRange index values.size)

/-- The elements at `count` computed indices. -/
def gather {α : Type} (values : Array α) (count : Nat) (source : Nat → Nat) :
    Except KernelError (Array α) :=
  (Array.range count).mapM fun index => fetch values (source index)

/-- The flat indices along `axis`, one list for every setting of the other axes. -/
def lanes (dims : List Nat) (axis : Nat) : List (List Nat) :=
  let extent := extentAt dims axis
  let inner := elementCount (dims.drop (axis + 1))
  let outer := elementCount (dims.take axis)
  (List.range outer).flatMap fun o =>
    (List.range inner).map fun i =>
      (List.range extent).map fun a => (o * extent + a) * inner + i

/-- Writes the values of one lane. -/
def writeLane {α : Type} (out : Array α) : List Nat → List α → Array α
  | index :: lane, value :: values => writeLane (out.setIfInBounds index value) lane values
  | _, _ => out

/-- Replaces every lane along `axis` by its image. -/
def mapLanes (values : Array Float) (dims : List Nat) (axis : Nat)
    (image : List Float → List Float) : Except KernelError (Array Float) :=
  (lanes dims axis).foldlM
    (fun out lane => return writeLane out lane (image (← lane.mapM (fetch values))))
    (Array.replicate values.size 0.0)

/-- Wraps a negative axis and checks it against the rank; rank zero counts as one. -/
def axisIndex (axis : Int) (rank : Nat) : Except KernelError Nat :=
  let resolved := if axis < 0 then axis + rank else axis
  if resolved < 0 ∨ (Nat.max rank 1 : Int) ≤ resolved then .error (.axisRange axis rank)
  else .ok resolved.toNat

/-- A tensor of computed numbers. -/
def build (dtype : DType) (dims : List Nat) (values : Array Float) : Except KernelError Tensor :=
  (Tensor.ofDoubles dtype dims values).mapError .tensor

end HybridGraph.Kernel
