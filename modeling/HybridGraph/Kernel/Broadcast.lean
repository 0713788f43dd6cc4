import HybridGraph.Kernel.Layout
/-!
# Broadcasting

Two shapes are aligned at their last axes; extents that meet must agree unless one of them is one,
and missing axes count as one.  An operand is read at the coordinates of the result with its unit
axes held at zero.
-/

namespace HybridGraph.Kernel

/-- The extent that stands `fromEnd` axes before the last one. -/
def extentFromEnd (dims : List Nat) (fromEnd : Nat) : Nat :=
  if fromEnd < dims.length then dims.getD (dims.length - 1 - fromEnd) 1 else 1

/-- The shape to which two shapes broadcast. -/
def broadcastShape (lhs rhs : List Nat) : Except KernelError (List Nat) :=
  let rank := max lhs.length rhs.length
  (List.range rank).mapM fun axis =>
    let a := extentFromEnd lhs (rank - 1 - axis)
    let b := extentFromEnd rhs (rank - 1 - axis)
    if a = b then .ok a
    else if a = 1 then .ok b
    else if b = 1 then .ok a
    else .error (.broadcast lhs rhs axis a b)

/-- Strides of an operand inside a result of the given rank; held axes do not move. -/
def broadcastStrides (dims : List Nat) (rank : Nat) : List Nat :=
  List.replicate (rank - dims.length) 0 ++
    List.zipWith (fun extent stride => if extent = 1 then 0 else stride) dims (strides dims)

/-- The elements of an operand laid out over the result. -/
def broadcastValues {α : Type} (values : Array α) (dims target : List Nat) :
    Except KernelError (Array α) :=
  if dims = target then .ok values
  else
    let steps := broadcastStrides dims target.length
    gather values (elementCount target) fun index => dot (unravel target index) steps

/-! ## Element types of results -/

/-- Width order of the floating types. -/
def floatWidth : DType → Nat
  | .f16 => 1
  | .f32 => 2
  | .f64 => 3
  | _ => 0

/-- Width order of the other types. -/
def integerWidth : DType → Nat
  | .i8 => 1
  | .i32 => 2
  | .i64 => 3
  | _ => 0

/-- The element type of a result of two operands: the wider one, floats before integers. -/
def promote (lhs rhs : DType) : DType :=
  if lhs = rhs then lhs
  else match lhs.isFloat, rhs.isFloat with
    | true, true => if floatWidth rhs ≤ floatWidth lhs then lhs else rhs
    | true, false => lhs
    | false, true => rhs
    | false, false => if integerWidth rhs ≤ integerWidth lhs then lhs else rhs

/-- Floating types stay, the others become singles. -/
def floatResult (dtype : DType) : DType := if dtype.isFloat then dtype else .f32

end HybridGraph.Kernel
