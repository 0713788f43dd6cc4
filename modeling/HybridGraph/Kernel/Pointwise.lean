import HybridGraph.Kernel.Broadcast
/-!
# Element by element

Scalar functions and the kernels that apply them to every element.  All of them work on doubles and
round once, when the result is stored.
-/

namespace HybridGraph.Kernel

/-! ## Scalar functions -/

/-- `x`, or zero when it is negative. -/
def relu (x : Float) : Float := Number.larger x 0.0

/-- The logistic function. -/
def sigmoid (x : Float) : Float := 1.0 / (1.0 + (-x).exp)

/-- `x`, scaled when it is negative. -/
def leakyRelu (x slope : Float) : Float := if x ≥ 0.0 then x else slope * x

/-- The exponential linear unit. -/
def elu (x alpha scale inputScale : Float) : Float :=
  if x > 0.0 then scale * x else scale * alpha * ((x * inputScale).exp - 1.0)

/-- Limits a number from both sides, the upper bound last. -/
def clip (low high x : Float) : Float := Number.smaller (Number.larger x low) high

/-- Adds `count` further terms `2 ^ n · x ^ (2n + 1) / (1 · 3 ⋯ (2n + 1))` of the error function's
series; `term` is the last one added. -/
def erfTerms : Nat → Nat → Float → Float → Float → Float
  | 0, _, _, _, sum => sum
  | count + 1, n, square, term, sum =>
    let term := term * (2.0 * square) / Number.ofInt (2 * n + 1)
    erfTerms count (n + 1) square term (sum + term)

/-- The error function: a series of positive terms, so nothing cancels; from six on it is one.
Results take it as a function of doubles and never open it, so another way of computing it would do
as well. -/
@[irreducible] def erf (x : Float) : Float :=
  if x.isNaN then x
  else if x.abs ≥ 6.0 then (if x < 0.0 then -1.0 else 1.0)
  else
    let square := x * x
    1.1283791670955126 * (-square).exp * erfTerms 160 1 square x x

/-- `1 / √2`. -/
def rootHalf : Float := 0.70710678118654752440

/-- `√(2 / π)`. -/
def rootTwoOverPi : Float := Float.sqrt 0.63661977236758134308

/-- Weight of the cubic term in the approximation by a hyperbolic tangent. -/
def cubicWeight : Float := 0.044715

/-- The Gaussian error linear unit. -/
def geluErf (x : Float) : Float := 0.5 * x * (1.0 + erf (x * rootHalf))

/-- Its approximation by a hyperbolic tangent. -/
def geluTanh (x : Float) : Float :=
  let inner := rootTwoOverPi * (x + cubicWeight * x * x * x)
  0.5 * x * (1.0 + inner.tanh)

/-! ## Kernels -/

/-- Applies a function to every element. -/
def map (x : Tensor) (dtype : DType) (f : Float → Float) : Except KernelError Tensor :=
  build dtype x.dims (x.doubles.map f)

/-- Applies a function to the elements of two operands that broadcast. -/
def binary (lhs rhs : Tensor) (dtype : DType) (f : Float → Float → Float) :
    Except KernelError Tensor := do
  let dims ← broadcastShape lhs.dims rhs.dims
  let a ← broadcastValues lhs.doubles lhs.dims dims
  let b ← broadcastValues rhs.doubles rhs.dims dims
  build dtype dims (Array.zipWith f a b)

/-- `x` where positive, scaled by a slope elsewhere; several slopes run along the second axis. -/
def prelu (x slope : Tensor) : Except KernelError Tensor := do
  let slopes := slope.doubles
  let values := x.doubles
  if slopes.size = 1 then
    let s ← fetch slopes 0
    build x.dtype x.dims (values.map (leakyRelu · s))
  else if x.dims.length < 2 ∨ extentAt x.dims 1 ≠ slopes.size then
    .error (.slopeCount slopes.size x.dims)
  else
    let inner := elementCount (x.dims.drop 2)
    let out ← (Array.range values.size).mapM fun index =>
      return leakyRelu (← fetch values index) (← fetch slopes (index / inner % extentAt x.dims 1))
    build x.dtype x.dims out

end HybridGraph.Kernel
