import HybridGraph.Text.Chars
/-!
# Shapes

`Dimension` is the extent of one axis, known or not.  `ShapeSpec` is the shape contract of a
tensor: one fixed list of extents, or a range given by its smallest, typical and largest member.
`ShapeSpec.check` accepts the ranges whose three members have one rank and are ordered on every
axis, and `ShapeSpec.admits` says which extents lie inside.
-/

namespace HybridGraph

/-- The extent of one axis. -/
inductive Dimension where
  | fixed (extent : Nat)
  | dynamic
deriving DecidableEq

namespace Dimension

/-- The extent, if it is known. -/
def extent? : Dimension → Option Nat
  | .fixed n => some n
  | .dynamic => none

/-- The spelling in types: the extent or a question mark. -/
def text : Dimension → String
  | .fixed n => toString n
  | .dynamic => "?"

/-- The spelling in messages about layers. -/
def longText : Dimension → String
  | .fixed n => s!"Static({n})"
  | .dynamic => "Dynamic"

end Dimension

/-- All extents, if all of them are known. -/
def fixedExtents? (dims : List Dimension) : Option (List Nat) := dims.mapM Dimension.extent?

/-- Number of elements of a shape. -/
def elementCount (dims : List Nat) : Nat := dims.foldl (· * ·) 1

/-- A shape contract. -/
inductive ShapeSpec where
  | fixed (dims : List Nat)
  | ranged (min opt max : List Nat)
deriving DecidableEq

/-- Why a shape range is refused. -/
inductive RangeError where
  | ranks (min opt max : Nat)
  | inverted (axis min opt max : Nat)
deriving DecidableEq

/-- The wording of a refused range. -/
def RangeError.message : RangeError → String
  | .ranks min opt max => s!"dynamic shape ranks disagree (min {min}, opt {opt}, max {max})"
  | .inverted axis min opt max =>
    s!"dynamic shape axis {axis} violates min <= opt <= max ({min}, {opt}, {max})"

namespace ShapeSpec

/-- The smallest admitted extents. -/
def min : ShapeSpec → List Nat
  | .fixed dims => dims
  | .ranged lo _ _ => lo

/-- The typical extents. -/
def opt : ShapeSpec → List Nat
  | .fixed dims => dims
  | .ranged _ mid _ => mid

/-- The largest admitted extents. -/
def max : ShapeSpec → List Nat
  | .fixed dims => dims
  | .ranged _ _ hi => hi

/-- Number of axes. -/
def rank (s : ShapeSpec) : Nat := s.opt.length

/-- Whether the contract is a range. -/
def isRanged : ShapeSpec → Bool
  | .fixed _ => false
  | .ranged .. => true

/-- The axes one by one; an axis whose bounds agree is known. -/
def dimensions : ShapeSpec → List Dimension
  | .fixed dims => dims.map .fixed
  | .ranged lo _ hi => List.zipWith (fun a b => if a = b then .fixed a else .dynamic) lo hi

/-- The first axis from `axis` on whose three extents are out of order. -/
def firstInverted? (axis : Nat) : List Nat → List Nat → List Nat → Option RangeError
  | lo :: los, mid :: mids, hi :: his =>
    if lo ≤ mid ∧ mid ≤ hi then firstInverted? (axis + 1) los mids his
    else some (.inverted axis lo mid hi)
  | _, _, _ => none

/-- Refuses ranges of different ranks and ranges out of order. -/
def check : ShapeSpec → Except RangeError Unit
  | .fixed _ => .ok ()
  | .ranged lo mid hi =>
    if lo.length ≠ mid.length ∨ mid.length ≠ hi.length then
      .error (.ranks lo.length mid.length hi.length)
    else match firstInverted? 0 lo mid hi with
      | some e => .error e
      | none => .ok ()

/-- A checked range. -/
def range (lo mid hi : List Nat) : Except RangeError ShapeSpec := do
  (ShapeSpec.ranged lo mid hi).check
  return .ranged lo mid hi

/-- Whether `lo ≤ dims ≤ hi` on every axis that all three have. -/
def within : List Nat → List Nat → List Nat → Bool
  | lo :: los, hi :: his, dim :: dims => lo ≤ dim && dim ≤ hi && within los his dims
  | _, _, _ => true

/-- Whether extents lie inside the contract. -/
def admits (s : ShapeSpec) (dims : List Nat) : Bool :=
  dims.length == s.rank && within s.min s.max dims

/-- The contract of three measured shapes: fixed when they agree. -/
def ofMeasured (lo mid hi : List Nat) : ShapeSpec :=
  if lo = mid ∧ mid = hi then .fixed mid else .ranged lo mid hi

/-- Extents in parentheses. -/
def tupleText (dims : List Nat) : String := "(" ++ ",".intercalate (dims.map toString) ++ ")"

/-- The spelling of a contract. -/
def text : ShapeSpec → String
  | .fixed dims => tupleText dims
  | .ranged lo mid hi => s!"[{tupleText lo};{tupleText mid};{tupleText hi}]"

end ShapeSpec

end HybridGraph
