import HybridGraph.Proofs.Guarded.Basic
import HybridGraph.Proofs.Kernel.Broadcasting
/-!
# Guarded broadcasting

The kernels that go through their operands element by element, with every index, divisor and
difference checked.  An operand that broadcasts to the shape of the result, and has as many elements
as its own shape asks for, is read inside its bounds throughout, and the result is well-formed:

    lhs.WellFormed → rhs.WellFormed →
      Ends Proper WellFormed (binary lhs rhs dtype f) (Kernel.binary lhs rhs dtype f)  (binary_ends)
    x.WellFormed → Ends Proper WellFormed (prelu x slope) (Kernel.prelu x slope)        (prelu_ends)

With the laws of shapes this is what broadcasting promises (`Kernel.broadcast_aligned`).
-/

namespace HybridGraph

/-- Not a read past the end of an operand.  `noRoom` is none: a kernel that asks for more than one
array can hold has read nothing yet, and integers of any size would let it go on. -/
def KernelError.Proper : KernelError → Prop
  | .outOfRange .. => False
  | _ => True

namespace Guarded

open Kernel (Broadcasts Within)

variable {ε α : Type} {p : ε → Prop} {dims target : List ℕ} {values : Array α} {index : ℕ}

/-! ## Coordinates -/

/-- Coordinates of a flat index, found from the last axis on, and what is left of the index. -/
def unravel : List ℕ → ℕ → Guarded ε (List ℕ × ℕ)
  | [], index => return ([], index)
  | extent :: dims, index => do
    let (coords, rest) ← unravel dims index
    return ((← remainder rest extent) :: coords, ← quotient rest extent)

theorem unravel_eq (h : ∀ extent ∈ dims, extent ≠ 0) (index : ℕ) :
    (unravel dims index : Guarded ε (List ℕ × ℕ)) =
      pure (Kernel.unravel dims index, index / elementCount dims) := by
  induction dims with
  | nil => simp [unravel, Kernel.unravel]
  | cons extent dims ih =>
    rw [List.forall_mem_cons] at h
    rw [unravel, ih h.2, pure_bind]
    dsimp only
    rw [remainder_of_ne h.1, pure_bind, quotient_of_ne h.1, pure_bind, Nat.div_div_eq_div_mul,
      Nat.mul_comm, Kernel.elementCount_cons]
    rfl

theorem unravel_of_lt (h : index < elementCount dims) :
    (unravel dims index : Guarded ε (List ℕ × ℕ)) =
      pure (Kernel.unravel dims index, index / elementCount dims) :=
  unravel_eq (Kernel.ne_zero_of_mem h) index

/-- A read inside the bounds. -/
theorem read_ends {p : KernelError → Prop} (h : index < values.size) :
    Ends p (fun _ => True) (read values index) (Kernel.fetch values index) := by
  unfold Kernel.fetch
  rw [read_of_lt h, Array.getElem?_eq_getElem h]
  exact .pure trivial

/-- There is room, or it is refused. -/
theorem needRoom_ends (count : ℕ) :
    Ends KernelError.Proper (fun _ => True) (plain (Kernel.needRoom count))
      (Kernel.needRoom count) := by
  unfold Kernel.needRoom
  split
  · exact .pure trivial
  · exact .error trivial

/-! ## Shapes -/

/-- The extent that stands `fromEnd` axes before the last one. -/
def extentFromEnd (dims : List ℕ) (fromEnd : ℕ) : Guarded ε ℕ := do
  if fromEnd < dims.length then
    entry dims (← difference (← difference dims.length 1) fromEnd)
  else return 1

/-- The shape to which two shapes broadcast. -/
def broadcastShape (lhs rhs : List ℕ) : Guarded KernelError (List ℕ) :=
  let rank := max lhs.length rhs.length
  (List.range rank).mapM fun axis => do
    let fromEnd ← difference (← difference rank 1) axis
    let a ← extentFromEnd lhs fromEnd
    let b ← extentFromEnd rhs fromEnd
    plain (if a = b then .ok a
      else if a = 1 then .ok b
      else if b = 1 then .ok a
      else .error (.broadcast lhs rhs axis a b))

/-- Strides of an operand inside a result of the given rank; held axes do not move. -/
def broadcastStrides (dims : List ℕ) (rank : ℕ) : Guarded ε (List ℕ) := do
  let offset ← difference rank dims.length
  (List.range rank).mapM fun axis => do
    if axis < offset then return 0
    else
      let place ← difference axis offset
      if (← entry dims place) = 1 then return 0 else entry (Kernel.strides dims) place

theorem extentFromEnd_eq (dims : List ℕ) (k : ℕ) :
    (extentFromEnd dims k : Guarded ε ℕ) = pure (Kernel.extentFromEnd dims k) := by
  unfold extentFromEnd Kernel.extentFromEnd
  split
  · next h =>
    rw [difference_of_le (by omega), pure_bind, difference_of_le (by omega), pure_bind,
      entry_of_lt (by omega), List.getD_eq_getElem _ _ (by omega)]
  · rfl

theorem broadcastShape_ends (lhs rhs : List ℕ) :
    Ends KernelError.Proper (fun _ => True) (broadcastShape lhs rhs)
      (Kernel.broadcastShape lhs rhs) := by
  refine (Ends.mapM fun axis haxis => ?_).imp fun _ _ _ => trivial
  have haxis := List.mem_range.mp haxis
  rw [difference_of_le (by omega), pure_bind, difference_of_le (by omega), pure_bind,
    extentFromEnd_eq, pure_bind, extentFromEnd_eq, pure_bind]
  refine .plain ?_ fun _ _ => trivial
  split_ifs
  · exact .ok _
  · exact .ok _
  · exact .ok _
  · exact .error trivial

theorem broadcastStrides_eq {rank : ℕ} (h : dims.length ≤ rank) :
    (broadcastStrides dims rank : Guarded ε (List ℕ)) =
      pure (Kernel.broadcastStrides dims rank) := by
  unfold broadcastStrides
  rw [difference_of_le h, pure_bind,
    mapM_eq_pure (g := fun axis => (Kernel.broadcastStrides dims rank).getD axis 0)]
  · congr 1
    have hlength : (Kernel.broadcastStrides dims rank).length = rank := by
      simp [Kernel.broadcastStrides, Kernel.length_strides]
      omega
    refine List.ext_getElem (by simp [hlength]) fun i hi hi' => ?_
    simp [hi']
  intro axis haxis
  have haxis := List.mem_range.mp haxis
  unfold Kernel.broadcastStrides
  split
  · next hlt => rw [List.getD_append _ _ _ _ (by simpa using hlt), List.getD_replicate _ hlt]
  · next hge =>
    have hplace : axis - (rank - dims.length) < dims.length := by omega
    have hstride : axis - (rank - dims.length) < (Kernel.strides dims).length :=
      Kernel.length_strides dims ▸ hplace
    rw [difference_of_le (by omega), pure_bind, entry_of_lt hplace, pure_bind,
      List.getD_append_right _ _ _ _ (by simp; omega), List.length_replicate,
      List.getD_eq_getElem _ _ (by simp; omega), List.getElem_zipWith]
    split
    · rfl
    · exact entry_of_lt hstride

/-! ## Operands -/

/-- The elements of an operand laid out over the result. -/
def broadcastValues (values : Array α) (dims target : List ℕ) : Guarded ε (Array α) := do
  if dims = target then return values
  else
    let steps ← broadcastStrides dims target.length
    (Array.range (elementCount target)).mapM fun index => do
      let (coords, _) ← unravel target index
      read values (Kernel.dot coords steps)

/-- The elements of an operand laid out over a shape one by one, whatever the shape is. -/
def gatherBroadcast (values : Array α) (dims target : List ℕ) : Guarded ε (Array α) := do
  let steps ← broadcastStrides dims target.length
  (Array.range (elementCount target)).mapM fun index => do
    let (coords, _) ← unravel target index
    read values (Kernel.dot coords steps)

section

variable {p : KernelError → Prop} (h : Broadcasts dims target)
  (hsize : values.size = elementCount dims)

include h hsize

theorem gatherBroadcast_ends :
    Ends p (fun out => out.size = elementCount target) (gatherBroadcast values dims target)
      (Kernel.gatherBroadcast values dims target) := by
  unfold gatherBroadcast
  rw [broadcastStrides_eq h.1, pure_bind]
  refine .mapM_range fun index hindex => ?_
  rw [unravel_of_lt hindex, pure_bind]
  have hcoords := Kernel.within_unravel hindex
  exact read_ends (hsize ▸ Kernel.dot_broadcastStrides_lt h hcoords)

theorem broadcastValues_ends :
    Ends p (fun out => out.size = elementCount target) (broadcastValues values dims target)
      (Kernel.broadcastValues values dims target) := by
  unfold broadcastValues Kernel.broadcastValues
  split
  · next hsame => exact .pure (hsame ▸ hsize)
  · exact gatherBroadcast_ends h hsize

end

/-! ## Kernels -/

/-- What is made of numbers is well-formed. -/
theorem build_ends (dtype : DType) (dims : List ℕ) (values : Array Float) :
    Ends KernelError.Proper Tensor.WellFormed (plain (Kernel.build dtype dims values))
      (Kernel.build dtype dims values) := by
  refine .plain ?_ fun t ht => ?_
  · intro e he
    obtain ⟨cause, -, rfl⟩ := Outcome.mapError_eq_error.mp he
    trivial
  · obtain ⟨hsize, rfl⟩ := Kernel.build_eq_ok.mp ht
    exact Tensor.wellFormed_store hsize

/-- Applies a function to the elements of two operands that broadcast. -/
def binary (lhs rhs : Tensor) (dtype : DType) (f : Float → Float → Float) :
    Guarded KernelError Tensor := do
  let dims ← broadcastShape lhs.dims rhs.dims
  let a ← broadcastValues lhs.doubles lhs.dims dims
  let b ← broadcastValues rhs.doubles rhs.dims dims
  plain (Kernel.build dtype dims (Array.zipWith f a b))

theorem binary_ends {lhs rhs : Tensor} (hlhs : lhs.WellFormed) (hrhs : rhs.WellFormed)
    (dtype : DType) (f : Float → Float → Float) :
    Ends KernelError.Proper Tensor.WellFormed (binary lhs rhs dtype f)
      (Kernel.binary lhs rhs dtype f) := by
  refine (broadcastShape_ends _ _).bind fun dims hdims _ => ?_
  obtain ⟨hleft, hright⟩ := Kernel.broadcasts_of_broadcastShape hdims
  refine (broadcastValues_ends hleft hlhs.size_doubles).bind fun a _ _ => ?_
  refine (broadcastValues_ends hright hrhs.size_doubles).bind fun b _ _ => ?_
  exact build_ends _ _ _

/-- `x` where positive, scaled by a slope elsewhere; several slopes run along the second axis. -/
def prelu (x slope : Tensor) : Guarded KernelError Tensor := do
  let slopes := slope.doubles
  let values := x.doubles
  if slopes.size = 1 then
    let s ← read slopes 0
    plain (Kernel.build x.dtype x.dims (values.map (Kernel.leakyRelu · s)))
  else if x.dims.length < 2 then throw (.slopeCount slopes.size x.dims)
  else
    let channels ← entry x.dims 1
    if channels ≠ slopes.size then throw (.slopeCount slopes.size x.dims)
    else
      let inner := elementCount (← back x.dims 2)
      let out ← (Array.range values.size).mapM fun index => do
        let value ← read values index
        let slope ← read slopes (← remainder (← quotient index inner) channels)
        return Kernel.leakyRelu value slope
      plain (Kernel.build x.dtype x.dims out)

theorem prelu_ends {x : Tensor} (hx : x.WellFormed) (slope : Tensor) :
    Ends KernelError.Proper Tensor.WellFormed (prelu x slope) (Kernel.prelu x slope) := by
  unfold prelu Kernel.prelu
  dsimp only
  split
  · next hone =>
    refine (read_ends (by omega)).bind fun s _ _ => ?_
    exact build_ends _ _ _
  split
  · next hrank =>
    rw [if_pos (.inl hrank)]
    exact .error trivial
  have hchannels : Kernel.extentAt x.dims 1 = x.dims[1] := List.getD_eq_getElem _ _ (by omega)
  rw [entry_of_lt (by omega), pure_bind, hchannels]
  split
  · next hne =>
    rw [if_pos (.inr hne)]
    exact .error trivial
  · next hrank heq =>
    rw [if_neg (not_or.mpr ⟨hrank, heq⟩), back_of_le (by omega), pure_bind]
    refine (Ends.mapM_range fun index hindex => ?_).bind fun out _ _ =>
      build_ends _ _ _
    -- there is an element, so no extent is zero
    have hpos : ∀ extent ∈ x.dims, extent ≠ 0 :=
      Kernel.ne_zero_of_mem (hx.size_doubles ▸ hindex)
    have hchannel : x.dims[1] ≠ 0 := hpos _ (List.getElem_mem _)
    have hinner : elementCount (x.dims.drop 2) ≠ 0 := by
      rw [Inference.elementCount_eq_prod]
      exact List.prod_ne_zero fun hzero => hpos 0 (List.mem_of_mem_drop hzero) rfl
    refine (read_ends hindex).bind fun value _ _ => ?_
    rw [quotient_of_ne hinner, pure_bind, remainder_of_ne hchannel, pure_bind]
    refine (read_ends ?_).bind fun slope _ _ => .pure trivial
    exact not_not.mp heq ▸ Nat.mod_lt _ (Nat.pos_of_ne_zero hchannel)

end Guarded

namespace Kernel

/-- Elements laid out over a shape that their own shape broadcasts to: every index that is formed
lies inside the operand, and at each coordinates stands the operand's element at those it holds. -/
structure LaidOut {α : Type} (values : Array α) (dims target : List ℕ) (out : Array α) : Prop where
  size : out.size = elementCount target
  inside : ∀ index < elementCount target,
    dot (unravel target index) (broadcastStrides dims target.length) < values.size
  within : ∀ coords, Within coords target → Within (heldCoords dims coords) dims
  element : ∀ coords, Within coords target →
    out[place target coords]? = values[place dims (heldCoords dims coords)]?

theorem exists_laidOut {α : Type} {values : Array α} {dims target : List ℕ}
    (h : Broadcasts dims target) (hsize : values.size = elementCount dims) :
    ∃ out, LaidOut values dims target out ∧ broadcastValues values dims target = .ok out := by
  obtain ⟨out, hout, hcount, helement⟩ := exists_broadcastValues h hsize
  exact ⟨out, ⟨hcount, fun index hindex => hsize ▸ dot_broadcastStrides_lt h
    (within_unravel hindex), fun coords => within_heldCoords h, helement⟩, hout⟩

end Kernel

end HybridGraph
