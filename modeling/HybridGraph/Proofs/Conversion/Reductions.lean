import HybridGraph.Proofs.Conversion.Executing
import HybridGraph.Proofs.Conversion.Predicates
import HybridGraph.Proofs.Kernel.Reductions
/-!
# Reductions on engines

The axes of a sum or mean are read twice: by the interpreter, for which a list that names no axis
means all of them, and by the converter, for which it means none.  All other forms are read alike,
negative and repeated axes included.  So the layer of a floating reduction computes what the
interpreter computes exactly if it is not given an empty list where that makes a difference:

    s.Computes engine s' slots out y ↔
      (node.attr? "dim" = some (.ints []) →
        x.rank = 0 ∨ keepdim ∧ all extents of x are one)               (computes_reduction_iff)
-/

namespace HybridGraph

/-! ## No axes and all axes -/

namespace Kernel

variable {dims : List Nat} {t y : Tensor} {keep mean : Bool}

/-- Along unit axes all coordinates are zero. -/
theorem dot_unravel_of_ones (hones : ∀ n ∈ dims, n = 1) (index : Nat) (steps : List Nat) :
    dot (unravel dims index) steps = 0 := by
  have hcoords : ∀ c ∈ unravel dims index, c = 0 := by
    intro c hc
    obtain ⟨i, hi, rfl⟩ := List.getElem_of_mem hc
    simp [unravel, hones _ (List.getElem_mem _), Nat.mod_one]
  rw [dot, ← List.sum_eq_foldl]
  refine List.sum_eq_zero fun p hp => ?_
  obtain ⟨i, hi, rfl⟩ := List.getElem_of_mem hp
  rw [List.getElem_zipWith, hcoords _ (List.getElem_mem _), Nat.zero_mul]

theorem keptExtents_nil (dims : List Nat) : keptExtents dims [] = dims := by
  refine List.ext_getElem (by simp [keptExtents]) fun axis _ _ => ?_
  simp [keptExtents]

theorem droppedExtents_nil (dims : List Nat) : droppedExtents dims [] = dims := by
  simp [droppedExtents, List.filter_true]

theorem keptExtents_range (dims : List Nat) :
    keptExtents dims (List.range dims.length) = List.replicate dims.length 1 := by
  refine List.ext_getElem (by simp [keptExtents]) fun axis haxis _ => ?_
  have hlt : axis < dims.length := by simpa [keptExtents] using haxis
  simp [keptExtents, hlt]

theorem droppedExtents_range (dims : List Nat) :
    droppedExtents dims (List.range dims.length) = [] := by
  simp only [droppedExtents, List.map_eq_nil_iff, List.filter_eq_nil_iff]
  intro entry hentry
  simpa using List.snd_lt_of_mem_zipIdx hentry

/-- Along unit axes it does not matter which of them are reduced, if they stay. -/
theorem reduce_of_ones (hones : ∀ n ∈ t.dims, n = 1) :
    reduce t [] true mean t.dtype = reduce t (List.range t.rank) true mean t.dtype := by
  have hkept : keptExtents t.dims (List.range t.rank) = t.dims :=
    (keptExtents_range t.dims).trans (List.eq_replicate_of_mem hones).symm
  have hcount : reducedCount t.dims (List.range t.rank) = 1 := by
    rw [reducedCount, Inference.elementCount_eq_prod]
    refine List.prod_eq_one fun n hn => ?_
    obtain ⟨axis, -, haxis⟩ := List.mem_filterMap.mp hn
    exact hones n (List.mem_of_getElem? haxis)
  have hbelow : ∀ axis ∈ List.range t.rank, axis < max t.rank 1 := fun axis haxis =>
    (List.mem_range.mp haxis).trans_le (Nat.le_max_left _ _)
  rw [reduce_of_lt (fun _ h => absurd h List.not_mem_nil), reduce_of_lt hbelow]
  unfold reduceValues
  simp only [dot_unravel_of_ones hones, keptExtents_nil, hkept, hcount, reduceIte]
  rfl

theorem dims_of_reduce {axes : List Nat} {dtype : DType}
    (h : reduce t axes keep mean dtype = .ok y) :
    y.dims = if keep then keptExtents t.dims axes else droppedExtents t.dims axes := by
  have hdims := congrArg TensorSig.dims (sig_of_reduce h)
  have hmap := hdims.trans (Inference.reduceExtents_map_fixed t.dims axes keep)
  exact List.map_injective_iff.mpr (fun _ _ => Dimension.fixed.inj) hmap

/-- Reducing no axes is reducing all of them if there is nothing to add up. -/
theorem reduce_nil_eq_ok_iff (h : reduce t (List.range t.rank) keep mean t.dtype = .ok y) :
    reduce t [] keep mean t.dtype = .ok y ↔
      t.rank = 0 ∨ keep = true ∧ ∀ n ∈ t.dims, n = 1 := by
  constructor
  · intro hnil
    have hdims := (dims_of_reduce hnil).symm.trans (dims_of_reduce h)
    rw [keptExtents_nil, droppedExtents_nil, Tensor.rank, keptExtents_range,
      droppedExtents_range] at hdims
    cases keep with
    | true => exact .inr ⟨rfl, List.eq_replicate_iff.mp hdims |>.2⟩
    | false => exact .inl (List.length_eq_zero_iff.mpr hdims)
  · rintro (hrank | ⟨rfl, hones⟩)
    · rwa [hrank] at h
    · exact (reduce_of_ones hones).trans h

end Kernel

/-! ## The layer of a reduction -/

namespace Converter

open Emit

variable {engine : Engine} {site : EmitSite} {s : EmitState Reference.accelerator} {known : Known}
  {t : Tensor}

/-- A reduction is one layer over the axes that are named, or over all. -/
theorem yields_reduce {axes? : Option (List Int)} {named : List Nat}
    (hreduced : engine.reducedPrecision = false) (h0 : s.Provides known site.node 0 t)
    (haxes : site.node.axes? = some axes?)
    (hnamed : axes?.elim (.ok (List.range t.rank)) (·.mapM (Kernel.axisIndex · t.rank)) =
      .ok named) :
    Yields engine reduce site s known
      (Kernel.reduce t ((List.range (max t.rank 1)).filter named.contains)
        ((site.node.bool? "keepdim").getD false) (site.node.kind = .mean) t.dtype).toOption := by
  have hmean : ((if site.node.kind = .mean then ReduceOp.mean else .sum) = .mean : Bool) =
      decide (site.node.kind = .mean) := by
    split <;> simp [*]
  refine .after reads_node ?_
  rintro _ rfl
  refine .after (reads_input h0) fun x ⟨hx, hd⟩ => ?_
  refine .after (reads_conforming hd) fun d hconforms => ?_
  refine .guard reads_needFloat fun _ => .after reads_orFail fun found hfound => ?_
  obtain rfl := Option.some.inj (haxes.symm.trans hfound)
  rw [hconforms.rank_eq, ← hmean]
  have hlayer : Yields engine (layer (.reduce (if site.node.kind = .mean then .mean else .sum)
      ((List.range (max t.rank 1)).filter named.contains)
      ((site.node.bool? "keepdim").getD false)) [x]) site s known _ :=
    .layer hreduced (.cons hx .nil)
  cases axes? with
  | none =>
    obtain rfl := Except.ok.inj hnamed
    exact .after (reads_of_eval_eq (eval_pure _)) fun _ h => h ▸ hlayer
  | some ns =>
    exact .after reads_axes fun read hread => Except.ok.inj (hnamed.symm.trans hread) ▸ hlayer

end Converter

/-! ## Reductions that are interpreted -/

theorem Node.axes?_eq_nil_iff {node : Node} :
    node.axes? = some (some []) ↔ node.attr? "dim" = some (.ints []) := by
  unfold Node.axes?
  split
  · next h => simp [h]
  · next h => simp [h]
  · next h => simp [h]
  · next h => simp [h]
  · next a _ _ hne h =>
    rw [h, Option.some_inj]
    exact ⟨nofun, fun ha => absurd ha (hne [])⟩

theorem Reference.Call.reductionAxes_of_nil {node : Node} {t : Tensor} {rank : Nat}
    (h : node.attr? "dim" = some (.ints [])) :
    (on node [t]).reductionAxes rank = .ok (List.range rank) := by
  have hattr : (on node [t]).attr? "dim" = some (.ints []) := attr?_of_one_operand.trans h
  unfold reductionAxes
  rw [hattr]

theorem Kernel.filter_range_max (rank : Nat) :
    (List.range (max rank 1)).filter (List.range rank).contains = List.range rank := by
  cases rank with
  | zero => rfl
  | succ rank =>
    rw [Nat.max_eq_left (by omega), List.filter_eq_self]
    simp

namespace Registry

open Reference.Call

variable {engine : Engine} {g : Graph} {truncateWide : Bool}
  {s s' : EmitState Reference.accelerator} {node : Node} {slots : Engine.Slots} {out : ValueId}
  {x y : Tensor}

/-- The layer of a floating reduction computes what the interpreter computes, but for an empty list
of axes where there is something to add up. -/
theorem computes_reduction_iff (hkind : node.kind = .sum ∨ node.kind = .mean)
    (hreduced : engine.reducedPrecision = false) (hfloat : x.dtype.isFloat = true)
    (htruth : ∀ declared, node.operandDType? g 0 = some declared → declared = x.dtype)
    (hfeeds : s.Feeds slots node.inputs [x]) (hout : node.outputs = [out])
    (hconvert : (standard Reference.accelerator).convert g truncateWide s node = (.ok (), s'))
    (hsize : s'.size ≤ slots.size)
    (hrun : Reference.interpret node [.tensor x] = .ok [.tensor y]) :
    s.Computes engine s' slots out y ↔
      (node.attr? "dim" = some (.ints []) →
        x.rank = 0 ∨ node.bool? "keepdim" = some true ∧ ∀ n ∈ x.dims, n = 1) := by
  have hconverter : standard Reference.accelerator node.kind =
      some (single Support.reduce Converter.reduce) := by
    rcases hkind with h | h <;> rw [h] <;> rfl
  have hsupport := support_of_converter (support_of_convert hconvert) hconverter
  obtain ⟨-, -, hrequested⟩ := Support.requirements_of_reduce hsupport
  have hreduce : (on node [x]).reduce (node.kind = .mean) = .ok y := by
    have hresult : (on node [x]).tensorResult = .ok y :=
      tensorResult_of_interpret (by rcases hkind with h | h <;> simp [h]) hrun
    rcases hkind with h | h
    · simpa [tensorResult, h] using hresult
    · simpa [tensorResult, h] using hresult
  obtain ⟨named, hread, hkernel⟩ :=
    kernel_of_reduce (Support.requests_of_truthful hrequested htruth) (.inl hfloat) hreduce
  by_cases hempty : node.attr? "dim" = some (.ints [])
  · obtain rfl := Except.ok.inj (hread.symm.trans (reductionAxes_of_nil hempty))
    have hnamed : ([] : List Int).mapM (Kernel.axisIndex · x.rank) = .ok [] := rfl
    rw [computes_iff hconverter (Converter.yields_reduce hreduced (hfeeds.provides rfl)
      (Node.axes?_eq_nil_iff.mpr hempty) hnamed) hconvert hout hsize, Outcome.toOption_eq_some]
    rw [Kernel.filter_range_max] at hkernel
    have hnone : (List.range (max x.rank 1)).filter ([] : List Nat).contains = [] := by simp
    rw [hnone, Kernel.reduce_nil_eq_ok_iff hkernel]
    simp [hempty, Option.getD_eq_iff]
  · obtain ⟨axes?, haxes, hnamed⟩ :=
      exists_named_of_reductionAxes (fun h => hempty (Node.axes?_eq_nil_iff.mp h)) hread
    rw [computes_iff hconverter
      (Converter.yields_reduce hreduced (hfeeds.provides rfl) haxes hnamed) hconvert hout hsize,
      Outcome.toOption_eq_some]
    exact iff_of_true hkernel fun h => absurd h hempty

end Registry

end HybridGraph
