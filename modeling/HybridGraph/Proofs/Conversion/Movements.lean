import HybridGraph.Proofs.Conversion.Executing
import HybridGraph.Proofs.Conversion.Predicates
import HybridGraph.Proofs.Kernel.Monotone
/-!
# Movements on engines

Reshapes, permutations, exchanges of axes, merged axes and padding each become one layer.  A target
of a layer says more than a list of extents: a zero in it copies the operand's extent at its place.
Reshapes with zeros are refused, so theirs mean the same to both.  A flatten, whose extents are not
known before it runs, copies the axes before the merged ones and names those after them, which goes
wrong exactly if one of either is zero, unless there are more elements than a word can count:

    Inference.volume x.dims < 2 ^ 64 → (s.Computes engine s' slots out y ↔
      (node.kind = .flatten → node.MergesNonzero x.dims))                 (computes_movement_iff)
-/

namespace HybridGraph

/-! ## Targets -/

namespace Kernel

/-- Without zeros it does not matter whether they copy. -/
theorem targetExtents_of_notMem {dims : List Nat} {whole target : List Int} (hzero : 0 ∉ target)
    (axis : Nat) (inferred : Bool) : targetExtents dims whole true axis inferred target =
      targetExtents dims whole false axis inferred target := by
  induction target generalizing axis inferred with
  | nil => rfl
  | cons extent target ih =>
    rw [List.mem_cons, not_or] at hzero
    have hne : ∀ zeroCopies, ¬ (extent = 0 ∧ zeroCopies = true) := fun _ h => hzero.1 h.1.symm
    unfold targetExtents
    rw [ih hzero.2, ih hzero.2, if_neg (hne _), if_neg (hne _)]

theorem resolveShape_of_notMem {dims : List Nat} {target : List Int} (hzero : 0 ∉ target) :
    resolveShape dims target true = resolveShape dims target false := by
  unfold resolveShape targetShapeIn
  rw [targetExtents_of_notMem hzero]

end Kernel

/-! ## The layers of movements -/

namespace Converter

open Emit

variable {engine : Engine} {site : EmitSite} {s : EmitState Reference.accelerator} {known : Known}
  {t : Tensor}

theorem reads_needAxis {axis rank : Nat} :
    (needAxis axis rank : Emit Reference.accelerator Unit).Reads site s fun _ => axis < rank := by
  unfold needAxis
  split
  · next h => exact fun _ _ hrun => ⟨(eval_pure_eq_ok.mp hrun).2, h⟩
  · exact reads_fail

/-- The extents of trailing axes are those of any tensor that conforms. -/
theorem reads_trailing {d : TensorSig} (hconforms : t.Conforms d) (start : Nat) :
    ((d.dims.zipIdx.drop start).mapM trailingExtent :
      Emit Reference.accelerator (List Int)).Reads site s
      ((t.dims.drop start).map Int.ofNat = ·) := by
  have hstep : ∀ entry ∈ d.dims.zipIdx.drop start,
      (trailingExtent entry : Emit Reference.accelerator Int).Reads site s
        fun n => ∃ extent : Nat, entry.1 = .fixed extent ∧ Int.ofNat extent = n := by
    rintro ⟨extent | _, axis⟩ -
    · exact fun n _ hrun =>
        ⟨(eval_pure_eq_ok.mp hrun).2, extent, rfl, (eval_pure_eq_ok.mp hrun).1⟩
    · exact reads_fail
  intro extents s' hrun
  obtain ⟨rfl, hextents⟩ := reads_mapM hstep extents s' hrun
  have hread : List.Forall₂
      (fun dim n => ∃ extent : Nat, dim = .fixed extent ∧ Int.ofNat extent = n)
      (d.dims.drop start) extents := by
    have hdims : (d.dims.zipIdx.drop start).map Prod.fst = d.dims.drop start := by
      rw [List.map_drop, List.zipIdx_map_fst]
    rwa [← hdims, List.forall₂_map_left_iff]
  have hadmits : List.Forall₂ (fun (dim : Dimension) (extent : Nat) => dim.Admits extent)
      (d.dims.drop start) (t.dims.drop start) := List.forall₂_drop start hconforms.2.flip
  refine ⟨rfl, List.forall₂_eq_eq_eq ▸ List.forall₂_map_left_iff.mpr ?_⟩
  refine Outcome.forall₂_of_forall₂ hadmits hread ?_
  rintro _ - extent _ hextent ⟨_, rfl, rfl⟩
  exact congrArg Int.ofNat hextent

section

variable (hreduced : engine.reducedPrecision = false)

include hreduced

theorem yields_permuted {x : TensorRef} (hx : known x t) (perm : List Nat) :
    Yields engine (shuffle x (some perm) none) site s known (Kernel.permute t perm).toOption := by
  have hrun : (LayerKind.shuffle (some perm) none).run [t] = Kernel.permute t perm := by
    show (Kernel.permute t perm >>= pure) = _
    exact bind_pure _
  rw [← hrun]
  exact .layer hreduced (.cons hx .nil)

theorem yields_reshaped {x : TensorRef} (hx : known x t) (target : List Int) :
    Yields engine (shuffle x none (some target)) site s known
      (Kernel.resolveShape t.dims target true >>= Kernel.reshape t).toOption :=
  .layer hreduced (.cons hx .nil)

variable (h0 : s.Provides known site.node 0 t)

include h0

theorem yields_reshape {target : List Int} (htarget : site.node.ints? "shape" = some target) :
    Yields engine reshape site s known
      (Kernel.resolveShape t.dims target true >>= Kernel.reshape t).toOption := by
  refine .after (reads_input h0) fun x ⟨hx, _⟩ => .after reads_ints fun found hfound => ?_
  obtain rfl := Option.some.inj (htarget.symm.trans hfound)
  exact yields_reshaped hreduced hx target

theorem yields_permute {axes : List Int} {perm : List Nat}
    (haxes : site.node.ints? "dims" = some axes)
    (hperm : axes.mapM (Kernel.axisIndex · t.rank) = .ok perm) :
    Yields engine permute site s known (Kernel.permute t perm).toOption := by
  refine .after (reads_input h0) fun x ⟨hx, hd⟩ => ?_
  refine .after (reads_conforming hd) fun d hconforms => ?_
  refine .after reads_ints fun found hfound => .guard (p := False) reads_fail fun _ => ?_
  obtain rfl := Option.some.inj (haxes.symm.trans hfound)
  refine .after reads_axes fun read hread => ?_
  rw [hconforms.rank_eq] at hread
  obtain rfl := Except.ok.inj (hperm.symm.trans hread)
  split
  · exact .fail
  · exact yields_permuted hreduced hx perm

theorem yields_transpose {n m : Int} {a b : Nat} (hn : site.node.int? "dim0" = some n)
    (hm : site.node.int? "dim1" = some m) (ha : Kernel.axisIndex n t.rank = .ok a)
    (hb : Kernel.axisIndex m t.rank = .ok b) :
    Yields engine transpose site s known
      (Kernel.permute t (Kernel.exchange t.rank a b)).toOption := by
  refine .after (reads_input h0) fun x ⟨hx, hd⟩ => ?_
  refine .after (reads_conforming hd) fun d hconforms => ?_
  refine .after reads_node ?_
  rintro _ rfl
  rw [hn, hm, hconforms.rank_eq]
  refine .after reads_axis fun a' ha' => .after reads_axis fun b' hb' => ?_
  obtain rfl := Except.ok.inj (ha.symm.trans ha')
  obtain rfl := Except.ok.inj (hb.symm.trans hb')
  exact .after reads_needAxis fun _ _ => .after reads_needAxis fun _ _ =>
    yields_permuted hreduced hx _

theorem yields_flatten_scalar (hrank : t.rank = 0) :
    Yields engine flatten site s known (Kernel.reshape t [1]).toOption := by
  refine .after (reads_input h0) fun x ⟨hx, hd⟩ => ?_
  refine .after (reads_conforming hd) fun d hconforms => ?_
  rw [if_pos (hconforms.rank_eq.trans hrank)]
  have hyields : Yields engine (shuffle x none (some [1])) site s known _ :=
    yields_reshaped hreduced hx [1]
  rwa [List.length_eq_zero_iff.mp hrank] at hyields

/-- The axes before the merged ones are copied, and those after them are named. -/
theorem yields_flatten {first last : Nat} (hrank : t.rank ≠ 0)
    (hfirst : Kernel.axisIndex ((site.node.int? "start_dim").getD 0) t.rank = .ok first)
    (hlast : Kernel.axisIndex ((site.node.int? "end_dim").getD (-1)) t.rank = .ok last) :
    Yields engine flatten site s known
      (Kernel.resolveShape t.dims
        (List.replicate first 0 ++ -1 :: (t.dims.drop (last + 1)).map Int.ofNat) true >>=
          Kernel.reshape t).toOption := by
  refine .after (reads_input h0) fun x ⟨hx, hd⟩ => ?_
  refine .after (reads_conforming hd) fun d hconforms => ?_
  rw [if_neg fun h => hrank (hconforms.rank_eq.symm.trans h)]
  refine .after reads_node ?_
  rintro _ rfl
  rw [hconforms.rank_eq]
  refine .after reads_axis fun first' hfirst' => .after reads_axis fun last' hlast' => ?_
  obtain rfl := Except.ok.inj (hfirst.symm.trans hfirst')
  obtain rfl := Except.ok.inj (hlast.symm.trans hlast')
  refine .guard (p := False) reads_fail fun _ =>
    .after (reads_trailing hconforms (last + 1)) fun trailing htrailing => ?_
  rw [← htrailing]
  exact yields_reshaped hreduced hx _

theorem yields_pad {amounts : List Int} (hamounts : site.node.ints? "pad" = some amounts) :
    Yields engine pad site s known
      (Kernel.pad t (Kernel.padSides t.rank amounts).1 (Kernel.padSides t.rank amounts).2
        ((site.node.float? "value").getD 0.0)).toOption := by
  refine .after (reads_input h0) fun x ⟨hx, hd⟩ => ?_
  refine .after (reads_conforming hd) fun d hconforms => ?_
  refine .after reads_ints fun found hfound => .guard (p := False) reads_fail fun _ => ?_
  obtain rfl := Option.some.inj (hamounts.symm.trans hfound)
  refine .after reads_node ?_
  rintro _ rfl
  rw [hconforms.rank_eq]
  exact .layer hreduced (.cons hx .nil)

end

end Converter

/-! ## Movements that are interpreted -/

/-- No extent around the axes that a flatten merges is zero. -/
def Node.MergesNonzero (node : Node) (dims : List Nat) : Prop :=
  ∀ first last, Kernel.axisIndex ((node.int? "start_dim").getD 0) dims.length = .ok first →
    Kernel.axisIndex ((node.int? "end_dim").getD (-1)) dims.length = .ok last →
      0 ∉ dims.take first ∧ 0 ∉ dims.drop (last + 1)

namespace Registry

open Reference.Call Converter

section

variable {engine : Engine} {g : Graph} {truncateWide : Bool}
  {s s' : EmitState Reference.accelerator} {node : Node} {slots : Engine.Slots} {out : ValueId}
  {x y : Tensor} (hreduced : engine.reducedPrecision = false)
  (hfeeds : s.Feeds slots node.inputs [x]) (hout : node.outputs = [out])
  (hconvert : (standard Reference.accelerator).convert g truncateWide s node = (.ok (), s'))
  (hsize : s'.size ≤ slots.size)

include hreduced hfeeds hout hconvert hsize

theorem computes_reshape (hkind : node.kind = .reshape)
    (hrun : (on node [x]).tensorResult = .ok y) : s.Computes engine s' slots out y := by
  have hconverter : standard Reference.accelerator node.kind =
      some (single Support.reshape Converter.reshape) := by rw [hkind]; rfl
  obtain ⟨target, htarget, hzero⟩ :=
    Support.exists_target (support_of_converter (support_of_convert hconvert) hconverter)
  obtain ⟨dims, hdims, hreshape⟩ := exists_of_reshape htarget hkind hrun
  rw [computes_iff hconverter (yields_reshape hreduced (hfeeds.provides rfl) htarget) hconvert hout
    hsize, Outcome.toOption_eq_some, Kernel.resolveShape_of_notMem hzero]
  exact Outcome.bind_eq_ok.mpr ⟨dims, hdims, hreshape⟩

theorem computes_permute (hkind : node.kind = .permute)
    (hrun : (on node [x]).tensorResult = .ok y) : s.Computes engine s' slots out y := by
  have hconverter : standard Reference.accelerator node.kind =
      some (single Support.permute Converter.permute) := by rw [hkind]; rfl
  obtain ⟨axes, haxes⟩ :=
    Support.exists_axes (support_of_converter (support_of_convert hconvert) hconverter)
  obtain ⟨perm, hperm, hrun⟩ := exists_of_permute haxes hkind hrun
  rwa [computes_iff hconverter (yields_permute hreduced (hfeeds.provides rfl) haxes hperm) hconvert
    hout hsize, Outcome.toOption_eq_some]

theorem computes_transpose (hkind : node.kind = .transpose)
    (hrun : (on node [x]).tensorResult = .ok y) : s.Computes engine s' slots out y := by
  have hconverter : standard Reference.accelerator node.kind =
      some (single Support.transpose Converter.transpose) := by rw [hkind]; rfl
  simp only [tensorResult, on_node, hkind] at hrun
  obtain ⟨n, m, a, b, hn, hm, ha, hb, hrun⟩ := exists_of_transpose hrun
  rwa [computes_iff hconverter (yields_transpose hreduced (hfeeds.provides rfl) hn hm ha hb)
    hconvert hout hsize, Outcome.toOption_eq_some]

theorem computes_constantPad (hkind : node.kind = .constantPad)
    (hrun : (on node [x]).tensorResult = .ok y) : s.Computes engine s' slots out y := by
  have hconverter : standard Reference.accelerator node.kind =
      some (single Support.pad Converter.pad) := by rw [hkind]; rfl
  obtain ⟨amounts, hamounts⟩ :=
    Support.exists_amounts (support_of_converter (support_of_convert hconvert) hconverter)
  simp only [tensorResult, on_node, hkind] at hrun
  obtain ⟨-, hrun⟩ := exists_of_constantPad hamounts hrun
  rwa [computes_iff hconverter (yields_pad hreduced (hfeeds.provides rfl) hamounts) hconvert hout
    hsize, Outcome.toOption_eq_some]

theorem computes_flatten_iff (hkind : node.kind = .flatten)
    (hvolume : Inference.volume x.dims < 2 ^ 64)
    (hrun : (on node [x]).tensorResult = .ok y) :
    s.Computes engine s' slots out y ↔ node.MergesNonzero x.dims := by
  have hconverter : standard Reference.accelerator node.kind =
      some (single Support.flatten Converter.flatten) := by rw [hkind]; rfl
  simp only [tensorResult, on_node, hkind] at hrun
  by_cases hrank : x.rank = 0
  · rw [computes_iff hconverter (yields_flatten_scalar hreduced (hfeeds.provides rfl) hrank)
      hconvert hout hsize, Outcome.toOption_eq_some]
    refine iff_of_true (reshape_of_flatten_scalar hrank hrun) fun first last _ _ => ?_
    rw [List.length_eq_zero_iff.mp hrank]
    simp
  · obtain ⟨first, last, hfirst, hlast, horder, hreshape⟩ := exists_of_flatten hrank hrun
    have hlt : last < x.dims.length := by
      have hlt := Kernel.lt_of_axisIndex hlast
      unfold Tensor.rank at hrank hlt
      omega
    rw [computes_iff hconverter
      (yields_flatten hreduced (hfeeds.provides rfl) hrank hfirst hlast) hconvert hout hsize,
      Outcome.toOption_eq_some]
    have hnonzero : node.MergesNonzero x.dims ↔
        0 ∉ x.dims.take first ∧ 0 ∉ x.dims.drop (last + 1) := by
      constructor
      · exact fun h => h first last hfirst hlast
      · intro h a b ha hb
        obtain rfl := Except.ok.inj (hfirst.symm.trans ha)
        obtain rfl := Except.ok.inj (hlast.symm.trans hb)
        exact h
    rw [hnonzero, ← Inference.resolveShape_merging_iff horder hlt hvolume, Outcome.bind_eq_ok]
    constructor
    · rintro ⟨dims, hdims, hmoved⟩
      rw [hdims, ← Kernel.dims_of_reshape hmoved, Kernel.dims_of_reshape hreshape]
      rfl
    · exact fun hdims => ⟨_, hdims, hreshape⟩

/-- The layer of a movement computes what the interpreter computes, but for a flatten with a zero
among the extents that it does not merge, if the elements can be counted. -/
theorem computes_movement_iff
    (hkind : node.kind ∈ [OpKind.reshape, .permute, .transpose, .flatten, .constantPad])
    (hvolume : Inference.volume x.dims < 2 ^ 64)
    (hrun : Reference.interpret node [.tensor x] = .ok [.tensor y]) :
    s.Computes engine s' slots out y ↔ (node.kind = .flatten → node.MergesNonzero x.dims) := by
  have hresult : (on node [x]).tensorResult = .ok y := by
    refine tensorResult_of_interpret (fun hother => ?_) hrun
    revert hkind hother
    cases node.kind <;> decide
  simp only [List.mem_cons, List.not_mem_nil, or_false] at hkind
  rcases hkind with h | h | h | h | h
  · exact iff_of_true (computes_reshape hreduced hfeeds hout hconvert hsize h hresult) (by simp [h])
  · exact iff_of_true (computes_permute hreduced hfeeds hout hconvert hsize h hresult) (by simp [h])
  · exact iff_of_true (computes_transpose hreduced hfeeds hout hconvert hsize h hresult)
      (by simp [h])
  · rw [computes_flatten_iff hreduced hfeeds hout hconvert hsize h hvolume hresult]
    simp [h]
  · exact iff_of_true (computes_constantPad hreduced hfeeds hout hconvert hsize h hresult)
      (by simp [h])

end

end Registry

end HybridGraph
