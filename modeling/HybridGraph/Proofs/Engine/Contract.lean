import HybridGraph.Proofs.Engine.Grown
import HybridGraph.Proofs.Engine.Monotone
import HybridGraph.Settings.Config
import Mathlib.Data.List.Induction
import Mathlib.Data.List.Zip
/-!
# Engines keep their contracts

A run gives every tensor of the network a value (`Engine.exists_of_execute`), and the descriptors of
these values agree with inference (`Engine.describes_of_solved`).  So do the descriptors that a
build infers from the smallest and from the largest inputs.  Descriptors that agree with inference
and are related at the inputs are related everywhere, by any relation that layers keep:

    Stable r small → n.Describes first → n.Describes second → (the second ones are small) →
      (first and second are related at the inputs) → … at every tensor          (Ordered.along)

With `Dimension.AtMost` this puts every value between what was measured at the ends of the input
ranges, however the inputs lie inside them, and with `Dimension.Refines` it gives the element types:

    n.Grown → n.build c = .ok engine → engine.checkInputs inputs = .ok () →
      engine.execute inputs = .ok outputs → n.Fits →
        Forall₂ EngineBinding.Allows engine.outputs outputs                     (keeps_contract)

At the largest inputs every tensor must be so small that its elements can be counted
(`Network.Fits`).  Where a number of elements wraps, what was measured there bounds nothing.

As layers read what was filled before them, such a run fails in a kernel only (`fault_of_execute`).
-/

namespace HybridGraph

/-! ## Ranges -/

namespace ShapeSpec

variable {s : ShapeSpec} {dims lo mid hi : List Nat}

/-- Extents between the smallest and the largest of a contract. -/
def Spans (s : ShapeSpec) (dims : List Nat) : Prop :=
  List.Forall₂ (· ≤ ·) s.min dims ∧ List.Forall₂ (· ≤ ·) dims s.max

theorem within_eq_true (hlo : lo.length = dims.length) (hhi : hi.length = dims.length) :
    within lo hi dims = true ↔ List.Forall₂ (· ≤ ·) lo dims ∧ List.Forall₂ (· ≤ ·) dims hi := by
  induction dims generalizing lo hi with
  | nil =>
    rw [List.length_eq_zero_iff.mp hlo, List.length_eq_zero_iff.mp hhi]
    simp [within]
  | cons dim dims ih =>
    obtain _ | ⟨a, lo⟩ := lo
    · cases hlo
    obtain _ | ⟨b, hi⟩ := hi
    · cases hhi
    have hrest := ih (Nat.succ.inj hlo) (Nat.succ.inj hhi)
    simp only [within, Bool.and_eq_true, decide_eq_true_eq, hrest, List.forall₂_cons]
    tauto

theorem forall₂_of_firstInverted {axis : Nat} (hlo : lo.length = mid.length)
    (hhi : mid.length = hi.length) (h : firstInverted? axis lo mid hi = none) :
    List.Forall₂ (· ≤ ·) lo mid ∧ List.Forall₂ (· ≤ ·) mid hi := by
  induction mid generalizing lo hi axis with
  | nil =>
    rw [List.length_eq_zero_iff.mp hlo, List.length_eq_zero_iff.mp hhi.symm]
    exact ⟨.nil, .nil⟩
  | cons m mid ih =>
    obtain _ | ⟨a, lo⟩ := lo
    · cases hlo
    obtain _ | ⟨b, hi⟩ := hi
    · cases hhi
    unfold firstInverted? at h
    split at h
    · next horder =>
      obtain ⟨hlos, hhis⟩ := ih (Nat.succ.inj hlo) (Nat.succ.inj hhi) h
      exact ⟨.cons horder.1 hlos, .cons horder.2 hhis⟩
    · cases h

/-- The typical extents of a checked contract lie between the others. -/
theorem spans_opt (h : s.check = .ok ()) : s.Spans s.opt := by
  cases s with
  | fixed dims => exact ⟨List.forall₂_same.mpr fun _ _ => Nat.le_refl _,
      List.forall₂_same.mpr fun _ _ => Nat.le_refl _⟩
  | ranged lo mid hi =>
    unfold check at h
    dsimp only at h
    split at h
    · cases h
    · next hranks =>
      rw [not_or, not_not, not_not] at hranks
      split at h
      · cases h
      · next hnone => exact forall₂_of_firstInverted hranks.1 hranks.2 hnone

theorem admits_iff_spans (h : s.check = .ok ()) : s.admits dims = true ↔ s.Spans dims := by
  obtain ⟨hlo, hhi⟩ := spans_opt h
  unfold admits Spans rank
  rw [Bool.and_eq_true, beq_iff_eq]
  constructor
  · rintro ⟨hlen, hwithin⟩
    exact (within_eq_true (hlo.length_eq.trans hlen.symm) (hhi.length_eq.symm.trans hlen.symm)).mp
      hwithin
  · rintro ⟨hmin, hmax⟩
    refine ⟨?_, (within_eq_true hmin.length_eq hmax.length_eq.symm).mpr ⟨hmin, hmax⟩⟩
    rw [← hmin.length_eq, hlo.length_eq]

theorem dimensions_eq (s : ShapeSpec) : s.dimensions =
    List.zipWith (fun a b => if a = b then Dimension.fixed a else .dynamic) s.min s.max := by
  cases s with
  | fixed dims => simp [dimensions, min, max, List.zipWith_self]
  | ranged lo mid hi => rfl

/-- The extents of a contract say more than its axes. -/
theorem Spans.refines (h : s.Spans dims) :
    List.Forall₂ Dimension.Refines (dims.map .fixed) s.dimensions := by
  obtain ⟨hlo, hhi⟩ := h
  rw [dimensions_eq]
  generalize s.min = lo at hlo
  generalize s.max = hi at hhi
  induction dims generalizing lo hi with
  | nil =>
    rw [List.forall₂_nil_right_iff.mp hlo]
    exact .nil
  | cons dim dims ih =>
    obtain ⟨a, los, ha, hlos, rfl⟩ := List.forall₂_cons_right_iff.mp hlo
    obtain ⟨b, his, hb, hhis, rfl⟩ := List.forall₂_cons_left_iff.mp hhi
    refine .cons ?_ (ih los hlos his hhis)
    dsimp only
    split
    · exact .inr (by congr 1; omega)
    · exact .inl rfl

/-- Extents between measured ones are admitted by what was measured. -/
theorem admits_ofMeasured (hlo : List.Forall₂ (· ≤ ·) lo dims) (hmid : mid.length = dims.length)
    (hhi : List.Forall₂ (· ≤ ·) dims hi) : (ofMeasured lo mid hi).admits dims = true := by
  unfold ofMeasured
  split
  · next hsame =>
    obtain ⟨rfl, rfl⟩ := hsame
    exact (admits_iff_spans rfl).mpr ⟨hlo, hhi⟩
  · unfold admits
    rw [Bool.and_eq_true, beq_iff_eq]
    exact ⟨hmid.symm, (within_eq_true hlo.length_eq hhi.length_eq.symm).mpr ⟨hlo, hhi⟩⟩

end ShapeSpec

/-- A tensor that an engine may take or give where a binding says so. -/
def EngineBinding.Allows (binding : EngineBinding) (t : Tensor) : Prop :=
  t.dtype = binding.dtype ∧ binding.shape.admits t.dims = true

/-! ## Descriptors of a network -/

namespace Network

open Inference

variable {n : Network}

/-- Descriptors of tensors that agree with what is inferred from them. -/
def Describes (n : Network) (describe? : TensorRef → Option TensorSig) : Prop :=
  n.SolvedBy (fun layer operands d => layer.kind.infer operands = .ok d) describe?

theorem Ordered.describes (h : n.Ordered) : n.Describes n.describe? := by
  intro layer hlayer
  obtain ⟨front, back, hsplit⟩ := List.append_of_mem hlayer
  exact (h.layer front layer back hsplit).infers

/-- What holds of the inputs, and of the result of each layer that finds it of its operands, holds
of all tensors. -/
theorem Ordered.induction (h : n.Ordered) {p : TensorRef → Prop}
    (hinputs : ∀ input ∈ n.inputs, p input.tensor)
    (hlayers : ∀ layer ∈ n.layers, (∀ x ∈ layer.inputs, p x) → p layer.output) {x : TensorRef}
    (hx : x ∈ n.filledBy n.layers) : p x := by
  have hfront : ∀ {front back : List Layer}, n.layers = front ++ back →
      ∀ x ∈ n.filledBy front, p x := by
    intro front
    induction front using List.reverseRecOn with
    | nil =>
      intro back hsplit x hx
      rw [filledBy, List.map_nil, List.append_nil] at hx
      obtain ⟨input, hinput, rfl⟩ := List.mem_map.mp hx
      exact hinputs input hinput
    | append_singleton front layer ih =>
      intro back hsplit x hx
      rw [List.append_assoc] at hsplit
      have hreads := (h.layer front layer back hsplit).reads
      rw [filledBy, List.map_append, ← List.append_assoc] at hx
      rcases List.mem_append.mp hx with hx | hx
      · exact ih hsplit x hx
      · obtain rfl := List.mem_singleton.mp hx
        exact hlayers layer (by simp [hsplit]) fun x hx => ih hsplit x (hreads x hx)
  exact hfront (List.append_nil _).symm x hx

/-- Descriptors that are related at the inputs are related everywhere. -/
theorem Ordered.along {r : Dimension → Dimension → Prop} {small : List Dimension → Prop}
    (h : n.Ordered) (hr : Stable r small) {first second : TensorRef → Option TensorSig}
    (hfirst : n.Describes first) (hsecond : n.Describes second)
    (hsmall : ∀ x ∈ n.filledBy n.layers, ∀ e, second x = some e → small e.dims)
    (hinputs : ∀ input ∈ n.inputs, ∃ d e, first input.tensor = some d ∧
      second input.tensor = some e ∧ d.Along r e) {x : TensorRef} (hx : x ∈ n.filledBy n.layers) :
    ∃ d e, first x = some d ∧ second x = some e ∧ d.Along r e := by
  -- descriptors of operands are small because those of all tensors are
  suffices hrelated : ∃ d e, first x = some d ∧ second x = some e ∧ d.Along r e ∧ small e.dims by
    obtain ⟨d, e, hd, he, hde, -⟩ := hrelated
    exact ⟨d, e, hd, he, hde⟩
  refine @induction n h (fun x => ∃ d e, first x = some d ∧ second x = some e ∧ d.Along r e ∧
    small e.dims) (fun input hinput => ?_) (fun layer hlayer ih => ?_) x hx
  · obtain ⟨d, e, hd, he, hde⟩ := hinputs input hinput
    exact ⟨d, e, hd, he, hde,
      hsmall _ (List.mem_append_left _ (List.mem_map_of_mem hinput)) e he⟩
  · obtain ⟨ds, d, hds, hd, hout⟩ := hfirst layer hlayer
    obtain ⟨es, e, hes, he, hout'⟩ := hsecond layer hlayer
    have hlast := hsmall _ (List.mem_append_right _ (List.mem_map_of_mem hlayer)) e hout'
    have hoperands : List.Forall₂ (fun d e => d.Along r e ∧ small e.dims) ds es := by
      refine Outcome.forall₂_of_forall₂ hds hes fun x hx d e hd he => ?_
      obtain ⟨d', e', hd', he', hde⟩ := ih x hx
      rw [hd] at hd'
      rw [he] at he'
      rwa [Option.some.inj hd', Option.some.inj he']
    refine ⟨d, e, hout, hout', LayerKind.infer_along hr (hoperands.imp fun _ _ h => h.1) ?_ hlast
      hd he, hlast⟩
    intro e he
    obtain ⟨_, -, -, hsmall⟩ := Outcome.exists_of_forall₂ hoperands.flip he
    exact hsmall

/-- Entries of a list of pairs, side by side. -/
theorem forall₂_of_mem_zip {α β : Type} {r : α → β → Prop} {xs : List α} {ys : List β}
    (hlen : xs.length = ys.length) (h : ∀ entry ∈ xs.zip ys, r entry.1 entry.2) :
    List.Forall₂ r xs ys :=
  List.forall₂_iff_zip.mpr ⟨hlen, fun {a b} hmem => h (a, b) hmem⟩

theorem Ordered.describes_of_concreteShapes {extents : List (List Nat)}
    {tensors : Array TensorSig} (h : n.Ordered) (hshapes : n.concreteShapes extents = .ok tensors) :
    n.Describes (fun x => tensors[x.index]?) ∧ List.Forall₂ (fun input dims =>
      tensors[input.tensor.index]? = some (.of input.dtype dims)) n.inputs extents := by
  unfold concreteShapes at hshapes
  obtain ⟨hlen, hshapes⟩ := Outcome.guard_eq_ok.mp hshapes
  obtain ⟨bound, hbound, hlayers⟩ := Outcome.bind_eq_ok.mp hshapes
  rw [not_not] at hlen
  obtain ⟨hkept, hsolved⟩ := @Ordered.solvedBy_of_foldlM n _ _ _ _ inferLayer
    (fun layer operands d => layer.kind.infer operands = .ok d)
    (fun {slots layer number slots'} hstep => by
      obtain ⟨operands, hoperands, hstep⟩ := Outcome.bind_eq_ok.mp hstep
      obtain ⟨d, hd, hwrite⟩ := Outcome.bind_eq_ok.mp hstep
      exact ⟨operands, d, (Outcome.mapM_eq_ok.mp (Outcome.mapError_eq_ok.mp hoperands)).imp
        fun _ _ => readSlot_eq_ok.mp, Outcome.mapError_eq_ok.mp hd,
        Outcome.mapError_eq_ok.mp hwrite⟩) h hlayers
  refine ⟨hsolved, forall₂_of_mem_zip hlen.symm fun entry hentry => ?_⟩
  obtain ⟨-, hfixed⟩ := @bound_of_foldlM _ _ _ _ _ fixInput
    (fun entry : NetworkInput × List Nat => .of entry.1.dtype entry.2)
    (fun hstep => Outcome.mapError_eq_ok.mp hstep) (n.inputs.zip extents)
    (map_tensor_zip hlen ▸ h.nodup_inputs) hbound
  rw [hkept entry.1 (List.of_mem_zip hentry).1]
  exact hfixed entry hentry

end Network

/-! ## Values of a run -/

namespace Engine

variable {n : Network} {c : BuilderConfig} {engine : Engine} {inputs outputs : List Tensor}

/-- The result of a layer, rounded as the engine rounds. -/
def Computes (engine : Engine) (layer : Layer) (operands : List Tensor) (t : Tensor) : Prop :=
  ∃ result, layer.kind.run operands = .ok result ∧ engine.rounded result = .ok t

theorem sig_of_rounded {t u : Tensor} (h : engine.rounded t = .ok u) : u.sig = t.sig := by
  unfold rounded at h
  split at h
  · next hsingle =>
    have hdtype : t.dtype = .f32 := by simpa using (Bool.and_eq_true_iff.mp hsingle).2
    rw [Kernel.sig_of_map (Outcome.mapError_eq_ok.mp h), ← hdtype]
    rfl
  · obtain rfl := Except.ok.inj h
    rfl

/-- Both readers of a filled slot give its tensor; they differ in the fault where there is none. -/
theorem readSlot_bind_eq_ok {slots : Slots} {x : TensorRef} {t : Tensor} {fault : EngineFault} :
    (do match ← readSlot slots x with
      | some t => return t
      | none => throw fault : Except EngineFault Tensor) = .ok t ↔
        slots[x.index]? = some (some t) := by
  rw [Outcome.bind_eq_ok]
  constructor
  · rintro ⟨_ | u, hread, hu⟩
    · cases hu
    · obtain rfl := Outcome.pure_eq_ok.mp hu
      exact readSlot_eq_ok.mp hread
  · exact fun h => ⟨some t, readSlot_eq_ok.mpr h, rfl⟩

theorem filled_eq_ok {slots : Slots} {x : TensorRef} {t : Tensor} :
    filled slots x = .ok t ↔ slots[x.index]? = some (some t) :=
  readSlot_bind_eq_ok

theorem readOutput_eq_ok {slots : Slots} {output : NetworkOutput} {t : Tensor} :
    readOutput slots output = .ok t ↔ slots[output.tensor.index]? = some (some t) :=
  readSlot_bind_eq_ok

theorem checkInput_eq_ok {entry : Tensor × EngineBinding} :
    checkInput entry = .ok () ↔ entry.2.Allows entry.1 := by
  unfold checkInput EngineBinding.Allows
  dsimp only
  rw [Outcome.guard_eq_ok, not_not]
  refine and_congr_right fun _ => ?_
  cases entry.2.shape.admits entry.1.dims with
  | false => exact ⟨fun h => (nomatch h), fun h => (nomatch h)⟩
  | true => exact ⟨fun _ => rfl, fun _ => rfl⟩

theorem checkInputs_eq_ok : engine.checkInputs inputs = .ok () ↔
    List.Forall₂ EngineBinding.Allows engine.inputs inputs := by
  unfold checkInputs
  rw [Outcome.guard_eq_ok, not_not, Outcome.forM_eq_ok, List.forall₂_iff_zip, eq_comm]
  refine and_congr_right fun _ => ⟨fun h b t hmem => ?_, fun h entry hmem => ?_⟩
  · refine checkInput_eq_ok.mp (h (t, b) ?_)
    rw [← List.zip_swap]
    exact List.mem_map.mpr ⟨(b, t), hmem, rfl⟩
  · refine checkInput_eq_ok.mpr (h ?_)
    rw [← List.zip_swap]
    exact List.mem_map.mpr ⟨entry, hmem, rfl⟩

theorem network_of_build (hbuild : n.build c = .ok engine) :
    engine.network = n ∧ engine.inputs = n.inputBindings := by
  obtain ⟨_, -, rfl⟩ := Network.eq_of_build hbuild
  exact ⟨rfl, rfl⟩

/-- Inputs that an engine takes are as many as its network has. -/
theorem length_of_checkInputs (hbuild : n.build c = .ok engine)
    (hinputs : engine.checkInputs inputs = .ok ()) : inputs.length = n.inputs.length := by
  have hlen := (checkInputs_eq_ok.mp hinputs).length_eq
  rw [(network_of_build hbuild).2, Network.inputBindings, List.length_map] at hlen
  exact hlen.symm

/-- A run gives every tensor a value: the inputs those that are given, each layer what it computes,
and the outputs those that are returned. -/
theorem exists_of_execute (hordered : n.Ordered) (hbuild : n.build c = .ok engine)
    (hrun : engine.execute inputs = .ok outputs) : ∃ value? : TensorRef → Option Tensor,
      n.SolvedBy engine.Computes value? ∧
        List.Forall₂ (fun input t => value? input.tensor = some t) n.inputs inputs ∧
          List.Forall₂ (fun output t => value? output.tensor = some t) n.outputs outputs := by
  obtain ⟨hnetwork, -⟩ := network_of_build hbuild
  obtain ⟨⟨⟩, hcheck, hrun⟩ := Outcome.bind_eq_ok.mp hrun
  obtain ⟨bound, hbound, hrun⟩ := Outcome.bind_eq_ok.mp hrun
  obtain ⟨slots, hlayers, houtputs⟩ := Outcome.bind_eq_ok.mp hrun
  have hbound := Outcome.mapError_eq_ok.mp hbound
  have houtputs := Outcome.mapM_eq_ok.mp (Outcome.mapError_eq_ok.mp houtputs)
  have hlen := length_of_checkInputs hbuild (Outcome.mapError_eq_ok.mp hcheck)
  rw [bindInputs, hnetwork] at hbound
  rw [hnetwork] at hlayers houtputs
  obtain ⟨hkept, hsolved⟩ := @Network.Ordered.solvedBy_of_foldlM n _ _ _ _ _
    (fun layer operands result => ∃ ts t, operands = ts.map some ∧ result = some t ∧
      engine.Computes layer ts t)
    (fun {slots layer number slots'} hstep => by
      have hstep : engine.runLayer slots layer = .ok slots' := Outcome.mapError_eq_ok.mp hstep
      obtain ⟨ts, hts, hstep⟩ := Outcome.bind_eq_ok.mp hstep
      obtain ⟨result, hresult, hstep⟩ := Outcome.bind_eq_ok.mp hstep
      obtain ⟨t, ht, hwrite⟩ := Outcome.bind_eq_ok.mp hstep
      refine ⟨ts.map some, some t, ?_, ⟨ts, t, rfl, rfl, result, Outcome.mapError_eq_ok.mp hresult,
        ht⟩, hwrite⟩
      rw [List.forall₂_map_right_iff]
      exact (Outcome.mapM_eq_ok.mp hts).imp fun _ _ => filled_eq_ok.mp) hordered hlayers
  obtain ⟨-, hfilled⟩ := @Network.bound_of_foldlM _ _ _ _ _ _
    (fun entry : NetworkInput × Tensor => some entry.2) (fun hstep => hstep) (n.inputs.zip inputs)
    (Network.map_tensor_zip hlen ▸ hordered.nodup_inputs) hbound
  refine ⟨fun x => (slots[x.index]?).join, fun layer hlayer => ?_,
    Network.forall₂_of_mem_zip hlen.symm fun entry hentry => ?_, ?_⟩
  · obtain ⟨_, _, hreads, ⟨ts, t, rfl, rfl, hcomputes⟩, hout⟩ := hsolved layer hlayer
    exact ⟨ts, t, (List.forall₂_map_right_iff.mp hreads).imp fun _ _ => Option.join_eq_some_iff.mpr,
      hcomputes, Option.join_eq_some_iff.mpr hout⟩
  · exact Option.join_eq_some_iff.mpr
      ((hkept entry.1 (List.of_mem_zip hentry).1).trans (hfilled entry hentry))
  · exact houtputs.imp fun _ _ ht => Option.join_eq_some_iff.mpr (readOutput_eq_ok.mp ht)

/-- Where the inputs conform to their descriptors, all values do. -/
theorem refines_of_solved {value? : TensorRef → Option Tensor} (hordered : n.Ordered)
    (hsolved : n.SolvedBy engine.Computes value?)
    (hinputs : ∀ input ∈ n.inputs, ∃ t d, value? input.tensor = some t ∧
      n.describe? input.tensor = some d ∧ t.sig.Along Dimension.Refines d) {x : TensorRef}
    (hx : x ∈ n.filledBy n.layers) : ∃ t d, value? x = some t ∧ n.describe? x = some d ∧
      t.sig.Along Dimension.Refines d := by
  refine @Network.Ordered.induction n hordered (fun x => ∃ t d, value? x = some t ∧
    n.describe? x = some d ∧ t.sig.Along Dimension.Refines d) hinputs
    (fun layer hlayer ih => ?_) x hx
  obtain ⟨ts, t, hts, ⟨result, hresult, hrounded⟩, hout⟩ := hsolved layer hlayer
  obtain ⟨ds, d, hds, hd, hout'⟩ := hordered.describes layer hlayer
  refine ⟨t, d, hout, hout', ?_⟩
  rw [sig_of_rounded hrounded]
  refine LayerKind.refines_of_run ?_ hd hresult
  refine Outcome.forall₂_of_forall₂ hts hds fun x hx t d ht hd => ?_
  obtain ⟨t', d', ht', hd', htd⟩ := ih x hx
  rw [ht] at ht'
  rw [hd] at hd'
  rwa [Option.some.inj ht', Option.some.inj hd']

/-- The descriptors of the values agree with what is inferred from them. -/
theorem describes_of_solved {value? : TensorRef → Option Tensor} (hordered : n.Ordered)
    (hsolved : n.SolvedBy engine.Computes value?)
    (hinputs : ∀ input ∈ n.inputs, ∃ t d, value? input.tensor = some t ∧
      n.describe? input.tensor = some d ∧ t.sig.Along Dimension.Refines d) :
    n.Describes fun x => (value? x).map Tensor.sig := by
  intro layer hlayer
  obtain ⟨ts, t, hts, ⟨result, hresult, hrounded⟩, hout⟩ := hsolved layer hlayer
  obtain ⟨ds, d, hds, hd, -⟩ := hordered.describes layer hlayer
  refine ⟨ts.map Tensor.sig, t.sig, ?_, ?_, Option.map_eq_some_iff.mpr ⟨t, hout, rfl⟩⟩
  · rw [List.forall₂_map_right_iff]
    exact hts.imp fun _ t ht => Option.map_eq_some_iff.mpr ⟨t, ht, rfl⟩
  · rw [sig_of_rounded hrounded]
    refine LayerKind.infer_of_run ?_ hd hresult
    refine Outcome.forall₂_of_forall₂ hts hds fun x _ t d ht hd => ?_
    have hx : x ∈ n.filledBy n.layers :=
      (hordered.filled x).mpr (Array.getElem?_eq_some_iff.mp hd).1
    obtain ⟨t', d', ht', hd', htd⟩ := refines_of_solved hordered hsolved hinputs hx
    rw [ht] at ht'
    rw [hd] at hd'
    rw [Option.some.inj ht', Option.some.inj hd']
    exact ⟨htd.1, htd.2.imp fun _ _ _ => trivial⟩

end Engine

/-! ## Contracts -/

namespace Network

variable {n : Network}

theorem outputExtents_eq_ok {tensors : Array TensorSig} {output : NetworkOutput} {dims : List Nat}
    (h : outputExtents tensors output = .ok dims) :
    ∃ dtype, tensors[output.tensor.index]? = some (.of dtype dims) := by
  obtain ⟨d, hd, h⟩ := Outcome.bind_eq_ok.mp h
  split at h
  · next known hknown =>
    obtain rfl := Outcome.pure_eq_ok.mp h
    rw [readSlot_eq_ok.mp hd]
    exact ⟨d.dtype, congrArg (fun dims => some (TensorSig.mk d.dtype dims))
      (Inference.eq_map_of_fixedExtents? hknown)⟩
  · cases h

/-- Outputs are measured in descriptors that start from given extents of the inputs. -/
theorem Ordered.measured {pick : ShapeSpec → List Nat} {measured : List (List Nat)}
    (h : n.Ordered) (hmeasured : n.measureOutputs pick = .ok measured) :
    ∃ tensors, n.concreteShapes (n.inputExtents pick) = .ok tensors ∧
      n.Describes (fun x => tensors[x.index]?) ∧
      (∀ input ∈ n.inputs,
        tensors[input.tensor.index]? = some (.of input.dtype (pick input.shape))) ∧
      List.Forall₂ (fun output dims => ∃ dtype,
        tensors[output.tensor.index]? = some (.of dtype dims)) n.outputs measured := by
  obtain ⟨tensors, htensors, houtputs⟩ := Outcome.bind_eq_ok.mp hmeasured
  obtain ⟨hdescribes, hinputs⟩ := h.describes_of_concreteShapes htensors
  rw [inputExtents, List.forall₂_map_right_iff, List.forall₂_same] at hinputs
  exact ⟨tensors, htensors, hdescribes, hinputs,
    (Outcome.mapM_eq_ok.mp (Outcome.mapError_eq_ok.mp houtputs)).imp fun _ _ => outputExtents_eq_ok⟩

/-- Descriptors that start from given extents of the inputs have known extents. -/
theorem Ordered.exists_known {extents : List (List Nat)} {tensors : Array TensorSig}
    (h : n.Ordered) (hshapes : n.concreteShapes extents = .ok tensors) {x : TensorRef}
    (hx : x ∈ n.filledBy n.layers) :
    ∃ dtype dims, tensors[x.index]? = some (.of dtype dims) := by
  obtain ⟨hdescribes, hinputs⟩ := h.describes_of_concreteShapes hshapes
  refine @induction n h (fun x => ∃ dtype dims, tensors[x.index]? = some (.of dtype dims))
    (fun input hinput => ?_) (fun layer hlayer ih => ?_) x hx
  · obtain ⟨dims, -, hdims⟩ := Outcome.exists_of_forall₂ hinputs hinput
    exact ⟨_, dims, hdims⟩
  · obtain ⟨es, e, hes, he, hout⟩ := hdescribes layer hlayer
    have hknown : ∀ e ∈ es, ∃ dims, e = .of e.dtype dims := by
      intro e he
      obtain ⟨x, hx, he⟩ := Outcome.exists_of_forall₂ hes.flip he
      obtain ⟨dtype, dims, he'⟩ := ih x hx
      exact ⟨dims, by rw [Option.some.inj (he.symm.trans he')]; rfl⟩
    obtain ⟨dims, hdims⟩ := LayerKind.exists_known_of_infer he hknown
    exact ⟨_, dims, hdims ▸ hout⟩

/-- At the largest inputs the elements of every tensor can be counted by a signed machine integer,
extents of zero counted as one. -/
def Fits (n : Network) : Prop :=
  ∀ tensors, n.concreteShapes (n.inputExtents ShapeSpec.max) = .ok tensors →
    ∀ d ∈ tensors, ∀ dims, d = .of d.dtype dims → Inference.volume dims < 2 ^ 63

theorem Ordered.small_of_fits {tensors : Array TensorSig} (h : n.Ordered) (hfits : n.Fits)
    (hshapes : n.concreteShapes (n.inputExtents ShapeSpec.max) = .ok tensors) {x : TensorRef}
    (hx : x ∈ n.filledBy n.layers) {e : TensorSig} (he : tensors[x.index]? = some e) :
    Inference.Small e.dims := by
  obtain ⟨dtype, dims, hknown⟩ := h.exists_known hshapes hx
  obtain rfl := Option.some.inj (he.symm.trans hknown)
  exact ⟨dims, rfl, hfits tensors hshapes _ (Array.mem_of_getElem? he) dims rfl⟩

/-- What three lists give for the outputs, and what is made of it. -/
theorem forall₂_of_zip₃ {α β γ δ ε : Type} {p : α → β → Prop} {q : α → γ → Prop} {r : α → δ → Prop}
    {made : α × β × γ × δ → ε → Prop} {as : List α} {bs : List β} {cs : List γ} {ds : List δ}
    {es : List ε} (hp : List.Forall₂ p as bs) (hq : List.Forall₂ q as cs)
    (hr : List.Forall₂ r as ds) (h : List.Forall₂ made (as.zip (bs.zip (cs.zip ds))) es) :
    List.Forall₂ (fun a e => ∃ b c d, p a b ∧ q a c ∧ r a d ∧ made (a, b, c, d) e) as es := by
  induction as generalizing bs cs ds es with
  | nil =>
    cases h
    exact .nil
  | cons a as ih =>
    obtain ⟨b, bs, hb, hbs, rfl⟩ := List.forall₂_cons_left_iff.mp hp
    obtain ⟨c, cs, hc, hcs, rfl⟩ := List.forall₂_cons_left_iff.mp hq
    obtain ⟨d, ds, hd, hds, rfl⟩ := List.forall₂_cons_left_iff.mp hr
    obtain ⟨e, es, he, hes, rfl⟩ := List.forall₂_cons_left_iff.mp h
    exact .cons ⟨b, c, d, hb, hc, hd, he⟩ (ih hbs hcs hds hes)

end Network

namespace Engine

variable {n : Network} {c : BuilderConfig} {engine : Engine} {inputs outputs : List Tensor}

theorem spans_of_checkInputs (hordered : n.Ordered) (hbuild : n.build c = .ok engine)
    (hinputs : engine.checkInputs inputs = .ok ()) :
    List.Forall₂ (fun (input : NetworkInput) t => t.dtype = input.dtype ∧ input.shape.Spans t.dims)
      n.inputs inputs := by
  have hallows := checkInputs_eq_ok.mp hinputs
  rw [(network_of_build hbuild).2, Network.inputBindings, List.forall₂_map_left_iff] at hallows
  have hchecked : ∀ input ∈ n.inputs, input.shape.check = .ok () :=
    fun input hinput => (hordered.input input hinput).2
  exact ((List.forall₂_and_left _ _).mpr ⟨hchecked, hallows⟩).imp fun input t h =>
    ⟨h.2.1, (ShapeSpec.admits_iff_spans h.1).mp h.2.2⟩

/-- Inputs inside their ranges conform to their descriptors. -/
theorem conforming_of_spans {value? : TensorRef → Option Tensor} (hordered : n.Ordered)
    (hinputs : ∀ input ∈ n.inputs, ∃ t, value? input.tensor = some t ∧ t.dtype = input.dtype ∧
      input.shape.Spans t.dims) :
    ∀ input ∈ n.inputs, ∃ t d, value? input.tensor = some t ∧
      n.describe? input.tensor = some d ∧ t.sig.Along Dimension.Refines d := by
  intro input hinput
  obtain ⟨t, ht, hdtype, hspans⟩ := hinputs input hinput
  exact ⟨t, _, ht, (hordered.input input hinput).1, hdtype, hspans.refines⟩

/-- Every value is of the element type that was recorded and of the rank that is inferred at any
inputs. -/
theorem typed_of_solved {value? : TensorRef → Option Tensor} {mid : TensorRef → Option TensorSig}
    (hordered : n.Ordered) (hsolved : n.SolvedBy engine.Computes value?)
    (hinputs : ∀ input ∈ n.inputs, ∃ t, value? input.tensor = some t ∧ t.dtype = input.dtype ∧
      input.shape.Spans t.dims)
    (hmid : n.Describes mid)
    (hopt : ∀ input ∈ n.inputs, mid input.tensor = some (.of input.dtype input.shape.opt))
    {x : TensorRef} (hx : x ∈ n.filledBy n.layers) : ∃ t d typical,
      value? x = some t ∧ n.describe? x = some d ∧ mid x = some typical ∧
        t.dtype = d.dtype ∧ typical.rank = t.rank := by
  obtain ⟨t, d, ht, hd, htd⟩ :=
    refines_of_solved hordered hsolved (conforming_of_spans hordered hinputs) hx
  obtain ⟨typical, d', htypical, hd', hrank⟩ := hordered.along Inference.stable_refines hmid
    hordered.describes (fun _ _ _ _ => trivial) (fun input hinput => ⟨_, _, hopt input hinput,
      (hordered.input input hinput).1, rfl,
      (ShapeSpec.spans_opt (hordered.input input hinput).2).refines⟩) hx
  obtain rfl := Option.some.inj (hd.symm.trans hd')
  refine ⟨t, d, typical, ht, hd, htypical, htd.1, ?_⟩
  rw [hrank.rank_eq, ← htd.rank_eq, Tensor.rank_sig]

/-- Every value lies between what is inferred at the smallest and at the largest inputs, where the
largest are small enough to be counted. -/
theorem bounds_of_solved {value? : TensorRef → Option Tensor} {lo hi : TensorRef → Option TensorSig}
    (hordered : n.Ordered) (hsolved : n.SolvedBy engine.Computes value?)
    (hinputs : ∀ input ∈ n.inputs, ∃ t, value? input.tensor = some t ∧ t.dtype = input.dtype ∧
      input.shape.Spans t.dims)
    (hlo : n.Describes lo)
    (hmin : ∀ input ∈ n.inputs, lo input.tensor = some (.of input.dtype input.shape.min))
    (hhi : n.Describes hi)
    (hmax : ∀ input ∈ n.inputs, hi input.tensor = some (.of input.dtype input.shape.max))
    (hsmall : ∀ x ∈ n.filledBy n.layers, ∀ e, hi x = some e → Inference.Small e.dims)
    {x : TensorRef} (hx : x ∈ n.filledBy n.layers) : ∃ t small large,
      value? x = some t ∧ lo x = some small ∧ hi x = some large ∧
        small.Along Dimension.AtMost t.sig ∧ t.sig.Along Dimension.AtMost large := by
  have hvalues := describes_of_solved hordered hsolved (conforming_of_spans hordered hinputs)
  have hupper : ∀ x ∈ n.filledBy n.layers, ∃ s large, (value? x).map Tensor.sig = some s ∧
      hi x = some large ∧ s.Along Dimension.AtMost large := fun x hx =>
    hordered.along Inference.stable_atMost hvalues hhi hsmall (fun input hinput => by
      obtain ⟨t, ht, hdtype, hspans⟩ := hinputs input hinput
      exact ⟨_, _, Option.map_eq_some_iff.mpr ⟨t, ht, rfl⟩, hmax input hinput, hdtype,
        Inference.forall₂_atMost_iff.mpr ⟨_, _, rfl, rfl, hspans.2⟩⟩) hx
  -- what is no larger than at the largest inputs is small too
  have hcounted : ∀ x ∈ n.filledBy n.layers, ∀ s, (value? x).map Tensor.sig = some s →
      Inference.Small s.dims := by
    intro x hx s hs
    obtain ⟨s', large, hs', hlarge, hle⟩ := hupper x hx
    obtain rfl := Option.some.inj (hs.symm.trans hs')
    exact (hsmall x hx large hlarge).of_le hle.2
  obtain ⟨small, s, hfound, hs, hle⟩ := hordered.along Inference.stable_atMost hlo hvalues hcounted
    (fun input hinput => by
      obtain ⟨t, ht, hdtype, hspans⟩ := hinputs input hinput
      exact ⟨_, _, hmin input hinput, Option.map_eq_some_iff.mpr ⟨t, ht, rfl⟩, hdtype.symm,
        Inference.forall₂_atMost_iff.mpr ⟨_, _, rfl, rfl, hspans.1⟩⟩) hx
  obtain ⟨s', large, hs', hlarge, hge⟩ := hupper x hx
  obtain rfl := Option.some.inj (hs.symm.trans hs')
  obtain ⟨t, ht, rfl⟩ := Option.map_eq_some_iff.mp hs
  exact ⟨t, small, large, ht, hfound, hlarge, hle, hge⟩

/-- Outputs of a run have the element types of their bindings, and extents that these admit where
the largest tensors can be counted. -/
theorem allows_of_execute (hordered : n.Ordered) (hbuild : n.build c = .ok engine)
    (hrun : engine.execute inputs = .ok outputs) :
    List.Forall₂ (fun binding t => t.dtype = binding.dtype ∧
      (n.Fits → binding.shape.admits t.dims = true)) engine.outputs outputs := by
  obtain ⟨⟨⟩, hcheck, -⟩ := Outcome.bind_eq_ok.mp hrun
  have hspans := spans_of_checkInputs hordered hbuild (Outcome.mapError_eq_ok.mp hcheck)
  obtain ⟨value?, hsolved, hgiven, hreturned⟩ := exists_of_execute hordered hbuild hrun
  have hinputs : ∀ input ∈ n.inputs, ∃ t, value? input.tensor = some t ∧ t.dtype = input.dtype ∧
      input.shape.Spans t.dims := by
    intro input hinput
    obtain ⟨t, -, ht, hdtype, hspan⟩ :=
      Outcome.exists_of_forall₂ (Outcome.forall₂_and hgiven hspans) hinput
    exact ⟨t, ht, hdtype, hspan⟩
  obtain ⟨bindings, hbindings, rfl⟩ := Network.eq_of_build hbuild
  obtain ⟨los, hlos, hbindings⟩ := Outcome.bind_eq_ok.mp hbindings
  obtain ⟨mids, hmids, hbindings⟩ := Outcome.bind_eq_ok.mp hbindings
  obtain ⟨his, hhis, hbindings⟩ := Outcome.bind_eq_ok.mp hbindings
  obtain ⟨_, -, hlo, hmin, hlos⟩ := hordered.measured hlos
  obtain ⟨_, -, hmid, hopt, hmids⟩ := hordered.measured hmids
  obtain ⟨_, hlargest, hhi, hmax, hhis⟩ := hordered.measured hhis
  have hmade := Network.forall₂_of_zip₃ hlos hmids hhis (Outcome.mapM_eq_ok.mp hbindings)
  refine Outcome.forall₂_of_forall₂ hmade hreturned fun output houtput binding t hbinding ht => ?_
  obtain ⟨small, typical, large, ⟨_, hsmall⟩, ⟨_, htypical⟩, ⟨_, hlarge⟩, hbinding⟩ := hbinding
  obtain ⟨d, hd, hbinding⟩ := Outcome.bind_eq_ok.mp hbinding
  obtain rfl := Outcome.pure_eq_ok.mp hbinding
  have hd : n.describe? output.tensor = some d :=
    readSlot_eq_ok.mp (Outcome.mapError_eq_ok.mp hd)
  have hfilled := hordered.output output houtput
  obtain ⟨t', d', m, ht', hd', hm, hdtype, hrank⟩ :=
    typed_of_solved hordered hsolved hinputs hmid hopt hfilled
  obtain rfl := Option.some.inj (ht.symm.trans ht')
  obtain rfl := Option.some.inj (hd.symm.trans hd')
  obtain rfl := Option.some.inj (htypical.symm.trans hm)
  refine ⟨hdtype, fun hfits => ?_⟩
  obtain ⟨t', s, l, ht', hs, hl, hle, hge⟩ := bounds_of_solved hordered hsolved hinputs hlo hmin
    hhi hmax (fun _ hx _ => hordered.small_of_fits hfits hlargest hx) hfilled
  obtain rfl := Option.some.inj (ht.symm.trans ht')
  obtain rfl := Option.some.inj (hsmall.symm.trans hs)
  obtain rfl := Option.some.inj (hlarge.symm.trans hl)
  refine ShapeSpec.admits_ofMeasured (Inference.forall₂_atMost_map_fixed.mp hle.2) ?_
    (Inference.forall₂_atMost_map_fixed.mp hge.2)
  simpa [TensorSig.rank, TensorSig.of, Tensor.rank] using hrank

end Engine

/-! ## Faults of a run -/

/-- An objection of a kernel. -/
inductive EngineFault.OfKernel : EngineFault → Prop where
  | run (label name : String) (cause : KernelError) : OfKernel (.run label name cause)
  | rounding (cause : KernelError) : OfKernel (.rounding cause)

namespace Engine

variable {n : Network} {c : BuilderConfig} {engine : Engine} {inputs outputs : List Tensor}
  {slots slots' : Slots}

/-- There is a slot for every tensor, and those that some layers fill are filled. -/
structure Filled (n : Network) (front : List Layer) (slots : Slots) : Prop where
  size : slots.size = n.tensors.size
  filled : ∀ x ∈ n.filledBy front, ∃ t, slots[x.index]? = some (some t)

theorem exists_of_writeSlot {α : Type} {slots : Array α} {x : TensorRef} (h : x.index < slots.size)
    (a : α) : ∃ slots', writeSlot slots x a = .ok slots' :=
  ⟨_, writeSlot_eq_ok.mpr ⟨h, rfl⟩⟩

/-- Inputs are bound without fail. -/
theorem exists_of_bindInputs (hordered : n.Ordered) (hnetwork : engine.network = n)
    (hlen : inputs.length = n.inputs.length) :
    ∃ slots, engine.bindInputs inputs = .ok slots ∧ Filled n [] slots := by
  have hsize : ∀ {entries : List (NetworkInput × Tensor)} {slots slots' : Slots},
      entries.foldlM (fun slots entry => writeSlot slots entry.1.tensor (some entry.2)) slots =
        .ok slots' → slots'.size = slots.size := by
    intro entries slots slots' hrun
    exact Outcome.foldlM_induction (p := fun other => other.size = slots.size)
      (fun hsize hstep => (size_of_writeSlot hstep).trans hsize) rfl hrun
  cases hbound : engine.bindInputs inputs with
  | error fault =>
    rw [bindInputs, hnetwork] at hbound
    obtain ⟨front, entry, back, slots, hsplit, hfront, hfault⟩ :=
      Outcome.exists_of_foldlM_eq_error hbound
    have hentry : entry ∈ n.inputs.zip inputs := hsplit ▸ List.mem_append_cons_self
    obtain ⟨hdescribed, -⟩ := hordered.input entry.1 (List.of_mem_zip hentry).1
    obtain ⟨hlt, -⟩ := Array.getElem?_eq_some_iff.mp hdescribed
    obtain ⟨_, hok⟩ := exists_of_writeSlot
      (((hsize hfront).trans Array.size_replicate).symm ▸ hlt) (some entry.2)
    cases hok.symm.trans hfault
  | ok slots =>
    rw [bindInputs, hnetwork] at hbound
    obtain ⟨-, hgiven⟩ := @Network.bound_of_foldlM _ _ _ _ _ _
      (fun entry : NetworkInput × Tensor => some entry.2) (fun hstep => hstep) (n.inputs.zip inputs)
      (Network.map_tensor_zip hlen ▸ hordered.nodup_inputs) hbound
    refine ⟨slots, rfl, (hsize hbound).trans Array.size_replicate, fun x hx => ?_⟩
    rw [Network.filledBy, List.map_nil, List.append_nil, ← Network.map_tensor_zip hlen] at hx
    obtain ⟨entry, hentry, rfl⟩ := List.mem_map.mp hx
    exact ⟨entry.2, hgiven entry hentry⟩

theorem filled_of_runLayer {front : List Layer} {layer : Layer} (hfilled : Filled n front slots)
    (hrun : engine.runLayer slots layer = .ok slots') : Filled n (front ++ [layer]) slots' := by
  obtain ⟨_, -, hrun⟩ := Outcome.bind_eq_ok.mp hrun
  obtain ⟨_, -, hrun⟩ := Outcome.bind_eq_ok.mp hrun
  obtain ⟨t, -, hwrite⟩ := Outcome.bind_eq_ok.mp hrun
  refine ⟨(size_of_writeSlot hwrite).trans hfilled.size, fun x hx => ?_⟩
  rw [getElem?_of_writeSlot hwrite]
  by_cases hout : x = layer.output
  · exact ⟨t, if_pos hout⟩
  · rw [if_neg hout]
    rw [Network.filledBy, List.map_append, ← List.append_assoc] at hx
    exact hfilled.filled x ((List.mem_append.mp hx).resolve_right fun hlast =>
      hout (List.mem_singleton.mp hlast))

/-- A layer whose operands are filled fails in a kernel only. -/
theorem fault_of_runLayer {front : List Layer} {layer : Layer} {fault : EngineFault}
    (hfilled : Filled n front slots) (hreads : ∀ x ∈ layer.inputs, x ∈ n.filledBy front)
    (houtput : layer.output.index < n.tensors.size)
    (hrun : engine.runLayer slots layer = .error fault) : fault.OfKernel := by
  rcases Outcome.bind_eq_error.mp hrun with hread | ⟨operands, -, hrun⟩
  · obtain ⟨x, hx, hfault⟩ := Outcome.exists_of_mapM_eq_error hread
    obtain ⟨t, ht⟩ := hfilled.filled x (hreads x hx)
    rw [filled_eq_ok.mpr ht] at hfault
    cases hfault
  rcases Outcome.bind_eq_error.mp hrun with hkernel | ⟨result, -, hrun⟩
  · obtain ⟨cause, -, rfl⟩ := Outcome.mapError_eq_error.mp hkernel
    exact .run _ _ cause
  rcases Outcome.bind_eq_error.mp hrun with hrounded | ⟨t, -, hwrite⟩
  · unfold rounded at hrounded
    split at hrounded
    · obtain ⟨cause, -, rfl⟩ := Outcome.mapError_eq_error.mp hrounded
      exact .rounding cause
    · cases hrounded
  · obtain ⟨_, hok⟩ := exists_of_writeSlot (hfilled.size ▸ houtput) (some t)
    rw [hok] at hwrite
    cases hwrite

/-- Layers that are run in order fill all slots. -/
theorem filled_of_layers {front back : List Layer} {number : Nat}
    (hsplit : n.layers = front ++ back) (hfilled : Filled n front slots)
    (hrun : (back.zipIdx number).foldlM (fun slots (layer, number) =>
      (engine.runLayer slots layer).mapError (EngineError.inLayer number)) slots = .ok slots') :
    Filled n n.layers slots' := by
  induction back generalizing front slots number with
  | nil =>
    obtain rfl := Outcome.pure_eq_ok.mp hrun
    rwa [hsplit, List.append_nil]
  | cons layer back ih =>
    rw [List.zipIdx_cons] at hrun
    obtain ⟨next, hnext, hrest⟩ := Outcome.foldlM_cons_eq_ok.mp hrun
    have hsplit' : n.layers = (front ++ [layer]) ++ back := by rw [hsplit, List.append_assoc]; rfl
    exact ih hsplit' (filled_of_runLayer hfilled (Outcome.mapError_eq_ok.mp hnext)) hrest

/-- Layers that are run in order fail in a kernel only. -/
theorem fault_of_layers (hordered : n.Ordered) {front back : List Layer} {number : Nat}
    {error : EngineError} (hsplit : n.layers = front ++ back) (hfilled : Filled n front slots)
    (hrun : (back.zipIdx number).foldlM (fun slots (layer, number) =>
      (engine.runLayer slots layer).mapError (EngineError.inLayer number)) slots = .error error) :
    error.fault.OfKernel := by
  induction back generalizing front slots number with
  | nil => cases hrun
  | cons layer back ih =>
    rw [List.zipIdx_cons, List.foldlM_cons] at hrun
    rcases Outcome.bind_eq_error.mp hrun with hfails | ⟨next, hnext, hrest⟩
    · obtain ⟨fault, hfault, rfl⟩ := Outcome.mapError_eq_error.mp hfails
      have hplaces := hordered.layer front layer back hsplit
      refine fault_of_runLayer hfilled hplaces.reads ((hordered.filled _).mp ?_) hfault
      rw [Network.filledBy, hsplit]
      simp
    · have hsplit' : n.layers = (front ++ [layer]) ++ back := by rw [hsplit, List.append_assoc]; rfl
      exact ih hsplit' (filled_of_runLayer hfilled (Outcome.mapError_eq_ok.mp hnext)) hrest

/-- On inputs that it takes, an engine fails in a kernel only. -/
theorem fault_of_execute {error : EngineError} (hordered : n.Ordered)
    (hbuild : n.build c = .ok engine) (hinputs : engine.checkInputs inputs = .ok ())
    (hrun : engine.execute inputs = .error error) : error.fault.OfKernel := by
  obtain ⟨hnetwork, -⟩ := network_of_build hbuild
  obtain ⟨bound, hbound, hfilled⟩ :=
    exists_of_bindInputs hordered hnetwork (length_of_checkInputs hbuild hinputs)
  unfold execute at hrun
  rw [hinputs, hbound, hnetwork] at hrun
  rcases Outcome.bind_eq_error.mp hrun with hfails | ⟨⟨⟩, -, hrun⟩
  · cases hfails
  rcases Outcome.bind_eq_error.mp hrun with hfails | ⟨_, hstart, hrun⟩
  · cases hfails
  obtain rfl := Except.ok.inj hstart
  rcases Outcome.bind_eq_error.mp hrun with hlayers | ⟨slots, hlayers, houtputs⟩
  · exact fault_of_layers hordered (List.nil_append _).symm hfilled hlayers
  · have hall := filled_of_layers (List.nil_append _).symm hfilled hlayers
    obtain ⟨fault, hfault, rfl⟩ := Outcome.mapError_eq_error.mp houtputs
    obtain ⟨output, houtput, hfault⟩ := Outcome.exists_of_mapM_eq_error hfault
    obtain ⟨t, ht⟩ := hall.filled _ (hordered.output output houtput)
    rw [readOutput_eq_ok.mpr ht] at hfault
    cases hfault

end Engine

end HybridGraph
