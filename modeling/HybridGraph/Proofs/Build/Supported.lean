import HybridGraph.Proofs.Build.Faults
import HybridGraph.Proofs.Conversion.Buildable
/-!
# Networks of planned segments

The network of a segment is built input by input, member by member and output by output.  Each step
keeps that the values so far stand for network tensors with the descriptors of what the interpreter
computes (`EmitState.Carries`), so that a planned segment always has a network, if its members fit
the layers (`Node.FitsLayers`) and what enters it has known extents and needs no narrowing:

    b.InPlan s → b.graph.execute Reference.interpret given = .ok (bound, results) → … →
      ∃ state, b.network s inputs = .ok state                     (exists_network_of_execute)
-/

namespace HybridGraph

/-- A value enters an engine with the element type and the extents that it is computed with. -/
def BoundaryInput.ReadsAs (input : BoundaryInput) (bound : Bindings) : Prop :=
  ∃ t, bound.read input.value = .ok (.tensor t) ∧ input.engine = t.dtype ∧
    input.shape = .fixed t.dims

namespace Network

/-- An input of known extents and a new name can be added. -/
theorem exists_addInput {n : Network} {name : String} (hname : ∀ i ∈ n.inputs, i.name ≠ name)
    (t : Tensor) : ∃ n' x, n.addInput name t.dtype (.fixed t.dims) = .ok (n', x) ∧ n.Keeps n' ∧
      n'.inputs = n.inputs ++ [⟨name, x, t.dtype, .fixed t.dims⟩] ∧ n'.outputs = n.outputs ∧
      n'.describe? x = some t.sig := by
  have hnew : n.inputs.any (·.name == name) = false := by simpa using hname
  have hadd : n.addInput name t.dtype (.fixed t.dims) = .ok
      ({ n with
          tensors := n.tensors.push t.sig
          inputs := n.inputs ++ [⟨name, ⟨n.tensors.size⟩, t.dtype, .fixed t.dims⟩] },
        ⟨n.tensors.size⟩) := by
    rw [addInput, hnew]
    rfl
  refine ⟨_, _, hadd, fun x e he => ?_, rfl, rfl, ?_⟩
  · obtain ⟨hlt, -⟩ := Array.getElem?_eq_some_iff.mp he
    exact (Array.getElem?_push_lt hlt).trans (Array.getElem?_eq_getElem hlt ▸ he)
  · exact Array.getElem?_push_size

/-- A tensor of the network can become an output of a new name. -/
theorem exists_markOutput {n : Network} {x : TensorRef} {d : TensorSig} {name : String}
    (hx : n.describe? x = some d) (hname : ∀ o ∈ n.outputs, o.name ≠ name) :
    ∃ n', n.markOutput x name = .ok n' ∧ n.Keeps n' ∧ n'.outputs = n.outputs ++ [⟨name, x⟩] := by
  have hnew : n.outputs.any (·.name == name) = false := by simpa using hname
  have hmark : n.markOutput x name = .ok { n with outputs := n.outputs ++ [⟨name, x⟩] } := by
    rw [markOutput, describe, hx, hnew]
    rfl
  exact ⟨_, hmark, fun _ _ h => h, rfl⟩

end Network

namespace SegmentBuilder

variable {b : SegmentBuilder Reference.accelerator} {bound : Bindings} {values : List ValueId}
  {segment : Nat} {state : EmitState Reference.accelerator}

/-- Numbers tell names apart. -/
theorem name_ne {stem : String} {j k : Nat} (h : j < k) : s!"{stem}{j}" ≠ s!"{stem}{k}" := by
  intro heq
  have hdigits : j.repr = k.repr := by simpa [toString] using heq
  have hvalues := congrArg (fun digits => Nat.ofDigitChars 10 digits.toList 0) hdigits
  simp only [Nat.toList_repr, Nat.ofDigitChars_toDigits (by decide : 1 < 10) (by decide)] at hvalues
  omega

/-- What enters is carried. -/
theorem exists_addInputs {inputs : List BoundaryInput} {k : Nat}
    (hreads : ∀ input ∈ inputs, input.ReadsAs bound) (hcarries : state.Carries bound values)
    (hnames : ∀ i ∈ Network.inputs state.network, ∃ j < k, i.name = s!"input_{j}") :
    ∃ state', (inputs.zipIdx k).foldlM (addInput segment) state = .ok state' ∧
      state'.Carries bound (values ++ inputs.map BoundaryInput.value) ∧
      state'.outputs = state.outputs := by
  induction inputs generalizing k state values with
  | nil => exact ⟨state, rfl, by simpa using hcarries, rfl⟩
  | cons input inputs ih =>
    obtain ⟨⟨t, hread, hdtype, hshape⟩, hreads⟩ := List.forall_mem_cons.mp hreads
    have hname : ∀ i ∈ Network.inputs state.network, i.name ≠ s!"input_{k}" := by
      intro i hi
      obtain ⟨j, hj, hi⟩ := hnames i hi
      rw [hi]
      exact name_ne hj
    obtain ⟨network, x, hadd, hkeeps, hinputs, houtputs, hx⟩ := Network.exists_addInput hname t
    have hgrows : state.Grows { state with network } := ⟨rfl, hkeeps, houtputs⟩
    have hfirst : addInput segment state (input, k) =
        .ok ({ state with network }.bind input.value x) :=
      addInput_eq_ok.mpr ⟨network, x, hdtype ▸ hshape ▸ hadd, rfl⟩
    have hnext : ∀ i ∈ Network.inputs network, ∃ j < k + 1, i.name = s!"input_{j}" := by
      intro i hi
      rcases List.mem_append.mp (hinputs ▸ hi) with hi | hi
      · obtain ⟨j, hj, hi⟩ := hnames i hi
        exact ⟨j, by omega, hi⟩
      · obtain rfl := List.mem_singleton.mp hi
        exact ⟨k, by omega, rfl⟩
    obtain ⟨state', hrest, hcarries', houtputs'⟩ :=
      ih hreads (hcarries.bind hgrows hread hx) hnext
    refine ⟨state', Outcome.foldlM_cons_eq_ok.mpr ⟨_, hfirst, hrest⟩, ?_, houtputs'.trans houtputs⟩
    rwa [List.append_assoc] at hcarries'

/-- Members are converted. -/
theorem exists_addMembers (hr : b.registry.IsPart) (htypes : b.graph.TypesExact bound)
    {ids : List NodeId} {run : List Node} (hrun : b.graph.Resolves ids run)
    (hsupported : ∀ node ∈ run, b.registry.support b.graph node = .ok ())
    (hsolves : ∀ node ∈ run, bound.Solves Reference.interpret node)
    (hfits : ∀ node ∈ run, ∀ ts, node.inputs.mapM bound.read = .ok (ts.map .tensor) →
      node.FitsLayers ts)
    (hreads : ReadsInOrder values run) (hcarries : state.Carries bound values) :
    ∃ state', ids.foldlM (b.addMember segment) state = .ok state' ∧
      state'.Carries bound (values ++ run.flatMap Node.outputs) ∧
      state'.outputs = state.outputs := by
  induction hrun generalizing values state with
  | nil => exact ⟨state, rfl, by simpa using hcarries, rfl⟩
  | @cons id node ids run hnode hrun ih =>
    obtain ⟨hsupport, hsupported⟩ := List.forall_mem_cons.mp hsupported
    obtain ⟨hsolve, hsolves⟩ := List.forall_mem_cons.mp hsolves
    obtain ⟨hfit, hfits⟩ := List.forall_mem_cons.mp hfits
    obtain ⟨hread, hreads⟩ := hreads.cons
    obtain ⟨next, hconvert, hnext, houtputs⟩ := Registry.exists_convert hr hsupport hsolve htypes
      hfit hread hcarries b.config.truncateWide
    obtain ⟨state', hrest, hcarries', houtputs'⟩ := ih hsupported hsolves hfits hreads hnext
    refine ⟨state', Outcome.foldlM_cons_eq_ok.mpr
      ⟨next, addMember_eq_ok.mpr ⟨node, hnode, hconvert⟩, hrest⟩, ?_, houtputs'.trans houtputs⟩
    rwa [List.append_assoc] at hcarries'

/-- What is carried becomes an output. -/
theorem exists_addOutputs {outputs : List ValueId} {k : Nat} (houtputs : outputs ⊆ values)
    (hcarries : state.Carries bound values)
    (hnames : ∀ o ∈ state.outputs, ∃ j < k, o.name = s!"output_{j}") :
    ∃ state', (outputs.zipIdx k).foldlM (addOutput segment) state = .ok state' := by
  induction outputs generalizing k state with
  | nil => exact ⟨state, rfl⟩
  | cons v outputs ih =>
    obtain ⟨hv, houtputs⟩ := List.cons_subset.mp houtputs
    obtain ⟨t, x, -, hx, hdescribed⟩ := hcarries v hv
    have hname : ∀ o ∈ Network.outputs state.network, o.name ≠ s!"output_{k}" := by
      intro o ho
      obtain ⟨j, hj, ho⟩ := hnames o ho
      rw [ho]
      exact name_ne hj
    obtain ⟨network, hmark, hkeeps, hmarked⟩ := Network.exists_markOutput hdescribed hname
    have hfirst : addOutput segment state (v, k) = .ok { state with network } :=
      addOutput_eq_ok.mpr ⟨x, network, hx, hmark, rfl⟩
    have hnext : ∀ o ∈ Network.outputs network, ∃ j < k + 1, o.name = s!"output_{j}" := by
      intro o ho
      rcases List.mem_append.mp (hmarked ▸ ho) with ho | ho
      · obtain ⟨j, hj, ho⟩ := hnames o ho
        exact ⟨j, by omega, ho⟩
      · obtain rfl := List.mem_singleton.mp ho
        exact ⟨k, by omega, rfl⟩
    have hcarries' : ({ state with network } : EmitState Reference.accelerator).Carries bound
        values := fun w hw => by
      obtain ⟨u, z, hu, hz, hdescribed⟩ := hcarries w hw
      exact ⟨u, z, hu, hz, hkeeps z _ hdescribed⟩
    obtain ⟨state', hrest⟩ := ih houtputs hcarries' hnext
    exact ⟨state', Outcome.foldlM_cons_eq_ok.mpr ⟨_, hfirst, hrest⟩⟩

/-! ## Top theorem -/

/-- The network of a planned segment can be built if its members fit the layers and what enters has
known extents. -/
theorem exists_network {s : Segment} {run : List Node} {inputs : List BoundaryInput}
    (hr : b.registry.IsPart) (h : b.Planned s run) (htypes : b.graph.TypesExact bound)
    (hsolves : ∀ node ∈ run, bound.Solves Reference.interpret node)
    (hfits : ∀ node ∈ run, ∀ ts, node.inputs.mapM bound.read = .ok (ts.map .tensor) →
      node.FitsLayers ts)
    (hinputs : b.boundary s = .ok inputs) (hreads : ∀ input ∈ inputs, input.ReadsAs bound) :
    ∃ state, b.network s inputs = .ok state := by
  have hstart : (EmitState.start Reference.accelerator).Carries bound [] := nofun
  obtain ⟨entered, hentered, hcarries, hnone⟩ := exists_addInputs hreads hstart nofun
  rw [List.nil_append, values_of_boundary hinputs] at hcarries
  obtain ⟨converted, hconverted, hcarries, hnone'⟩ := exists_addMembers hr htypes h.resolves
    h.supported hsolves hfits h.reads hcarries
  have hnames : ∀ o ∈ converted.outputs, ∃ j < 0, o.name = s!"output_{j}" := by
    rw [hnone', hnone]
    exact nofun
  have hdefined : s.outputs ⊆ s.inputs ++ run.flatMap Node.outputs := fun v hv =>
    List.mem_append_right _ (h.defined hv)
  obtain ⟨state, hstate⟩ := exists_addOutputs hdefined hcarries hnames
  exact ⟨state, network_eq_ok.mpr ⟨entered, converted, hentered, hconverted, hstate⟩⟩

/-- If the interpreter runs a graph whose types say exactly what it computes, and every node fits
the layers, then the network of any segment of a plan can be built. -/
theorem exists_network_of_execute {s : Segment} {given : List Tensor} {results : List Datum}
    {inputs : List BoundaryInput} (hverify : b.graph.verify = .ok ()) (hr : b.registry.IsPart)
    (hs : b.InPlan s) (hexecute : b.graph.execute Reference.interpret given = .ok (bound, results))
    (htypes : b.graph.TypesExact bound)
    (hfits : ∀ node ∈ b.graph.nodes, ∀ ts, node.inputs.mapM bound.read = .ok (ts.map .tensor) →
      node.FitsLayers ts)
    (hinputs : b.boundary s = .ok inputs) (hreads : ∀ input ∈ inputs, input.ReadsAs bound) :
    ∃ state, b.network s inputs = .ok state := by
  obtain ⟨options, plan, hplan, hs⟩ := hs
  have hg := (Graph.verify_eq_ok.mp hverify).1
  obtain ⟨run, hrun⟩ := planned_of_partition hg hplan hs
  obtain ⟨start, -, hbound, -⟩ := Graph.execute_eq_ok.mp hexecute
  have hmem : run ⊆ b.graph.nodes := fun node hn => by
    rw [← hrun.resolves.filterMap_eq] at hn
    obtain ⟨id, -, hnode⟩ := List.mem_filterMap.mp hn
    exact List.mem_of_find?_eq_some hnode
  exact exists_network hr hrun htypes
    (fun node hn => Graph.solves_of_foldlM hg.nodes hbound node (hmem hn))
    (fun node hn => hfits node (hmem hn)) hinputs hreads

end SegmentBuilder

end HybridGraph
