import HybridGraph.Proofs.Execute.Solution
import HybridGraph.Proofs.Program.Assembling
/-!
# Programs that are a single call

A program whose only node calls an engine (`HybridProgram.SingleCall`) runs that engine once.  If
nothing is converted on the way in and out (`SegmentEngine.Plain`), the engine reads the graph
inputs that the call names, and every graph output is a result of the engine or a graph input that
is passed on:

    p.run interpret inputs = .ok outs → ∃ start bound ts results,
      Forall₂ (fun v t => start.tensor? v = some t) call.inputs ts ∧
      A.execute engine.engine ts = .ok results ∧
      Forall₂ (fun v t => bound.tensor? v = some t) call.outputs results ∧ …        (exists_of_run)
-/

namespace HybridGraph

/-! ## Tensors that are bound -/

/-- The tensor of an id; none if the value is missing or a scalar. -/
def Bindings.tensor? (bound : Bindings) (v : ValueId) : Option Tensor :=
  (bound.lookup v).bind Datum.tensor?

/-- Values stand for one list of tensors. -/
theorem eq_of_forall₂_some {tensor? : ValueId → Option Tensor} {vs : List ValueId}
    {ts ts' : List Tensor} (h : List.Forall₂ (fun v t => tensor? v = some t) vs ts)
    (h' : List.Forall₂ (fun v t => tensor? v = some t) vs ts') : ts = ts' := by
  refine List.right_unique_forall₂' ?_ h h'
  intro v t t' ht ht'
  exact Option.some.inj (ht.symm.trans ht')

namespace Bindings

variable {bound : Bindings} {v : ValueId} {vs : List ValueId} {t : Tensor} {ts : List Tensor}

theorem tensor?_eq_some : bound.tensor? v = some t ↔ bound.read v = .ok (.tensor t) := by
  unfold tensor? read
  cases bound.lookup v with
  | none => simp
  | some x =>
    cases x with
    | tensor t' => simp [Datum.tensor?]
    | scalar a => simp [Datum.tensor?]

/-- Other tensors stay as they are. -/
theorem tensor?_extend_of_notMem {xs : List Datum} (hv : v ∉ vs) :
    (bound.extend vs xs).tensor? v = bound.tensor? v := by
  refine Option.ext fun t => ?_
  rw [tensor?_eq_some, tensor?_eq_some, read_extend_of_notMem hv]

/-- Distinct values stand for the tensors that they were just bound to. -/
theorem tensor?_extend (hvs : vs.Nodup) (hlen : ts.length = vs.length) :
    List.Forall₂ (fun v t => (bound.extend vs (ts.map .tensor)).tensor? v = some t) vs ts := by
  have hread := mapM_read_extend (b := bound) hvs ((List.length_map Datum.tensor).trans hlen)
  exact (List.forall₂_map_right_iff.mp (Outcome.mapM_eq_ok.mp hread)).imp
    fun _ _ => tensor?_eq_some.mpr

/-- Values that are read as tensors. -/
theorem tensor?_of_toTensor {xs : List Datum} (hread : vs.mapM bound.read = .ok xs)
    (htensor : xs.mapM Datum.toTensor = .ok ts) :
    List.Forall₂ (fun v t => bound.tensor? v = some t) vs ts := by
  refine Outcome.forall₂_of_forall₂ (Outcome.mapM_eq_ok.mp hread).flip
    (Outcome.mapM_eq_ok.mp htensor) fun x _ v t hv hx => tensor?_eq_some.mpr ?_
  cases x with
  | tensor t' => exact Except.ok.inj hx ▸ hv
  | scalar a => cases hx

end Bindings

namespace Graph

variable {g : Graph} {inputs : List Tensor} {start : Bindings}

/-- Before the first node runs, the graph inputs stand for what was given, -/
theorem tensor?_of_bindInputs (hg : g.inputs.Nodup) (h : g.bindInputs inputs = .ok start) :
    List.Forall₂ (fun v t => start.tensor? v = some t) g.inputs inputs := by
  obtain ⟨hlen, -, rfl⟩ := bindInputs_eq_ok.mp h
  exact Bindings.tensor?_extend hg hlen

/-- and nothing else is bound. -/
theorem mem_inputs_of_bindInputs (h : g.bindInputs inputs = .ok start) {v : ValueId} {t : Tensor}
    (hv : start.tensor? v = some t) : v ∈ g.inputs := by
  obtain ⟨-, -, rfl⟩ := bindInputs_eq_ok.mp h
  by_contra hnot
  rw [Bindings.tensor?_extend_of_notMem hnot] at hv
  cases hv

/-- What is given for an input has its declared element type. -/
theorem dtype_of_bindInputs (h : g.bindInputs inputs = .ok start) :
    List.Forall₂ (fun v (t : Tensor) => ∀ d, g.dtype? v = some d → t.dtype = d) g.inputs
      inputs := by
  obtain ⟨hlen, hchecks, -⟩ := bindInputs_eq_ok.mp h
  refine List.forall₂_iff_zip.mpr ⟨hlen.symm, fun {v t} hmem d hd => ?_⟩
  obtain ⟨type, htype, hdtype⟩ := Option.bind_eq_some_iff.mp hd
  obtain ⟨i, hi⟩ := List.mem_iff_getElem?.mp hmem
  exact (describes_of_checkInput (hchecks ((v, t), i) (List.mk_mem_zipIdx_iff_getElem?.mpr hi))
    htype).dtype d hdtype

/-- So every tensor that is bound has the element type declared for it. -/
theorem dtype_of_tensor? (hg : g.inputs.Nodup) (h : g.bindInputs inputs = .ok start) {v : ValueId}
    {t : Tensor} (hv : start.tensor? v = some t) {d : DType} (hd : g.dtype? v = some d) :
    t.dtype = d := by
  obtain ⟨t', -, hbound, hdtype⟩ := Outcome.exists_of_forall₂
    (Outcome.forall₂_and (tensor?_of_bindInputs hg h) (dtype_of_bindInputs h))
    (mem_inputs_of_bindInputs h hv)
  obtain rfl := Option.some.inj (hv.symm.trans hbound)
  exact hdtype d hd

end Graph

/-! ## Ports -/

theorem Tensor.castTo_of_dtype {t : Tensor} {dtype : DType} (h : t.dtype = dtype) :
    t.castTo dtype = t := if_pos h

theorem Tensor.castTo_of_ne {t : Tensor} {dtype : DType} (h : t.dtype ≠ dtype) :
    t.castTo dtype = t.cast dtype := if_neg h

variable {A : Accelerator}

/-- Nothing is converted on the way into an engine and out of it. -/
structure SegmentEngine.Plain (engine : SegmentEngine A) (start : Bindings) : Prop where
  inputs : ∀ port ∈ engine.inputs, ∀ t, start.tensor? port.value = some t → t.dtype = port.engine
  outputs : ∀ ts results, A.execute engine.engine ts = .ok results →
    List.Forall₂ (fun (port : EnginePort) (t : Tensor) => ∀ d, port.declared = some d → t.dtype = d)
      engine.outputs results

namespace HybridProgram

variable {p : HybridProgram A} {engine : SegmentEngine A} {call : Node} {start : Bindings}

theorem callEngine_eq_ok {args results : List Datum} :
    p.callEngine call args = .ok results ↔ ∃ number engine ts outs,
      p.engineOf call = .ok (number, engine) ∧ feeds engine args = .ok ts ∧
        A.execute engine.engine ts = .ok outs ∧ outs.length = engine.outputs.length ∧
          (outs.zip engine.outputs).map (fun entry => entry.2.result entry.1) = results := by
  unfold callEngine
  simp only [Outcome.bind_eq_ok, Outcome.mapError_eq_ok, Outcome.guard_eq_ok, not_not,
    Outcome.pure_eq_ok, Prod.exists]
  constructor
  · rintro ⟨number, engine, hof, ts, hts, outs, houts, hlen, hresults⟩
    exact ⟨number, engine, ts, outs, hof, hts, houts, hlen, hresults⟩
  · rintro ⟨number, engine, ts, outs, hof, hts, houts, hlen, hresults⟩
    exact ⟨number, engine, hof, ts, hts, outs, houts, hlen, hresults⟩

theorem feeds_eq_ok {args : List Datum} {ts : List Tensor} :
    feeds engine args = .ok ts ↔ args.length = engine.inputs.length ∧
      List.Forall₂ (fun (entry : Datum × EnginePort) t => entry.2.feed entry.1 = .ok t)
        (args.zip engine.inputs) ts := by
  unfold feeds
  rw [Outcome.guard_eq_ok, not_not, Outcome.mapM_eq_ok]

/-- Tensors are cast to the types that the engine reads. -/
theorem feeds_tensors {xs : List Tensor} (hlen : xs.length = engine.inputs.length) :
    feeds engine (xs.map .tensor) =
      .ok (List.zipWith (fun t port => t.castTo port.engine) xs engine.inputs) := by
  refine feeds_eq_ok.mpr ⟨(List.length_map _).trans hlen, ?_⟩
  rw [List.zip_map_left, ← List.map_uncurry_zip_eq_zipWith, List.forall₂_map_left_iff,
    List.forall₂_map_right_iff]
  exact List.forall₂_same.mpr fun _ _ => rfl

/-- An engine that nothing is converted for reads what its ports stand for. -/
theorem tensor?_of_feeds (hplain : engine.Plain start) {args : List Datum} {ts : List Tensor}
    (hread : (engine.inputs.map EnginePort.value).mapM start.read = .ok args)
    (hfeeds : feeds engine args = .ok ts) :
    List.Forall₂ (fun v t => start.tensor? v = some t) (engine.inputs.map EnginePort.value) ts := by
  replace hfeeds := (feeds_eq_ok.mp hfeeds).2
  have hinputs := hplain.inputs
  rw [List.forall₂_map_left_iff]
  replace hread := List.forall₂_map_left_iff.mp (Outcome.mapM_eq_ok.mp hread)
  generalize engine.inputs = ports at hinputs hread hfeeds
  induction hread generalizing ts with
  | nil =>
    obtain rfl := List.forall₂_nil_left_iff.mp hfeeds
    exact .nil
  | @cons port arg ports args hport _ ih =>
    rw [List.zip_cons_cons] at hfeeds
    obtain ⟨t, ts, hfeed, hrest, rfl⟩ := List.forall₂_cons_left_iff.mp hfeeds
    refine .cons ?_ (ih (fun port hmem => hinputs port (List.mem_cons_of_mem _ hmem)) hrest)
    cases arg with
    | scalar a => cases hfeed
    | tensor t' =>
      have hbound := Bindings.tensor?_eq_some.mpr hport
      have hsame := Tensor.castTo_of_dtype (hinputs port List.mem_cons_self t' hbound)
      rw [EnginePort.feed, hsame] at hfeed
      exact Except.ok.inj hfeed ▸ hbound

/-- The graph gets the results of such an engine as they are. -/
theorem map_result {ports : List EnginePort} {ts : List Tensor}
    (h : List.Forall₂ (fun (port : EnginePort) (t : Tensor) => ∀ d, port.declared = some d →
      t.dtype = d) ports ts) :
    (ts.zip ports).map (fun entry => entry.2.result entry.1) = ts.map .tensor := by
  induction h with
  | nil => rfl
  | @cons port t ports ts hport _ ih =>
    rw [List.zip_cons_cons, List.map_cons, List.map_cons, ih, EnginePort.result]
    cases hdeclared : port.declared with
    | none => rfl
    | some d => rw [Option.elim_some, Tensor.castTo_of_dtype (hport d hdeclared)]

/-! ## Top theorem -/

/-- The only node of the program calls the engine, with its ports. -/
structure SingleCall (p : HybridProgram A) (call : Node) (engine : SegmentEngine A) : Prop where
  nodes : p.graph.nodes = [call]
  kind : call.isEngineCall = true
  target : ∃ number, p.engineOf call = .ok (number, engine)
  inputs : engine.inputs.map EnginePort.value = call.inputs
  outputs : call.outputs.Nodup

/-- A run of a single call. -/
theorem SingleCall.exists_of_run (h : p.SingleCall call engine) {interpret : Interpreter}
    {inputs outs : List Tensor} (hrun : p.run interpret inputs = .ok outs)
    (hplain : ∀ start, p.graph.bindInputs inputs = .ok start → engine.Plain start) :
    ∃ start bound ts results, p.graph.bindInputs inputs = .ok start ∧
      List.Forall₂ (fun v t => start.tensor? v = some t) call.inputs ts ∧
      A.execute engine.engine ts = .ok results ∧
      List.Forall₂ (fun v t => Bindings.tensor? bound v = some t) call.outputs results ∧
      (∀ v ∉ call.outputs, Bindings.tensor? bound v = start.tensor? v) ∧
      List.Forall₂ (fun v t => Bindings.tensor? bound v = some t) p.graph.outputs outs := by
  obtain ⟨start, bound, values, hstart, hbound, hvalues, houts⟩ := Graph.run_eq_ok.mp hrun
  rw [h.nodes] at hbound
  obtain ⟨bound, hnode, hlast⟩ := Outcome.foldlM_cons_eq_ok.mp hbound
  obtain rfl := Outcome.pure_eq_ok.mp hlast
  obtain ⟨args, answer, hargs, hanswer, hlen, rfl⟩ := Graph.runNode_eq_ok.mp hnode
  rw [step, if_pos h.kind] at hanswer
  obtain ⟨_, _, ts, results, hof, hts, hresults, -, rfl⟩ := callEngine_eq_ok.mp hanswer
  obtain ⟨number, hengine⟩ := h.target
  obtain ⟨rfl, rfl⟩ := Prod.mk.inj (Except.ok.inj (hof.symm.trans hengine))
  rw [map_result ((hplain start hstart).outputs ts results hresults)] at hlen hvalues
  rw [List.length_map] at hlen
  refine ⟨start, start.extend call.outputs (results.map .tensor), ts, results, hstart, ?_, hresults,
    Bindings.tensor?_extend h.outputs hlen, fun v hv => Bindings.tensor?_extend_of_notMem hv,
    Bindings.tensor?_of_toTensor hvalues houts⟩
  rw [← h.inputs] at hargs ⊢
  exact tensor?_of_feeds (hplain start hstart) hargs hts

end HybridProgram

end HybridGraph
