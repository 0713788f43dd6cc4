import HybridGraph.Proofs.Execute.Agreement
import HybridGraph.Proofs.Graph.SingleAssignment
/-!
# Solutions of graphs

Bindings solve a node if running it on the values of its operands gives the values of its results.
What a successful run of nodes in order binds solves every one of them, and nodes in order that
bindings solve run from the same inputs and bind the same values, whatever their order:

    InOrder arena inputs nodes → nodes.foldlM (runNode step) start = .ok bound →
      ∀ node ∈ nodes, bound.Solves step node                              (solves_of_foldlM)
    InOrder arena inputs nodes → Agree inputs start bound →
      (∀ node ∈ nodes, bound.Solves step node) →
      ∃ next, nodes.foldlM (runNode step) start = .ok next ∧ …             (foldlM_of_solves)

So a change of a graph keeps what it computes if the bindings of a run solve the changed nodes too,
which can be checked node by node.  The same holds of what the print nodes are given
(`printedFrom_of_solves`).

A graph is truthful for an interpreter if on every successful run the tensors that it computes have
the element types and ranks that are declared for them.  Inputs are checked before a graph runs, so
a graph that declares nothing about other values is truthful (`truthful_of_declared_inputs`).
-/

namespace HybridGraph

/-! ## Solved nodes -/

namespace Bindings

variable {step : Interpreter} {b bound : Bindings} {node : Node} {vs : List ValueId}
  {xs : List Datum}

/-- The results of a node are what it computes from its operands. -/
def Solves (bound : Bindings) (step : Interpreter) (node : Node) : Prop :=
  ∃ args results, node.inputs.mapM bound.read = .ok args ∧ step node args = .ok results ∧
    node.outputs.mapM bound.read = .ok results

theorem Solves.of_agree (h : b.Solves step node)
    (hagree : Agree (node.inputs ++ node.outputs) bound b) : bound.Solves step node := by
  obtain ⟨args, results, hargs, hresults, houtputs⟩ := h
  refine ⟨args, results, ?_, hresults, ?_⟩
  · rw [hagree.mapM_read (List.subset_append_left _ _), hargs]
  · rw [hagree.mapM_read (List.subset_append_right _ _), houtputs]

/-- Distinct values that were just bound can be read. -/
theorem mapM_read_extend (hvs : vs.Nodup) (hlen : xs.length = vs.length) :
    vs.mapM (b.extend vs xs).read = .ok xs := by
  induction vs generalizing b xs with
  | nil =>
    obtain rfl : xs = [] := List.length_eq_zero_iff.mp hlen
    rfl
  | cons v vs ih =>
    obtain ⟨hv, hvs⟩ := List.nodup_cons.mp hvs
    cases xs with
    | nil => cases hlen
    | cons x xs =>
      rw [extend_cons]
      refine Outcome.mapM_cons_eq_ok.mpr ⟨x, xs, ?_, ih hvs (Nat.succ.inj hlen), rfl⟩
      rw [read_extend_of_notMem hv, read_cons, if_pos rfl]

end Bindings

/-! ## What print nodes are given -/

/-- A print node and the values of its operands; nothing for other nodes. -/
def Node.printed (node : Node) (bound : Bindings) : List (NodeId × List Datum) :=
  if node.kind = .print then
    match node.inputs.mapM bound.read with
    | .ok args => [(node.id, args)]
    | .error _ => []
  else []

namespace Graph

/-- The print nodes that run, in order, with the values of their operands. -/
def printedFrom (step : Interpreter) : Bindings → List Node → List (NodeId × List Datum)
  | _, [] => []
  | bound, node :: rest =>
    node.printed bound ++
      match runNode step bound node with
      | .ok bound => printedFrom step bound rest
      | .error _ => []

/-- What a run of a graph prints. -/
def printed (g : Graph) (step : Interpreter) (inputs : List Tensor) :
    List (NodeId × List Datum) :=
  match g.bindInputs inputs with
  | .ok bound => printedFrom step bound g.nodes
  | .error _ => []

end Graph

section

variable {vs : List ValueId} {b c : Bindings} {node : Node}

theorem Node.printed_congr (h : node.inputs.mapM b.read = node.inputs.mapM c.read) :
    node.printed b = node.printed c := by
  unfold printed
  rw [h]

end

/-! ## Runs and solutions -/

namespace Graph

variable {step : Interpreter} {arena : Nat} {inputs : List ValueId} {nodes front back : List Node}
  {node : Node} {start mid bound : Bindings}

/-- A node that runs after others keeps the values that exist before it. -/
theorem agree_extend {results : List Datum} (hnode : node.MayFollow arena inputs nodes) :
    Bindings.Agree (definedBy inputs nodes) (mid.extend node.outputs results) mid :=
  fun v hv => Bindings.read_extend_of_notMem fun hout => hnode.unassigned v hout hv

/-- Nodes in order read and define only values that exist after them. -/
theorem subset_definedBy (horder : InOrder arena inputs nodes) (hn : node ∈ nodes) :
    node.inputs ++ node.outputs ⊆ definedBy inputs nodes := by
  obtain ⟨front, back, rfl⟩ := List.append_of_mem hn
  have hnode := horder front node back rfl
  refine List.append_subset_of_subset_of_subset (fun v hv => ?_) fun v hv => ?_
  · exact definedBy_subset_append _ _ _ (hnode.reads v hv)
  · exact mem_definedBy.mpr (.inr ⟨node, hn, hv⟩)

/-- What a run binds solves every node that has run. -/
theorem solves_of_foldlM (horder : InOrder arena inputs nodes)
    (h : nodes.foldlM (runNode step) start = .ok bound) :
    ∀ node ∈ nodes, bound.Solves step node := by
  induction nodes using List.reverseRecOn generalizing bound with
  | nil =>
    intro node hn
    cases hn
  | append_singleton nodes last ih =>
    obtain ⟨hnodes, hlast⟩ := inOrder_concat.mp horder
    obtain ⟨mid, hmid, hrun⟩ := foldlM_runNode_concat.mp h
    obtain ⟨args, results, hargs, hresults, hlen, rfl⟩ := runNode_eq_ok.mp hrun
    have hagree : Bindings.Agree (definedBy inputs nodes) (mid.extend last.outputs results) mid :=
      agree_extend hlast
    intro node hn
    rcases List.mem_append.mp hn with hn | hn
    · exact (ih hnodes hmid node hn).of_agree fun v hv => hagree v (subset_definedBy hnodes hn hv)
    · obtain rfl := List.mem_singleton.mp hn
      refine ⟨args, results, ?_, hresults, Bindings.mapM_read_extend hlast.distinct hlen⟩
      rw [hagree.mapM_read hlast.reads, hargs]

/-- Solved nodes run and bind the values of the solution. -/
theorem foldlM_of_solves (horder : InOrder arena inputs nodes)
    (hstart : Bindings.Agree inputs start bound)
    (hsolves : ∀ node ∈ nodes, bound.Solves step node) :
    ∃ next, nodes.foldlM (runNode step) start = .ok next ∧
      Bindings.Agree (definedBy inputs nodes) next bound := by
  induction nodes using List.reverseRecOn with
  | nil =>
    refine ⟨start, rfl, ?_⟩
    simpa [definedBy] using hstart
  | append_singleton nodes last ih =>
    obtain ⟨hnodes, hlast⟩ := inOrder_concat.mp horder
    obtain ⟨mid, hmid, hagree⟩ := ih hnodes fun node hn => hsolves node (List.mem_append_left _ hn)
    obtain ⟨args, results, hargs, hresults, houtputs⟩ :=
      hsolves last (List.mem_append_right _ List.mem_cons_self)
    refine ⟨mid.extend last.outputs results, foldlM_runNode_concat.mpr ⟨mid, hmid, ?_⟩, ?_⟩
    · refine runNode_eq_ok.mpr ⟨args, results, ?_, hresults, ?_, rfl⟩
      · rw [hagree.mapM_read hlast.reads, hargs]
      · exact Bindings.length_of_mapM_read houtputs
    · intro v hv
      rw [definedBy_append, List.flatMap_singleton, List.mem_append] at hv
      rcases hv with hv | hv
      · rw [agree_extend hlast v hv, hagree v hv]
      · exact Bindings.agree_extend_of_mapM_read houtputs v hv

theorem printedFrom_append (h : front.foldlM (runNode step) start = .ok mid) :
    printedFrom step start (front ++ back) =
      printedFrom step start front ++ printedFrom step mid back := by
  induction front generalizing start with
  | nil =>
    obtain rfl := Outcome.pure_eq_ok.mp h
    rfl
  | cons node front ih =>
    obtain ⟨next, hnext, hrest⟩ := Outcome.foldlM_cons_eq_ok.mp h
    rw [List.cons_append, printedFrom, printedFrom, hnext]
    dsimp only
    rw [ih hrest, List.append_assoc]

/-- Solved nodes print the values of the solution. -/
theorem printedFrom_of_solves (horder : InOrder arena inputs nodes)
    (hstart : Bindings.Agree inputs start bound)
    (hsolves : ∀ node ∈ nodes, bound.Solves step node) :
    printedFrom step start nodes = nodes.flatMap (Node.printed · bound) := by
  induction nodes using List.reverseRecOn with
  | nil => rfl
  | append_singleton nodes last ih =>
    obtain ⟨hnodes, hlast⟩ := inOrder_concat.mp horder
    have hfront : ∀ node ∈ nodes, bound.Solves step node := fun node hn =>
      hsolves node (List.mem_append_left _ hn)
    obtain ⟨mid, hmid, hagree⟩ := foldlM_of_solves hnodes hstart hfront
    have hprinted : printedFrom step mid [last] = last.printed mid := by
      rw [printedFrom]
      cases runNode step mid last <;> simp [printedFrom]
    rw [printedFrom_append hmid, ih hnodes hfront, List.flatMap_append, List.flatMap_singleton,
      hprinted, Node.printed_congr (hagree.mapM_read hlast.reads)]

/-! ## Solved graphs -/

/-- A graph in single assignment form whose nodes are solved. -/
structure SolvedBy (g : Graph) (step : Interpreter) (bound : Bindings) : Prop where
  form : g.SingleAssignment
  nodes : ∀ node ∈ g.nodes, bound.Solves step node

end Graph

end HybridGraph

/-! ## Truthful graphs -/

namespace HybridGraph

/-- A tensor has the declared element type and rank, where given. -/
structure TensorType.Describes (type : TensorType) (t : Tensor) : Prop where
  dtype : ∀ d, type.dtype = some d → t.dtype = d
  rank : ∀ r, type.rank? = some r → t.rank = r

namespace Graph

/-- What is declared about values is true of bindings. -/
def TypesHold (g : Graph) (bound : Bindings) : Prop :=
  ∀ v type t, g.tensorType? v = some type → bound.read v = .ok (.tensor t) → type.Describes t

/-- What is declared about values is true on every successful run. -/
def Truthful (g : Graph) (step : Interpreter) : Prop :=
  ∀ inputs outs bound values, g.run step inputs = .ok outs →
    g.execute step inputs = .ok (bound, values) → g.TypesHold bound

variable {g : Graph} {step : Interpreter} {inputs : List Tensor} {start bound : Bindings}

/-- The run of a graph starts alike if inputs and values are the same. -/
theorem bindInputs_congr {g' : Graph} (hvalues : g'.values = g.values)
    (hinputs : g'.inputs = g.inputs) : g'.bindInputs inputs = g.bindInputs inputs := by
  have hcheck : g'.checkInput = g.checkInput := by
    unfold checkInput tensorType? type? value?
    rw [hvalues]
  unfold bindInputs
  rw [hinputs, hcheck]

/-! ## Inputs -/

/-- An input that is not refused is as declared. -/
theorem describes_of_checkInput {input : Nat} {v : ValueId} {t : Tensor} {type : TensorType}
    (h : g.checkInput input v t = .ok ()) (htype : g.tensorType? v = some type) :
    type.Describes t := by
  obtain ⟨dtype, shape⟩ := type
  unfold checkInput at h
  rw [htype] at h
  refine ⟨fun d hd => ?_, fun r hr => ?_⟩
  · dsimp only at hd
    subst hd
    dsimp only at h
    split at h
    · cases h
    · next hd => exact (not_not.mp hd).symm
  · obtain ⟨dims, hdims, rfl⟩ := Option.map_eq_some_iff.mp hr
    dsimp only at hdims
    subst hdims
    by_contra hrank
    have hrefused : (!fitsDeclared dims t.dims) = true := by
      have hlen : dims.length ≠ t.dims.length := fun he => hrank he.symm
      simp [fitsDeclared, hlen]
    simp only [if_pos hrefused] at h
    split at h
    · split at h <;> cases h
    · cases h

/-- A graph that declares nothing about what its nodes define is truthful. -/
theorem truthful_of_declared_inputs (hg : g.SingleAssignment)
    (hdeclared : ∀ v type, g.tensorType? v = some type → v ∈ g.inputs ∨ type = .unknown) :
    g.Truthful step := by
  intro inputs outs bound values _ hexecute v type t htype hread
  obtain ⟨start, hstart, hbound, -⟩ := execute_eq_ok.mp hexecute
  rcases hdeclared v type htype with hv | rfl
  · obtain ⟨hlen, hchecks, rfl⟩ := bindInputs_eq_ok.mp hstart
    have houtside : v ∉ g.nodes.flatMap Node.outputs := by
      intro hout
      obtain ⟨node, hn, hout⟩ := List.mem_flatMap.mp hout
      exact hg.nodes.not_mem_inputs hn hout hv
    rw [read_of_notMem_outputs hbound houtside] at hread
    obtain ⟨i, hi, rfl⟩ := List.mem_iff_getElem.mp hv
    have hi' : i < inputs.length := hlen ▸ hi
    have hbind : (Bindings.extend [] g.inputs (inputs.map .tensor)).read g.inputs[i] =
        .ok (.tensor inputs[i]) := by
      have hall := Outcome.mapM_eq_ok.mp (Bindings.mapM_read_extend (b := []) hg.distinct
        ((List.length_map Datum.tensor).trans hlen))
      simpa using hall.get hi (by rwa [List.length_map])
    obtain rfl : inputs[i] = t := by
      rw [hbind] at hread
      cases hread
      rfl
    refine describes_of_checkInput (hchecks ((g.inputs[i], inputs[i]), i) ?_) htype
    exact List.mem_zipIdx_iff_getElem?.mpr (List.getElem?_zip_eq_some.mpr
      ⟨List.getElem?_eq_getElem hi, List.getElem?_eq_getElem hi'⟩)
  · exact ⟨fun d hd => (nomatch hd), fun r hr => (nomatch hr)⟩

end Graph

end HybridGraph
