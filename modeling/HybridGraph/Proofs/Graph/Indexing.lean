import HybridGraph.Proofs.Graph.SingleAssignment
/-!
# Which graphs have an index, and what it answers

`Graph.DefinesOnce` lists the rules of single assignment for a graph as a whole, without the walk
that checks them one node after the other.  The graphs that keep them are those that have an index
(`singleAssignment_iff`), and every question to the index has the answer that the node list gives:

    ((∃ index, build g = .ok index) ↔ g.DefinesOnce) ∧
      ∀ index, build g = .ok index → index.Answers g                   (build_iff_definesOnce)
-/

namespace HybridGraph

namespace Graph

/-- A place of a graph defines a value: an input does, or a result of a node. -/
def DefinedAt (g : Graph) (v : ValueId) : Definition → Prop
  | .input i => g.inputs[i]? = some v
  | .node id slot => ∃ node ∈ g.nodes, node.id = id ∧ node.outputs[slot]? = some v

/-- The rules of single assignment. -/
structure DefinesOnce (g : Graph) : Prop where
  inputsDistinct : g.inputs.Nodup
  inputsKnown : ∀ v ∈ g.inputs, v.index < g.values.size
  idsDistinct : g.nodeIds.Nodup
  operandsEarlier : ∀ before node after, g.nodes = before ++ node :: after →
    ∀ v ∈ node.inputs, v ∈ g.inputs ∨ ∃ definer ∈ before, v ∈ definer.outputs
  resultsKnown : ∀ node ∈ g.nodes, ∀ v ∈ node.outputs, v.index < g.values.size
  resultsNew : ∀ node ∈ g.nodes, ∀ v ∈ node.outputs, v ∉ g.inputs
  resultsDistinct : (g.nodes.flatMap Node.outputs).Nodup
  outputsDefined : ∀ v ∈ g.outputs, v ∈ g.inputs ∨ ∃ node ∈ g.nodes, v ∈ node.outputs

variable {g : Graph} {v : ValueId}

/-! ## One node after the other -/

/-- A node of a graph that keeps the rules may run after those in front of it. -/
theorem DefinesOnce.mayFollow (h : g.DefinesOnce) {before after : List Node} {node : Node}
    (hsplit : g.nodes = before ++ node :: after) :
    node.MayFollow g.values.size g.inputs before := by
  have hn : node ∈ g.nodes := by simp [hsplit]
  have hids := h.idsDistinct
  rw [nodeIds, hsplit, List.map_append, List.nodup_append] at hids
  obtain ⟨-, -, hids⟩ := hids
  have hresults := h.resultsDistinct
  rw [hsplit, List.flatMap_append, List.flatMap_cons, List.nodup_append] at hresults
  obtain ⟨-, hrest, hfront⟩ := hresults
  exact {
    fresh := fun hm => hids node.id hm node.id (by simp) rfl
    reads := fun v hv => mem_definedBy.mpr (h.operandsEarlier before node after hsplit v hv)
    distinct := (List.nodup_append.mp hrest).1
    unassigned := by
      intro v hv hm
      rcases mem_definedBy.mp hm with hm | ⟨definer, hd, hm⟩
      · exact h.resultsNew node hn v hv hm
      · exact hfront v (List.mem_flatMap.mpr ⟨definer, hd, hm⟩) v
          (List.mem_append_left _ hv) rfl
    known := h.resultsKnown node hn }

/-- The rules of a whole graph are those that the walk checks at every node. -/
theorem singleAssignment_iff : g.SingleAssignment ↔ g.DefinesOnce := by
  constructor
  · intro h
    have hnode : ∀ node ∈ g.nodes, ∃ before,
        node.MayFollow g.values.size g.inputs before := by
      intro node hn
      obtain ⟨before, after, hsplit⟩ := List.append_of_mem hn
      exact ⟨before, h.nodes before node after hsplit⟩
    exact {
      inputsDistinct := h.distinct
      inputsKnown := h.known
      idsDistinct := h.nodes.nodup
      operandsEarlier := fun before node after hsplit v hv =>
        mem_definedBy.mp ((h.nodes before node after hsplit).reads v hv)
      resultsKnown := by
        intro node hn
        obtain ⟨before, hfollow⟩ := hnode node hn
        exact hfollow.known
      resultsNew := fun node hn v hv => h.nodes.not_mem_inputs hn hv
      resultsDistinct := h.nodes.nodup_flatMap_outputs
      outputsDefined := fun v hv => mem_definedBy.mp (h.outputs v hv) }
  · intro h
    exact {
      distinct := h.inputsDistinct
      known := h.inputsKnown
      nodes := fun before node after hsplit => h.mayFollow hsplit
      outputs := fun v hv => mem_definedBy.mpr (h.outputsDefined v hv) }

instance (g : Graph) : Decidable g.DefinesOnce := decidable_of_iff _ singleAssignment_iff

end Graph

namespace GraphIndex

variable {index : GraphIndex} {g : Graph} {v : ValueId}

/-! ## Answers -/

/-- An index answers what its graph says. -/
structure Answers (index : GraphIndex) (g : Graph) : Prop where
  definition : ∀ v site, index.definition? v = some site ↔ g.DefinedAt v site
  producer : ∀ v, index.producer? v = (g.producer? v).map Node.id
  ofInput : ∀ v ∈ g.inputs, index.producer? v = none
  users : ∀ v, index.users v =
    (g.nodes.filter fun node => node.inputs.contains v).map Node.id
  once : ∀ v, (index.users v).Nodup
  dead : ∀ v, index.isDead v = true ↔ (∀ node ∈ g.nodes, v ∉ node.inputs) ∧ v ∉ g.outputs
  position : ∀ id i, index.position? id = some i ↔ g.nodeIds[i]? = some id

/-- No value of a graph with an index is defined at two places. -/
theorem Answers.unique (h : index.Answers g) {site other : Definition}
    (hsite : g.DefinedAt v site) (hother : g.DefinedAt v other) : site = other := by
  have hfirst := (h.definition v site).mpr hsite
  have hsecond := (h.definition v other).mpr hother
  exact Option.some.inj (hfirst.symm.trans hsecond)

theorem Describes.definition (h : index.Describes g.inputs g.nodes) (v : ValueId)
    (site : Definition) : index.definition? v = some site ↔ g.DefinedAt v site := by
  cases site with
  | input i => exact h.input v i
  | node id slot => exact h.node v id slot

/-- The index and a search through the nodes name the same node. -/
theorem Describes.producer (h : index.Describes g.inputs g.nodes) (v : ValueId) :
    index.producer? v = (g.producer? v).map Node.id := by
  cases hproducer : g.producer? v with
  | some node =>
    have hn : node ∈ g.nodes := List.mem_of_find?_eq_some hproducer
    have hv : v ∈ node.outputs := by simpa using List.find?_some hproducer
    obtain ⟨slot, hslot⟩ := List.mem_iff_getElem?.mp hv
    have hdefinition := (h.node v node.id slot).mpr ⟨node, hn, rfl, hslot⟩
    rw [producer?, hdefinition]
    rfl
  | none =>
    have hnone : ∀ node ∈ g.nodes, v ∉ node.outputs := by
      simpa [Graph.producer?] using hproducer
    cases hdefinition : index.definition? v with
    | none => rw [producer?, hdefinition]; rfl
    | some site =>
      cases site with
      | input i => rw [producer?, hdefinition]; rfl
      | node id slot =>
        obtain ⟨node, hn, -, hslot⟩ := (h.node v id slot).mp hdefinition
        exact absurd (List.mem_of_getElem? hslot) (hnone node hn)

/-- Where ids are distinct, the place of a node is where its id stands. -/
theorem findIdx?_id_eq_some {nodes : List Node} (hids : (nodes.map Node.id).Nodup) {id : NodeId}
    {i : Nat} : nodes.findIdx? (·.id = id) = some i ↔ (nodes.map Node.id)[i]? = some id := by
  rw [List.findIdx?_eq_some_iff_getElem, List.getElem?_map, Option.map_eq_some_iff]
  constructor
  · rintro ⟨hi, hid, -⟩
    exact ⟨nodes[i], List.getElem?_eq_getElem hi, by simpa using hid⟩
  · rintro ⟨node, hnode, rfl⟩
    obtain ⟨hi, rfl⟩ := List.getElem?_eq_some_iff.mp hnode
    refine ⟨hi, by simp, fun j hji => ?_⟩
    have hne : nodes[j].id ≠ nodes[i].id :=
      List.pairwise_iff_getElem.mp (List.pairwise_map.mp hids) j i (by omega) hi hji
    simpa using hne

theorem answers_of_build (h : build g = .ok index) : index.Answers g := by
  obtain ⟨hg, hdescribes, houtputs⟩ := describes_of_build h
  have hids : g.nodeIds.Nodup := hg.nodes.nodup
  exact {
    definition := hdescribes.definition
    producer := hdescribes.producer
    ofInput := by
      intro v hv
      obtain ⟨i, hi⟩ := List.mem_iff_getElem?.mp hv
      rw [producer?, (hdescribes.input v i).mpr hi]
    users := hdescribes.users
    once := by
      intro v
      rw [hdescribes.users]
      exact hids.sublist (List.filter_sublist.map _)
    dead := by
      intro v
      rw [isDead, hdescribes.users, isOutput, houtputs]
      simp
    position := by
      intro id i
      rw [hdescribes.position]
      exact findIdx?_id_eq_some hids }

/-! ## Top theorem -/

/-- A graph has an index exactly if it keeps the rules of single assignment, and the index answers
what the graph says. -/
theorem build_iff_definesOnce (g : Graph) :
    ((∃ index, build g = .ok index) ↔ g.DefinesOnce) ∧
      ∀ index, build g = .ok index → index.Answers g := by
  refine ⟨?_, fun index h => answers_of_build h⟩
  rw [← Graph.singleAssignment_iff]
  constructor
  · rintro ⟨index, h⟩
    exact (describes_of_build h).1
  · exact exists_build

/-- Both activations are indexed. -/
theorem build_iff_definesOnce_activations :
    ∃ index, build Graph.activations = .ok index ∧ index.Answers Graph.activations := by
  obtain ⟨hiff, hanswers⟩ := build_iff_definesOnce Graph.activations
  obtain ⟨index, h⟩ := hiff.mpr (by decide)
  exact ⟨index, h, hanswers index h⟩

end GraphIndex

end HybridGraph
