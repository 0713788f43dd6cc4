import HybridGraph.Proofs.Graph.RoundTrip
import Mathlib.Data.Set.Function
/-!
# Graphs whose values and nodes are numbered anew

The text of a graph says nothing of numbers: it introduces values in the order in which they are
defined, and says which label each has.  The graph that is read from it is the graph with the values
and nodes numbered in that order, each value named by its label (`Graph.renumbered`).  So a graph
that does not have more nodes than there are ids comes back from its text, up to numbers and to the
names that labels become, if it is legible and no two values that it defines share a label:

    g.verify = .ok () → g.nodes.length < 2 ^ 32 → (∀ node ∈ g.nodes, Payloads g node) → g.Legible →
      Set.InjOn g.label g.defined → Graph.parse g.text = .ok g.renumbered (parse_text_renumbered)
    g.Renumbers g.renumbered                                           (renumbers_renumbered)
-/

namespace HybridGraph

/-- A node with the id of its place, of values with other numbers. -/
def Node.renumber (place : ValueId → ValueId) (number : Nat) (node : Node) : Node :=
  { node with
    id := Graph.nthId number
    inputs := node.inputs.map place
    outputs := node.outputs.map place }

namespace Graph

/-- The values that a graph defines, in the order in which its text introduces them. -/
def introduced (g : Graph) : List ValueId := definedBy g.inputs g.nodes

/-- The values that a graph defines. -/
def defined (g : Graph) : Set ValueId := {v | v ∈ g.introduced}

/-- The label of a value without its mark. -/
def handle (g : Graph) (v : ValueId) : String := (g.name? v).getD s!"_{v.index}"

/-- The number of a value in the order of the text. -/
def place (g : Graph) (v : ValueId) : ValueId := ⟨g.introduced.idxOf v⟩

/-- The graph with values and nodes numbered in the order of its text and values named by their
labels. -/
def renumbered (g : Graph) : Graph where
  name := g.name
  values := (g.introduced.map fun v => ⟨g.typeOf v, some (g.handle v)⟩).toArray
  nodes := g.nodes.mapIdx (Node.renumber g.place)
  inputs := g.inputs.map g.place
  outputs := g.outputs.map g.place
  nextNode := NodeId.nextAfter 0 g.nodes.length

/-- Graphs that differ in the numbers of their values and nodes: types and labels of the values that
they define go with the values, everything else is the same, part by part and in order. -/
structure Renumbers (g g' : Graph) : Prop where
  name : g'.name = g.name
  values : ∃ r : ValueId → ValueId, Set.BijOn r g.defined g'.defined ∧
    (∀ v ∈ g.defined, g'.typeOf (r v) = g.typeOf v ∧ g'.label (r v) = g.label v) ∧
    g'.inputs = g.inputs.map r ∧ g'.outputs = g.outputs.map r ∧
    List.Forall₂ (fun node node' : Node => node'.kind = node.kind ∧ node'.attrs = node.attrs ∧
      node'.scope = node.scope ∧ node'.inputs = node.inputs.map r ∧
      node'.outputs = node.outputs.map r) g.nodes g'.nodes

variable {g : Graph} {v w : ValueId}

/-! ## Labels -/

theorem label_eq (g : Graph) (v : ValueId) : g.label v = "%" ++ g.handle v := by
  unfold label handle name?
  cases (g.value? v).bind ValueInfo.name with
  | none => rfl
  | some name => rfl

theorem toList_unnamed (n : Nat) : (s!"_{n}").toList = '_' :: Nat.toDigits 10 n := by
  rw [← Text.toList_toString_nat]
  simp [toString]

/-- Underscores and numbers tell values apart. -/
theorem unnamed_inj {m n : Nat} (h : s!"_{m}" = s!"_{n}") : m = n := by
  have hdigits := congrArg String.toList h
  rw [toList_unnamed, toList_unnamed, List.cons.injEq] at hdigits
  rw [← Text.digitsValue_toDigits m, hdigits.2, Text.digitsValue_toDigits]

theorem label_inj_iff : g.label v = g.label w ↔ g.handle v = g.handle w := by
  rw [label_eq, label_eq]
  constructor
  · intro h
    have hchars := congrArg String.toList h
    rw [String.toList_append, String.toList_append] at hchars
    exact String.toList_inj.mp (List.append_cancel_left hchars)
  · exact congrArg _

/-- Where names are distinct, labels are distinct exactly if no value has a name that is the label
of another one without a name. -/
theorem injOn_label_iff
    (hnames : ∀ v w name, g.name? v = some name → g.name? w = some name → v = w) :
    Set.InjOn g.label g.defined ↔ ∀ v ∈ g.defined, ∀ w ∈ g.defined, g.name? w = none →
      g.name? v ≠ some s!"_{w.index}" := by
  constructor
  · intro h v hv w hw hnone hname
    have hlabels : g.label v = g.label w := by
      rw [label_inj_iff, handle, handle, hname, hnone]
      rfl
    rw [h hv hw hlabels, hnone] at hname
    cases hname
  · intro h v hv w hw hlabels
    rw [label_inj_iff, handle, handle] at hlabels
    cases hv' : g.name? v with
    | none =>
      cases hw' : g.name? w with
      | none =>
        rw [hv', hw'] at hlabels
        exact congrArg ValueId.mk (unnamed_inj hlabels)
      | some name =>
        rw [hv', hw'] at hlabels
        exact absurd (hw'.trans (congrArg some hlabels.symm)) (h w hw v hv hv')
    | some name =>
      cases hw' : g.name? w with
      | none =>
        rw [hv', hw'] at hlabels
        exact absurd (hv'.trans (congrArg some hlabels)) (h v hv w hw hw')
      | some other =>
        rw [hv', hw'] at hlabels
        exact hnames v w name hv' (hw'.trans (congrArg some hlabels.symm))

/-! ## Numbers -/

theorem SingleAssignment.nodup_introduced (h : g.SingleAssignment) : g.introduced.Nodup := by
  refine List.nodup_append.mpr ⟨h.distinct, h.nodes.nodup_flatMap_outputs, fun v hv w hw heq => ?_⟩
  obtain ⟨node, hn, hout⟩ := List.mem_flatMap.mp hw
  exact h.nodes.not_mem_inputs hn hout (heq ▸ hv)

/-- What nodes read is defined. -/
theorem SingleAssignment.inputs_subset (h : g.SingleAssignment) {node : Node}
    (hn : node ∈ g.nodes) : node.inputs ⊆ g.introduced := by
  obtain ⟨before, after, hsplit⟩ := List.append_of_mem hn
  intro v hv
  have hdefined := (h.nodes before node after hsplit).reads v hv
  rw [introduced, hsplit]
  exact definedBy_subset_append _ _ _ hdefined

theorem outputs_subset_introduced {node : Node} (hn : node ∈ g.nodes) :
    node.outputs ⊆ g.introduced := fun _ hv => mem_definedBy.mpr (.inr ⟨node, hn, hv⟩)

theorem place_inj (hv : v ∈ g.introduced) (h : g.place v = g.place w) : v = w :=
  (List.idxOf_inj hv).mp (congrArg ValueId.index h)

theorem value?_renumbered (hv : v ∈ g.introduced) :
    g.renumbered.value? (g.place v) = some ⟨g.typeOf v, some (g.handle v)⟩ := by
  show ((g.introduced.map _).toArray)[g.introduced.idxOf v]? = _
  rw [List.getElem?_toArray, List.getElem?_map, List.getElem?_idxOf hv, Option.map_some]

theorem typeOf_renumbered (hv : v ∈ g.introduced) :
    g.renumbered.typeOf (g.place v) = g.typeOf v := by
  rw [typeOf, type?, value?_renumbered hv]
  rfl

theorem label_renumbered (hv : v ∈ g.introduced) :
    g.renumbered.label (g.place v) = g.label v := by
  rw [label, value?_renumbered hv, label_eq]
  rfl

/-- What is said of nodes without their numbers. -/
theorem map_mapIdx_renumber {α : Type} {place : ValueId → ValueId} {part part' : Node → α}
    (h : ∀ number node, part (Node.renumber place number node) = part' node) (nodes : List Node) :
    (nodes.mapIdx (Node.renumber place)).map part = nodes.map part' :=
  List.ext_getElem (by simp) fun i hi hi' => by simp [h]

theorem map_id_mapIdx_renumber (place : ValueId → ValueId) (nodes : List Node) :
    (nodes.mapIdx (Node.renumber place)).map Node.id = (List.range nodes.length).map nthId :=
  List.ext_getElem (by simp) fun i hi hi' => by simp [Node.renumber]

theorem definedBy_renumber (place : ValueId → ValueId) (inputs : List ValueId)
    (nodes : List Node) : definedBy (inputs.map place) (nodes.mapIdx (Node.renumber place)) =
      (definedBy inputs nodes).map place := by
  have houtputs : (nodes.mapIdx (Node.renumber place)).map Node.outputs =
      nodes.map fun node => node.outputs.map place := map_mapIdx_renumber (fun _ _ => rfl) nodes
  rw [definedBy, definedBy, List.map_append, List.flatMap_def, houtputs, ← List.flatMap_def,
    List.map_flatMap]

theorem introduced_renumbered (h : g.SingleAssignment) :
    g.renumbered.introduced = (List.range g.introduced.length).map ValueId.mk := by
  have hplaces : g.introduced.map g.place = (List.range g.introduced.length).map ValueId.mk := by
    refine List.ext_getElem (by simp) fun i hi hi' => ?_
    rw [List.length_map] at hi
    simp [place, h.nodup_introduced.idxOf_getElem i hi]
  rw [← hplaces]
  exact definedBy_renumber g.place g.inputs g.nodes

/-- As long as there are ids left, places have ids of their own. -/
theorem nthId_inj {i j : Nat} (hi : i < 2 ^ 32) (hj : j < 2 ^ 32) (h : nthId i = nthId j) :
    i = j := by
  have hnumber := congrArg NodeId.number h
  dsimp only [nthId] at hnumber
  rw [NodeId.nextAfter_eq (by omega), NodeId.nextAfter_eq (by omega)] at hnumber
  omega

/-! ## Structure -/

theorem inOrder_renumber {nodes : List Node} (hnodes : InOrder g.values.size g.inputs nodes)
    (hsub : definedBy g.inputs nodes ⊆ g.introduced) (hroom : nodes.length < 2 ^ 32) :
    InOrder g.introduced.length (g.inputs.map g.place) (nodes.mapIdx (Node.renumber g.place)) := by
  intro before' node' after' hsplit
  obtain ⟨before, rest, hnodes', rfl, hrest⟩ := List.mapIdx_eq_append_iff.mp hsplit
  obtain ⟨node, after, rfl, rfl, -⟩ := List.mapIdx_eq_cons_iff.mp hrest
  have hmay := hnodes before node after hnodes'
  have hdefined : ∀ {v}, v ∈ definedBy g.inputs before ∨ v ∈ node.outputs → v ∈ g.introduced := by
    intro v hv
    refine hsub ?_
    rw [hnodes', ← List.singleton_append, ← List.append_assoc]
    refine definedBy_subset_append _ _ _ ?_
    rw [definedBy_append, List.flatMap_singleton, List.mem_append]
    exact hv
  refine ⟨?_, ?_, ?_, ?_, ?_⟩
  · rw [map_id_mapIdx_renumber]
    intro hmem
    obtain ⟨i, hi, heq⟩ := List.mem_map.mp hmem
    have hi := List.mem_range.mp hi
    have hlt : before.length < nodes.length := by simp [hnodes']
    have hsame := nthId_inj (by omega) (by omega) heq
    omega
  · rw [definedBy_renumber]
    exact List.forall_mem_map.mpr fun v hv => List.mem_map_of_mem (hmay.reads v hv)
  · exact hmay.distinct.map_on fun v hv w _ heq => place_inj (hdefined (.inr hv)) heq
  · rw [definedBy_renumber]
    refine List.forall_mem_map.mpr fun v hv hmem => ?_
    obtain ⟨w, hw, heq⟩ := List.mem_map.mp hmem
    exact hmay.unassigned v hv (place_inj (hdefined (.inl hw)) heq ▸ hw)
  · exact List.forall_mem_map.mpr fun v hv => List.idxOf_lt_length_of_mem (hdefined (.inr hv))

/-- A node of the graph with new numbers is one of the graph. -/
theorem exists_of_mem_renumbered {node' : Node} (hn : node' ∈ g.renumbered.nodes) :
    ∃ node ∈ g.nodes, ∃ number < g.nodes.length, node' = node.renumber g.place number := by
  obtain ⟨number, hnumber, rfl⟩ := List.mem_iff_getElem.mp hn
  have hlt : number < g.nodes.length := by
    rwa [renumbered, List.length_mapIdx] at hnumber
  exact ⟨g.nodes[number], List.getElem_mem hlt, number, hlt, List.getElem_mapIdx⟩

theorem size_renumbered : g.renumbered.values.size = g.introduced.length := by
  rw [renumbered, List.size_toArray, List.length_map]

/-- Every value of the graph with new numbers stands for one that is introduced. -/
theorem exists_place (h : g.SingleAssignment) {v' : ValueId}
    (hv' : v'.index < g.introduced.length) : ∃ v ∈ g.introduced, v' = g.place v := by
  refine ⟨_, List.getElem_mem hv', ?_⟩
  rw [place, h.nodup_introduced.idxOf_getElem]

theorem SingleAssignment.renumbered (h : g.SingleAssignment) (hroom : g.nodes.length < 2 ^ 32) :
    g.renumbered.SingleAssignment where
  distinct := h.distinct.map_on fun v hv w _ heq =>
    place_inj (mem_definedBy.mpr (.inl hv)) heq
  known := by
    refine List.forall_mem_map.mpr fun v hv => ?_
    rw [size_renumbered]
    exact List.idxOf_lt_length_of_mem (mem_definedBy.mpr (.inl hv))
  nodes := by
    have horder := inOrder_renumber h.nodes (List.Subset.refl _) hroom
    rw [size_renumbered]
    exact horder
  outputs := by
    refine List.forall_mem_map.mpr fun v hv => ?_
    have hdefined := definedBy_renumber g.place g.inputs g.nodes
    exact hdefined ▸ List.mem_map_of_mem (h.outputs v hv)

theorem verify_renumbered (h : g.verify = .ok ()) (hroom : g.nodes.length < 2 ^ 32) :
    g.renumbered.verify = .ok () := by
  obtain ⟨hform, hchecks⟩ := verify_eq_ok.mp h
  refine verify_eq_ok.mpr ⟨hform.renumbered hroom, fun node' hn' => ?_⟩
  obtain ⟨node, hn, number, -, rfl⟩ := exists_of_mem_renumbered hn'
  have harity := checkNode_eq_ok.mp (hchecks node hn)
  rw [checkNode_eq_ok]
  simpa [Node.renumber] using harity

/-- Distinct labels are distinct names. -/
theorem numbered_renumbered (h : g.SingleAssignment) (hlabels : Set.InjOn g.label g.defined) :
    g.renumbered.Numbered := by
  have hname : ∀ v ∈ g.introduced, g.renumbered.name? (g.place v) = some (g.handle v) := by
    intro v hv
    rw [name?, value?_renumbered hv]
    rfl
  refine ⟨?_, ?_, ?_, fun v' hv' => ?_, fun v' w' name hv' hw' => ?_⟩
  · rw [size_renumbered]
    exact introduced_renumbered h
  · rw [renumbered, List.length_mapIdx]
    exact map_id_mapIdx_renumber g.place g.nodes
  · rw [renumbered, List.length_mapIdx]
  · obtain ⟨v, hv, rfl⟩ := exists_place h (size_renumbered ▸ hv')
    exact ⟨g.handle v, hname v hv⟩
  · obtain ⟨v, hv, rfl⟩ := exists_place h (size_renumbered ▸ lt_of_name? hv')
    obtain ⟨w, hw, rfl⟩ := exists_place h (size_renumbered ▸ lt_of_name? hw')
    rw [hname v hv] at hv'
    rw [hname w hw] at hw'
    rw [hlabels hv hw (label_inj_iff.mpr (Option.some.inj (hv'.trans hw'.symm)))]

/-! ## Texts -/

/-- The text says nothing of numbers. -/
theorem text_renumbered (h : g.SingleAssignment) : g.renumbered.text = g.text := by
  have hlabels : ∀ {vs : List ValueId}, vs ⊆ g.introduced →
      g.renumbered.labels (vs.map g.place) = g.labels vs := by
    intro vs hvs
    unfold labels
    rw [List.map_map]
    exact congrArg _ (List.map_congr_left fun v hv => label_renumbered (hvs hv))
  have hbindings : ∀ {vs : List ValueId}, vs ⊆ g.introduced →
      g.renumbered.bindings (vs.map g.place) = g.bindings vs := by
    intro vs hvs
    unfold bindings
    rw [List.map_map]
    refine congrArg _ (List.map_congr_left fun v hv => ?_)
    rw [Function.comp_apply, binding, binding, label_renumbered (hvs hv),
      typeOf_renumbered (hvs hv)]
  have hnodes : g.renumbered.nodes.map g.renumbered.nodeText = g.nodes.map g.nodeText := by
    refine List.ext_getElem (by simp [renumbered]) fun i hi hi' => ?_
    rw [List.length_map] at hi'
    have hn := List.getElem_mem hi'
    have hlt : i < g.renumbered.nodes.length := by simpa using hi
    have hnode : g.renumbered.nodes[i] = g.nodes[i].renumber g.place i := List.getElem_mapIdx
    rw [List.getElem_map, List.getElem_map, hnode, nodeText, nodeText]
    simp only [Node.renumber, hlabels (h.inputs_subset hn),
      hbindings (outputs_subset_introduced hn), List.isEmpty_map]
  have hinputs : g.inputs ⊆ g.introduced := fun v hv => mem_definedBy.mpr (.inl hv)
  have houtputs : g.outputs ⊆ g.introduced := h.outputs
  unfold text
  rw [hnodes]
  show s!"graph {g.name}({g.renumbered.bindings (g.inputs.map g.place)}):\n" ++ _ ++
    s!"  return ({g.renumbered.labels (g.outputs.map g.place)})\n" = _
  rw [hbindings hinputs, hlabels houtputs]

/-- What nodes hold goes with the types of their results. -/
theorem payloads_renumbered (h : ∀ node ∈ g.nodes, Source.Payloads g node) :
    ∀ node ∈ g.renumbered.nodes, Source.Payloads g.renumbered node := by
  intro node' hn'
  obtain ⟨node, hn, number, -, rfl⟩ := exists_of_mem_renumbered hn'
  obtain ⟨hplain, htensor, hconstant⟩ := h node hn
  have hsingle : ∀ {v'}, node.outputs.map g.place = [v'] →
      ∃ v, node.outputs = [v] ∧ g.renumbered.typeOf v' = g.typeOf v := by
    intro v' hv'
    obtain ⟨v, hv, rfl⟩ := List.map_eq_singleton_iff.mp hv'
    exact ⟨v, hv, typeOf_renumbered (outputs_subset_introduced hn (by simp [hv]))⟩
  refine ⟨hplain, fun hkind v' hv' name t hget => ?_, fun hkind v' hv' type htype => ?_⟩
  · obtain ⟨v, hv, htype⟩ := hsingle hv'
    rw [htype]
    exact htensor hkind v hv name t hget
  · obtain ⟨v, hv, hsame⟩ := hsingle hv'
    exact hconstant hkind v hv type (hsame ▸ htype)

/-- A number behind an underscore is a name that is cut out again. -/
theorem legibleName_unnamed (n : Nat) : LegibleName s!"_{n}" := by
  have hnumerals : ∀ c ∈ Nat.toDigits 10 n, Text.isNumeral c = true := fun c hc =>
    Text.isNumeral_of_isDigit (Text.isDigit_of_mem_toDigits hc)
  constructor
  · rw [toList_unnamed]
    exact List.forall_mem_cons.mpr ⟨by decide, Source.Bare.of_numerals hnumerals⟩
  · intro c hc
    rw [toList_unnamed, List.getLast?_cons] at hc
    cases hlast : (Nat.toDigits 10 n).getLast? with
    | none => exact absurd (List.getLast?_eq_none_iff.mp hlast) Nat.toDigits_ne_nil
    | some d =>
      rw [hlast] at hc
      obtain rfl := Option.some.inj hc
      exact Text.isBlank_of_isNumeral (hnumerals _ (List.mem_of_getLast? hlast))

theorem Legible.renumbered (h : g.SingleAssignment) (hlegible : g.Legible) :
    g.renumbered.Legible where
  ne_empty := hlegible.ne_empty
  tight := hlegible.tight
  line := hlegible.line
  types := by
    intro v' info hinfo
    obtain ⟨v, hv, rfl⟩ :=
      exists_place h (size_renumbered ▸ (Array.getElem?_eq_some_iff.mp hinfo).1)
    rw [value?_renumbered hv] at hinfo
    obtain rfl := Option.some.inj hinfo
    obtain ⟨held, hheld⟩ : ∃ held, g.value? v = some held :=
      ⟨_, Array.getElem?_eq_getElem (h.index_lt hv)⟩
    have htype : g.typeOf v = held.type := by
      rw [typeOf, type?, hheld]
      rfl
    exact htype ▸ hlegible.types v held hheld
  names := by
    intro v' name hname
    obtain ⟨v, hv, rfl⟩ := exists_place h (size_renumbered ▸ lt_of_name? hname)
    rw [name?, value?_renumbered hv] at hname
    obtain rfl := Option.some.inj hname
    show LegibleName (g.handle v)
    unfold handle
    cases hheld : g.name? v with
    | none => exact legibleName_unnamed v.index
    | some name => exact hlegible.names v name hheld
  attrs := by
    intro node' hn'
    obtain ⟨node, hn, number, -, rfl⟩ := exists_of_mem_renumbered hn'
    exact hlegible.attrs node hn
  scopes := by
    intro node' hn'
    obtain ⟨node, hn, number, -, rfl⟩ := exists_of_mem_renumbered hn'
    exact hlegible.scopes node hn

/-! ## Top theorems -/

/-- New numbers change nothing else. -/
theorem renumbers_renumbered (g : Graph) : g.Renumbers g.renumbered := by
  have hmem : ∀ v', v' ∈ g.renumbered.introduced ↔ ∃ v ∈ g.introduced, g.place v = v' := by
    intro v'
    rw [introduced, renumbered, definedBy_renumber]
    exact List.mem_map
  refine ⟨rfl, g.place, ⟨fun v hv => ?_, fun v hv w _ heq => place_inj hv heq, fun v' hv' => ?_⟩,
    fun v hv => ⟨typeOf_renumbered hv, label_renumbered hv⟩, rfl, rfl, ?_⟩
  · exact (hmem (g.place v)).mpr ⟨v, hv, rfl⟩
  · exact (hmem v').mp hv'
  · rw [List.forall₂_iff_get]
    refine ⟨(List.length_mapIdx).symm, fun i hi hi' => ?_⟩
    have hnode : g.renumbered.nodes[i] = g.nodes[i].renumber g.place i := List.getElem_mapIdx
    rw [List.get_eq_getElem, List.get_eq_getElem, hnode]
    exact ⟨rfl, rfl, rfl, rfl, rfl⟩

/-- A legible graph in which no two values share a label, and that does not have more nodes than
there are ids, comes back from its text up to numbers. -/
theorem parse_text_renumbered (h : g.verify = .ok ()) (hroom : g.nodes.length < 2 ^ 32)
    (hpayloads : ∀ node ∈ g.nodes, Source.Payloads g node) (hlegible : g.Legible)
    (hlabels : Set.InjOn g.label g.defined) : Graph.parse g.text = .ok g.renumbered := by
  have hform := (verify_eq_ok.mp h).1
  rw [← text_renumbered hform]
  exact parse_text (verify_renumbered h hroom) (numbered_renumbered hform hlabels)
    (payloads_renumbered hpayloads) (hlegible.renumbered hform)

end Graph

end HybridGraph
