import HybridGraph.Proofs.Build.Numbering
import HybridGraph.Proofs.Build.Planned
import Mathlib.Data.Set.Function
/-!
# Fingerprints know segments up to renaming

Let the boundary of a segment be defined: its members are nodes of the graph, each once, that read
what enters and what members before them define; nothing enters twice or is defined inside as well
(`Graph.Bounds`).  Then it has a fingerprint, and this is the fingerprint of another such segment
exactly if a bijection between the values of both makes the one the other (`Renames`):

    ∃ f f', ofSegment g s inputs = .ok f ∧ ofSegment g' s' inputs' = .ok f' ∧
      (f = f' ↔ ∃ r, Renames r s run inputs s' run' inputs')                 (ofSegment_eq_iff)

Both directions go through places.  What enters and what the members define, one after the other,
are the values of a segment (`Segment.values`); a fingerprint says of every operand and every output
in which place it stands there, and a renaming of the values leaves their places alone.
-/

namespace HybridGraph

/-! ## Segments with a boundary -/

/-- The boundary of a segment with the given members is defined. -/
structure Graph.Bounds (g : Graph) (s : Segment) (run : List Node) : Prop where
  members : run ⊆ g.nodes
  distinct : run.Nodup
  nodes : s.nodes = run.map Node.id
  reads : ReadsInOrder s.inputs run
  once : s.inputs.Nodup
  outside : ∀ v ∈ s.inputs, ¬ ProducedIn run v
  leaves : ∀ v ∈ s.outputs, v ∈ s.inputs ∨ ProducedIn run v

namespace Segment

/-- The values that a segment mentions. -/
def mentions (s : Segment) (run : List Node) : Set ValueId :=
  {v | v ∈ s.inputs ∨ (∃ node ∈ run, v ∈ node.inputs ∨ v ∈ node.outputs) ∨ v ∈ s.outputs}

/-- The values of a segment in the order of their numbers. -/
def values (s : Segment) (run : List Node) : List ValueId := s.inputs ++ run.flatMap Node.outputs

end Segment

/-- A node that asks for the same, of renamed values. -/
structure Node.RenamedTo (r : ValueId → ValueId) (node node' : Node) : Prop where
  kind : node.kind = node'.kind
  attrs : node.attrs = node'.attrs
  inputs : node.inputs.map r = node'.inputs
  outputs : node.outputs.map r = node'.outputs

/-- An input of which the engine reads the same, under a renamed value. -/
structure BoundaryInput.RenamedTo (r : ValueId → ValueId) (input input' : BoundaryInput) :
    Prop where
  value : r input.value = input'.value
  engine : input.engine = input'.engine
  shape : input.shape = input'.shape

/-- A bijection between the values of two segments makes the one the other, part by part. -/
structure Renames (r : ValueId → ValueId) (s : Segment) (run : List Node)
    (inputs : List BoundaryInput) (s' : Segment) (run' : List Node)
    (inputs' : List BoundaryInput) : Prop where
  bijective : Set.BijOn r (s.mentions run) (s'.mentions run')
  inputs : List.Forall₂ (BoundaryInput.RenamedTo r) inputs inputs'
  nodes : List.Forall₂ (Node.RenamedTo r) run run'
  outputs : s.outputs.map r = s'.outputs

namespace Graph.Bounds

variable {g : Graph} {s : Segment} {run : List Node} {v : ValueId}

/-- The values of a segment are all different. -/
theorem nodup_values (h : g.Bounds s run) (hg : g.SingleAssignment) : (s.values run).Nodup := by
  have hresults : (run.flatMap Node.outputs).Nodup := by
    refine List.nodup_flatMap.mpr ⟨fun node hn => ?_, ?_⟩
    · obtain ⟨before, after, hsplit⟩ := List.append_of_mem (h.members hn)
      exact (hg.nodes before node after hsplit).distinct
    · refine h.distinct.imp_of_mem fun {a b} ha hb hne v hva hvb => hne ?_
      exact hg.nodes.eq_of_output (h.members ha) (h.members hb) hva hvb
  refine List.nodup_append.mpr ⟨h.once, hresults, fun v hv w hw heq => ?_⟩
  exact h.outside v hv (List.mem_flatMap.mp (heq ▸ hw))

/-- Nothing but the values of a segment is mentioned. -/
theorem mentions_eq (h : g.Bounds s run) : s.mentions run = {v | v ∈ s.values run} := by
  ext v
  simp only [Segment.mentions, Segment.values, Set.mem_ofPred_eq, List.mem_append]
  constructor
  · rintro (hv | ⟨node, hn, hv | hv⟩ | hv)
    · exact .inl hv
    · obtain ⟨front, back, hsplit⟩ := List.append_of_mem hn
      refine (List.mem_append.mp (h.reads front node back hsplit hv)).imp_right fun hfront => ?_
      rw [hsplit, List.flatMap_append]
      exact List.mem_append_left _ hfront
    · exact .inr (List.mem_flatMap.mpr ⟨node, hn, hv⟩)
    · exact (h.leaves v hv).imp_right List.mem_flatMap.mpr
  · rintro (hv | hv)
    · exact .inl hv
    · obtain ⟨node, hn, hv⟩ := List.mem_flatMap.mp hv
      exact .inr (.inl ⟨node, hn, .inr hv⟩)

theorem outputs_subset (h : g.Bounds s run) : s.outputs ⊆ s.values run := by
  intro v hv
  exact List.mem_append.mpr ((h.leaves v hv).imp_right List.mem_flatMap.mpr)

/-- A single node with its operands and results. -/
theorem single {node : Node} (hn : node ∈ g.nodes) (hs : s.nodes = [node.id])
    (hreads : node.inputs ⊆ s.inputs) (honce : s.inputs.Nodup)
    (houtside : ∀ v ∈ s.inputs, v ∉ node.outputs) (hleaves : s.outputs ⊆ node.outputs) :
    g.Bounds s [node] where
  members := fun _ hm => List.mem_singleton.mp hm ▸ hn
  distinct := List.nodup_singleton node
  nodes := hs
  reads := by
    intro front other back hsplit
    cases front with
    | nil =>
      obtain ⟨rfl, -⟩ := List.cons.inj hsplit
      exact fun v hv => List.mem_append_left _ (hreads hv)
    | cons first front => simp at hsplit
  once := honce
  outside v hv hproduced := by
    obtain ⟨other, ho, hdef⟩ := hproduced
    exact houtside v hv (List.mem_singleton.mp ho ▸ hdef)
  leaves v hv := .inr ⟨node, List.mem_singleton_self node, hleaves hv⟩

/-- Its ids resolve to its members. -/
theorem resolves (h : g.Bounds s run) (hg : g.SingleAssignment) : g.Resolves s.nodes run :=
  h.nodes ▸ resolves_map_id hg h.members

end Graph.Bounds

/-- The segments of plans are such segments. -/
theorem SegmentBuilder.bounds_of_partition {A : Accelerator} {b : SegmentBuilder A}
    {options : PartitionOptions} {plan : Plan} {s : Segment} (hg : b.graph.SingleAssignment)
    (hplan : b.graph.partition b.registry options (some b.shapes) = .ok plan)
    (hs : s ∈ plan.segments) : ∃ run, b.graph.Bounds s run := by
  obtain ⟨T, run, -, hrun, hnodes, hboundary⟩ := exists_run_of_partition hg hplan hs
  obtain ⟨before, after, hsplit, -⟩ := hrun.maximal
  refine ⟨run, hrun.subset, ?_, hnodes, fun front node back => ?_, hboundary.nodup_inputs,
    fun v hv => ((hboundary.mem_inputs v).mp hv).2,
    fun v hv => .inr ((hboundary.mem_outputs v).mp hv).1⟩
  · have hnodup := hg.nodes.nodup.of_map
    rw [hsplit] at hnodup
    exact (List.nodup_append.mp (List.nodup_append.mp hnodup).1).2.1
  · exact Graph.reads_of_split hg (hsplit.trans (List.append_assoc ..)) hboundary.mem_inputs

/-! ## Renaming by places -/

section Places

variable {values values' vs vs' : List ValueId} {places : List Nat} {run run' : List Node}
  {entries : List MemberRecord} {r : ValueId → ValueId}

/-- Distinct values may be renamed to any others. -/
theorem exists_map_eq (h : values.Nodup) (hlen : values.length = values'.length) :
    ∃ r : ValueId → ValueId, values.map r = values' := by
  refine ⟨fun v => (values'[values.idxOf v]?).getD v, ?_⟩
  refine List.ext_getElem (by simpa) fun n hn hn' => ?_
  rw [List.length_map] at hn
  rw [List.getElem_map, h.idxOf_getElem n hn, List.getElem?_eq_getElem hn', Option.getD_some]

/-- A renaming of values to distinct values is a bijection. -/
theorem bijOn_of_map_eq (h : values'.Nodup) (hr : values.map r = values') :
    Set.BijOn r {v | v ∈ values} {v | v ∈ values'} := by
  subst hr
  refine ⟨fun v hv => List.mem_map_of_mem hv, fun v hv w hw heq => ?_, fun v hv => ?_⟩
  · exact List.inj_on_of_nodup_map h hv hw heq
  · obtain ⟨w, hw, rfl⟩ := List.mem_map.mp hv
    exact ⟨w, hw, rfl⟩

/-- Values in the same places before and after a renaming. -/
theorem map_eq_of_places (hr : values.map r = values')
    (h : List.Forall₂ (fun v n => values[n]? = some v) vs places)
    (h' : List.Forall₂ (fun v n => values'[n]? = some v) vs' places) : vs.map r = vs' := by
  induction h generalizing vs' with
  | nil =>
    cases h'
    rfl
  | @cons v n vs places hv _ ih =>
    cases h' with
    | @cons v' _ vs' _ hv' hrest =>
      rw [← hr, List.getElem?_map, hv, Option.map_some] at hv'
      rw [List.map_cons, Option.some.inj hv', ih hrest]

/-- A renaming leaves places alone. -/
theorem places_map (h : List.Forall₂ (fun v n => values[n]? = some v) vs places) :
    List.Forall₂ (fun v n => (values.map r)[n]? = some v) (vs.map r) places := by
  rw [List.forall₂_map_left_iff]
  refine h.imp fun v n hv => ?_
  rw [List.getElem?_map, hv, Option.map_some]

theorem Numbering.get?_ofValues_map (h : values.Nodup) (h' : (values.map r).Nodup) {v : ValueId}
    (hv : v ∈ values) : (ofValues (values.map r)).get? (r v) = (ofValues values).get? v := by
  obtain ⟨n, hn⟩ := List.mem_iff_getElem?.mp hv
  rw [(get?_ofValues h).mpr hn, get?_ofValues h', List.getElem?_map, hn, Option.map_some]

/-- Equal records have equally many results. -/
theorem Recorded.length_results (h : Recorded values run entries)
    (h' : Recorded values' run' entries) :
    (run.flatMap Node.outputs).length = (run'.flatMap Node.outputs).length := by
  induction h generalizing values' run' with
  | nil =>
    cases h'
    rfl
  | cons hentry _ ih =>
    cases h' with
    | cons hentry' hrest' =>
      rw [List.flatMap_cons, List.flatMap_cons, List.length_append, List.length_append, ih hrest',
        ← hentry.results, ← hentry'.results]

/-- Nodes with equal records, and the renaming of all values that they say by it. -/
theorem Recorded.renamedTo (h : Recorded values run entries) (h' : Recorded values' run' entries)
    (hr : values.map r = values')
    (hresults : (run.flatMap Node.outputs).map r = run'.flatMap Node.outputs) :
    List.Forall₂ (Node.RenamedTo r) run run' := by
  induction h generalizing values' run' with
  | nil =>
    cases h'
    exact .nil
  | @cons values node rest entry entries hentry _ ih =>
    cases h' with
    | @cons _ node' rest' _ _ hentry' hrest' =>
      rw [List.flatMap_cons, List.flatMap_cons, List.map_append] at hresults
      have hlen : (node.outputs.map r).length = node'.outputs.length := by
        rw [List.length_map, ← hentry.results, hentry'.results]
      obtain ⟨houtputs, hrest⟩ := List.append_inj hresults hlen
      refine .cons ⟨hentry.kind.symm.trans hentry'.kind, hentry.attrs.symm.trans hentry'.attrs,
        map_eq_of_places hr hentry.operands hentry'.operands, houtputs⟩ (ih hrest' ?_ hrest)
      rw [List.map_append, hr, houtputs]

/-- Renamed nodes have the records of the nodes. -/
theorem Recorded.map (h : Recorded values run entries)
    (hnodes : List.Forall₂ (Node.RenamedTo r) run run') :
    Recorded (values.map r) run' entries := by
  induction h generalizing run' with
  | nil =>
    cases hnodes
    exact .nil
  | cons hentry _ ih =>
    cases hnodes with
    | cons hnode hrest =>
      have hnext := ih hrest
      rw [List.map_append, hnode.outputs] at hnext
      refine .cons ⟨hentry.kind.trans hnode.kind, hnode.inputs ▸ places_map hentry.operands, ?_,
        hentry.attrs.trans hnode.attrs⟩ hnext
      rw [hentry.results, ← hnode.outputs, List.length_map]

theorem flatMap_outputs_of_renamedTo (h : List.Forall₂ (Node.RenamedTo r) run run') :
    (run.flatMap Node.outputs).map r = run'.flatMap Node.outputs := by
  induction h with
  | nil => rfl
  | cons hnode _ ih =>
    rw [List.flatMap_cons, List.flatMap_cons, List.map_append, hnode.outputs, ih]

end Places

/-! ## Fingerprints and renamings -/

namespace Fingerprint

variable {g g' : Graph} {s s' : Segment} {run run' : List Node}
  {inputs inputs' : List BoundaryInput} {f f' : Fingerprint} {r : ValueId → ValueId}

theorem ofSegment_eq_ok_of_bounds (h : g.Bounds s run) (hg : g.SingleAssignment)
    (hin : inputs.map BoundaryInput.value = s.inputs) :
    ofSegment g s inputs = .ok f ↔ Recorded s.inputs run f.nodes ∧
      f.inputs = inputs.map (fun input => (input.engine, input.shape)) ∧
      f.outputs = s.outputs.filterMap (Numbering.ofValues (s.values run)).get? := by
  have hnodup := h.nodup_values hg
  rw [Segment.values, ← hin] at hnodup
  rw [ofSegment_eq_ok (h.resolves hg) hnodup, hin]
  rfl

/-- A segment whose boundary is defined has a fingerprint. -/
theorem exists_ofSegment (h : g.Bounds s run) (hg : g.SingleAssignment)
    (hin : inputs.map BoundaryInput.value = s.inputs) : ∃ f, ofSegment g s inputs = .ok f := by
  obtain ⟨entries, hentries⟩ := h.reads.exists_recorded
  exact ⟨⟨_, entries, _⟩, (ofSegment_eq_ok_of_bounds h hg hin).mpr ⟨hentries, rfl, rfl⟩⟩

/-- Segments with one fingerprint are each other's renamings. -/
theorem exists_renames (h : g.Bounds s run) (hg : g.SingleAssignment)
    (hin : inputs.map BoundaryInput.value = s.inputs) (h' : g'.Bounds s' run')
    (hg' : g'.SingleAssignment) (hin' : inputs'.map BoundaryInput.value = s'.inputs)
    (hf : ofSegment g s inputs = .ok f) (hf' : ofSegment g' s' inputs' = .ok f) :
    ∃ r, Renames r s run inputs s' run' inputs' := by
  obtain ⟨hnodes, hinputs, houtputs⟩ := (ofSegment_eq_ok_of_bounds h hg hin).mp hf
  obtain ⟨hnodes', hinputs', houtputs'⟩ := (ofSegment_eq_ok_of_bounds h' hg' hin').mp hf'
  have hread := hinputs.symm.trans hinputs'
  have hentering : s.inputs.length = s'.inputs.length := by
    rw [← hin, ← hin', List.length_map, List.length_map]
    simpa using congrArg List.length hread
  have hlen : (s.values run).length = (s'.values run').length := by
    rw [Segment.values, Segment.values, List.length_append, List.length_append, hentering,
      hnodes.length_results hnodes']
  obtain ⟨r, hr⟩ := exists_map_eq (h.nodup_values hg) hlen
  have hbijective := bijOn_of_map_eq (h'.nodup_values hg') hr
  rw [← h.mentions_eq, ← h'.mentions_eq] at hbijective
  have hparts := hr
  rw [Segment.values, Segment.values, List.map_append] at hparts
  obtain ⟨hvalues, hresults⟩ := List.append_inj hparts (by rw [List.length_map, hentering])
  refine ⟨r, hbijective, ?_, hnodes.renamedTo hnodes' hvalues hresults, ?_⟩
  · rw [← hin, ← hin', List.map_map, ← List.forall₂_eq_eq_eq, List.forall₂_map_left_iff,
      List.forall₂_map_right_iff] at hvalues
    rw [← List.forall₂_eq_eq_eq, List.forall₂_map_left_iff, List.forall₂_map_right_iff] at hread
    refine List.forall₂_iff_zip.mpr ⟨hread.length_eq, fun {i i'} hi => ?_⟩
    obtain ⟨hengine, hshape⟩ := Prod.mk.inj ((List.forall₂_iff_zip.mp hread).2 hi)
    exact ⟨(List.forall₂_iff_zip.mp hvalues).2 hi, hengine, hshape⟩
  · -- the places of all outputs are there, since every output is a value of the segment
    have hplaces := Numbering.forall₂_get?_ofValues (h.nodup_values hg) h.outputs_subset
    have hplaces' := Numbering.forall₂_get?_ofValues (h'.nodup_values hg') h'.outputs_subset
    rw [← houtputs] at hplaces
    rw [← houtputs'] at hplaces'
    exact map_eq_of_places hr hplaces hplaces'

/-- A renaming keeps the fingerprint. -/
theorem ofSegment_of_renames (h : g.Bounds s run) (hg : g.SingleAssignment)
    (hin : inputs.map BoundaryInput.value = s.inputs) (h' : g'.Bounds s' run')
    (hg' : g'.SingleAssignment) (hin' : inputs'.map BoundaryInput.value = s'.inputs)
    (hr : Renames r s run inputs s' run' inputs') (hf : ofSegment g s inputs = .ok f) :
    ofSegment g' s' inputs' = .ok f := by
  obtain ⟨hnodes, hinputs, houtputs⟩ := (ofSegment_eq_ok_of_bounds h hg hin).mp hf
  have hentering : s.inputs.map r = s'.inputs := by
    rw [← hin, ← hin', List.map_map, ← List.forall₂_eq_eq_eq, List.forall₂_map_left_iff,
      List.forall₂_map_right_iff]
    exact hr.inputs.imp fun _ _ hi => hi.value
  have hvalues : (s.values run).map r = s'.values run' := by
    rw [Segment.values, Segment.values, List.map_append, hentering,
      flatMap_outputs_of_renamedTo hr.nodes]
  refine (ofSegment_eq_ok_of_bounds h' hg' hin').mpr ⟨hentering ▸ hnodes.map hr.nodes, ?_, ?_⟩
  · rw [hinputs, ← List.forall₂_eq_eq_eq, List.forall₂_map_left_iff, List.forall₂_map_right_iff]
    exact hr.inputs.imp fun _ _ hi => by rw [hi.engine, hi.shape]
  · have hnodup' : ((s.values run).map r).Nodup := hvalues ▸ h'.nodup_values hg'
    rw [houtputs, ← hr.outputs, ← hvalues, List.filterMap_map]
    refine List.filterMap_congr fun v hv => ?_
    exact (Numbering.get?_ofValues_map (h.nodup_values hg) hnodup' (h.outputs_subset hv)).symm

end Fingerprint

/-! ## An example -/

/-- The difference of two values, or of the same in the other order. -/
def Node.difference (n : Nat) : Node :=
  ⟨⟨n⟩, .sub, [⟨n⟩, ⟨1 - n⟩], [⟨n + 2⟩], .empty, none⟩

/-- Two differences of the same values, in both orders. -/
def Graph.differences : Graph where
  name := "differences"
  values := .replicate 4 ⟨.tensor (.of .f32 [2]), none⟩
  nodes := [.difference 0, .difference 1]
  inputs := [⟨0⟩, ⟨1⟩]
  outputs := [⟨2⟩, ⟨3⟩]
  nextNode := 2

/-! ## Top theorem -/

namespace Fingerprint

variable {g g' : Graph} {s s' : Segment} {run run' : List Node}
  {inputs inputs' : List BoundaryInput}

/-- Fingerprints tell segments apart up to renaming of their values, and no further. -/
theorem ofSegment_eq_iff (hg : g.verify = .ok ()) (hg' : g'.verify = .ok ())
    (h : g.Bounds s run) (h' : g'.Bounds s' run')
    (hin : inputs.map BoundaryInput.value = s.inputs)
    (hin' : inputs'.map BoundaryInput.value = s'.inputs) :
    ∃ f f', ofSegment g s inputs = .ok f ∧ ofSegment g' s' inputs' = .ok f' ∧
      (f = f' ↔ ∃ r, Renames r s run inputs s' run' inputs') := by
  have hsingle := (Graph.verify_eq_ok.mp hg).1
  have hsingle' := (Graph.verify_eq_ok.mp hg').1
  obtain ⟨f, hf⟩ := exists_ofSegment h hsingle hin
  obtain ⟨f', hf'⟩ := exists_ofSegment h' hsingle' hin'
  refine ⟨f, f', hf, hf', fun heq => ?_, fun ⟨r, hr⟩ => ?_⟩
  · exact exists_renames h hsingle hin h' hsingle' hin' hf (heq ▸ hf')
  · have hsame := ofSegment_of_renames h hsingle hin h' hsingle' hin' hr hf
    exact Except.ok.inj (hsame.symm.trans hf')

/-- What the engine reads of the inputs of a segment with pairs of numbers. -/
def pairs (s : Segment) : List BoundaryInput := s.inputs.map fun v => ⟨v, .f32, .f32, .fixed [2]⟩

theorem ofSegment_eq_iff_differences :
    let s : Segment := ⟨0, [⟨0⟩], [⟨0⟩, ⟨1⟩], [⟨2⟩]⟩
    let s' : Segment := ⟨1, [⟨1⟩], [⟨1⟩, ⟨0⟩], [⟨3⟩]⟩
    Graph.differences.verify = .ok () ∧ Graph.differences.Bounds s [.difference 0] ∧
      Graph.differences.Bounds s' [.difference 1] ∧
      ∃ f f', ofSegment .differences s (pairs s) = .ok f ∧
        ofSegment .differences s' (pairs s') = .ok f' ∧
        (f = f' ↔ ∃ r, Renames r s [.difference 0] (pairs s) s' [.difference 1] (pairs s')) := by
  have hverify : Graph.differences.verify = .ok () := by
    refine Graph.verify_eq_ok.mpr ⟨by decide, fun node hn => ?_⟩
    rcases hn with _ | ⟨_, _ | ⟨_, ⟨⟩⟩⟩ <;> rfl
  have hfirst : Graph.differences.Bounds ⟨0, [⟨0⟩], [⟨0⟩, ⟨1⟩], [⟨2⟩]⟩ [.difference 0] :=
    .single (.head _) rfl (by decide) (by decide) (by decide) (by decide)
  have hsecond : Graph.differences.Bounds ⟨1, [⟨1⟩], [⟨1⟩, ⟨0⟩], [⟨3⟩]⟩ [.difference 1] :=
    .single (.tail _ (.head _)) rfl (by decide) (by decide) (by decide) (by decide)
  exact ⟨hverify, hfirst, hsecond, ofSegment_eq_iff hverify hverify hfirst hsecond rfl rfl⟩

-- values that enter in the other order have other places
example : ofSegment .differences ⟨1, [⟨1⟩], [⟨0⟩, ⟨1⟩], [⟨3⟩]⟩
    (pairs ⟨1, [⟨1⟩], [⟨0⟩, ⟨1⟩], [⟨3⟩]⟩) =
      .ok ⟨[(.f32, .fixed [2]), (.f32, .fixed [2])], [⟨.sub, [1, 0], 1, .empty⟩], [2]⟩ := rfl

end Fingerprint

end HybridGraph
