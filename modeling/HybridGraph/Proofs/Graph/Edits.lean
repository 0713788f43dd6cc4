import HybridGraph.Proofs.Graph.Parsing
import HybridGraph.Proofs.Graph.Stored
/-!
# Editing graphs

Node ids come from a counter.  An edit either keeps the counter and adds no id, or it adds the id at
the counter and moves it on (`Graph.edit_ids`).  If all ids lie below the counter, they therefore
stay distinct however the graph is edited until the counter begins again, and no id is handed out
twice; if one does not, the counter runs into it:

    (∀ edits, g.nextNode + edits.length ≤ 2 ^ 32 → (g.editAll edits).1.nodeIds.Nodup) ↔ g.Issued
                                                                           (Graph.nodup_editAll_iff)

Empty graphs and graphs that are read from a text have their ids below the counter.  Loading takes
the counter of a stored graph as it stands.
-/

namespace HybridGraph

namespace Graph

/-! ## Edits -/

/-- A change of a graph. -/
inductive Edit where
  | newValue (type : ValueType) (name : Option String)
  | addInput (type : ValueType) (name : String)
  | addNode (kind : OpKind) (inputs : List ValueId) (types : List ValueType) (attrs : AttrList)
  | insertNode (position : Nat) (kind : OpKind) (inputs : List ValueId) (types : List ValueType)
    (attrs : AttrList) (scope : Option String)
  | pushNode (node : Node)
  | setType (v : ValueId) (type : ValueType)
  | replaceUses (old new : ValueId)
  | removeNodes (ids : List NodeId)

/-- The graph after an edit, and the node id that the edit answers. -/
def edit (g : Graph) : Edit → Graph × Option NodeId
  | .newValue type name => ((g.newValue type name).1, none)
  | .addInput type name => ((g.addInput type name).1, none)
  | .addNode kind inputs types attrs =>
    let (g, id, _) := g.addNode kind inputs types attrs
    (g, some id)
  | .insertNode position kind inputs types attrs scope =>
    let (g, id, _) := g.insertNode position kind inputs types attrs scope
    (g, some id)
  | .pushNode node =>
    let (g, id) := g.pushNode node
    (g, some id)
  | .setType v type => (g.setType v type, none)
  | .replaceUses old new => (g.replaceUses old new, none)
  | .removeNodes ids => (g.removeNodes ids, none)

/-- The graph after edits, and the node ids that they answer. -/
def editAll (g : Graph) : List Edit → Graph × List NodeId
  | [] => (g, [])
  | e :: es =>
    let (g, id) := g.edit e
    let (g, ids) := g.editAll es
    (g, id.toList ++ ids)

variable {g : Graph}

theorem editAll_cons (e : Edit) (es : List Edit) :
    g.editAll (e :: es) = (((g.edit e).1.editAll es).1,
      (g.edit e).2.toList ++ ((g.edit e).1.editAll es).2) := rfl

/-! ## One edit -/

theorem newValues_nodes (types : List ValueType) :
    (g.newValues types).1.nodes = g.nodes ∧ (g.newValues types).1.nextNode = g.nextNode := by
  induction types generalizing g with
  | nil => exact ⟨rfl, rfl⟩
  | cons type types ih => exact ih

theorem insertNode_ids (position : Nat) (kind : OpKind) (inputs : List ValueId)
    (types : List ValueType) (attrs : AttrList) (scope : Option String) :
    let r := g.insertNode position kind inputs types attrs scope
    r.2.1 = ⟨g.nextNode⟩ ∧ r.1.nextNode = NodeId.next g.nextNode ∧
      r.1.nodeIds.Perm (⟨g.nextNode⟩ :: g.nodeIds) := by
  obtain ⟨hnodes, hnext⟩ := newValues_nodes (g := g) types
  refine ⟨congrArg NodeId.mk hnext, congrArg NodeId.next hnext, ?_⟩
  have hinsert := (List.perm_insertIdx
    (⟨⟨g.nextNode⟩, kind, inputs, (g.newValues types).2, attrs, scope⟩ : Node) g.nodes
    (Nat.min_le_right position _)).map Node.id
  simpa only [insertNode, freshNode, nodeIds, hnodes, hnext, List.map_cons] using hinsert

theorem pushNode_ids (g : Graph) (node : Node) :
    (g.pushNode node).1.nodeIds.Perm (⟨g.nextNode⟩ :: g.nodeIds) := by
  simp [pushNode, freshNode, nodeIds]

/-- What an edit does to the node ids: it adds none, or it adds the one at the counter. -/
theorem edit_ids (g : Graph) (e : Edit) :
    ((g.edit e).2 = none ∧ (g.edit e).1.nextNode = g.nextNode ∧
      (g.edit e).1.nodeIds.Sublist g.nodeIds) ∨
    ((g.edit e).2 = some ⟨g.nextNode⟩ ∧ (g.edit e).1.nextNode = NodeId.next g.nextNode ∧
      (g.edit e).1.nodeIds.Perm (⟨g.nextNode⟩ :: g.nodeIds)) := by
  cases e with
  | newValue type name => exact .inl ⟨rfl, rfl, .refl _⟩
  | addInput type name => exact .inl ⟨rfl, rfl, .refl _⟩
  | addNode kind inputs types attrs =>
    obtain ⟨hid, hnext, hids⟩ := insertNode_ids (g := g) g.nodes.length kind inputs types attrs none
    exact .inr ⟨congrArg some hid, hnext, hids⟩
  | insertNode position kind inputs types attrs scope =>
    obtain ⟨hid, hnext, hids⟩ := insertNode_ids (g := g) position kind inputs types attrs scope
    exact .inr ⟨congrArg some hid, hnext, hids⟩
  | pushNode node => exact .inr ⟨rfl, rfl, pushNode_ids g node⟩
  | setType v type => exact .inl ⟨rfl, rfl, .refl _⟩
  | replaceUses old new =>
    refine .inl ⟨rfl, rfl, ?_⟩
    rw [edit, replaceUses, nodeIds, List.map_map]
    exact .refl _
  | removeNodes ids => exact .inl ⟨rfl, rfl, List.filter_sublist.map Node.id⟩

/-- All node ids are distinct and lie below the counter. -/
structure Issued (g : Graph) : Prop where
  distinct : g.nodeIds.Nodup
  below : ∀ id ∈ g.nodeIds, id.number < g.nextNode

namespace Issued

theorem notMem (h : g.Issued) : ⟨g.nextNode⟩ ∉ g.nodeIds := fun hm =>
  Nat.lt_irrefl _ (h.below _ hm)

/-- The id that an edit answers was not there before. -/
theorem fresh (h : g.Issued) {e : Edit} {id : NodeId} (hid : (g.edit e).2 = some id) :
    id ∉ g.nodeIds := by
  rcases edit_ids g e with ⟨hnone, -, -⟩ | ⟨hsome, -, -⟩
  · rw [hnone] at hid
    cases hid
  · rw [hsome, Option.some_inj] at hid
    exact hid ▸ h.notMem

theorem nodup_edit (h : g.Issued) (e : Edit) : (g.edit e).1.nodeIds.Nodup := by
  rcases edit_ids g e with ⟨-, -, hids⟩ | ⟨-, -, hids⟩
  · exact h.distinct.sublist hids
  · exact hids.nodup_iff.mpr (List.nodup_cons.mpr ⟨h.notMem, h.distinct⟩)

protected theorem edit (h : g.Issued) (hroom : g.nextNode + 1 < 2 ^ 32) (e : Edit) :
    (g.edit e).1.Issued := by
  refine ⟨h.nodup_edit e, fun id hid => ?_⟩
  rcases edit_ids g e with ⟨-, hnext, hids⟩ | ⟨-, hnext, hids⟩
  · rw [hnext]
    exact h.below id (hids.subset hid)
  · rw [hnext, NodeId.next_eq hroom]
    rcases List.mem_cons.mp (hids.mem_iff.mp hid) with rfl | hid
    · exact Nat.lt_succ_self _
    · exact Nat.lt_succ_of_lt (h.below id hid)

end Issued

/-- An edit moves the counter on by one at most. -/
theorem nextNode_edit_le (g : Graph) (e : Edit) : (g.edit e).1.nextNode ≤ g.nextNode + 1 := by
  rcases edit_ids g e with ⟨-, hnext, -⟩ | ⟨-, hnext, -⟩
  · exact hnext.trans_le (Nat.le_succ _)
  · exact hnext.trans_le (Nat.mod_le _ _)

/-! ## Many edits -/

/-- The last edit may hand out the last id. -/
theorem Issued.nodup_editAll (h : g.Issued) {edits : List Edit}
    (hroom : g.nextNode + edits.length ≤ 2 ^ 32) : (g.editAll edits).1.nodeIds.Nodup := by
  induction edits generalizing g with
  | nil => exact h.distinct
  | cons e es ih =>
    rw [List.length_cons] at hroom
    cases es with
    | nil => exact h.nodup_edit e
    | cons e' es =>
      rw [List.length_cons] at hroom
      have hle := nextNode_edit_le g e
      refine ih (h.edit (by omega) e) ?_
      show (g.edit e).1.nextNode + (es.length + 1) ≤ 2 ^ 32
      omega

/-- The ids that edits answer are those from the counter on. -/
theorem editAll_ids (g : Graph) (edits : List Edit) :
    (g.editAll edits).2 = (List.range (g.editAll edits).2.length).map fun count =>
      ⟨NodeId.nextAfter g.nextNode count⟩ := by
  induction edits generalizing g with
  | nil => rfl
  | cons e es ih =>
    have hrest := ih (g.edit e).1
    rw [editAll_cons]
    rcases edit_ids g e with ⟨hid, hnext, -⟩ | ⟨hid, hnext, -⟩
    · rw [hnext] at hrest
      rw [hid]
      exact hrest
    · rw [hnext] at hrest
      rw [hid, Option.toList_some, List.singleton_append, List.length_cons, List.range_succ_eq_map,
        List.map_cons, List.map_map, hrest, List.length_map, List.length_range]
      exact congrArg _ (List.map_congr_left fun count _ =>
        congrArg NodeId.mk (NodeId.nextAfter_next g.nextNode count))

/-- A counter that has an id ahead of it runs into that id. -/
theorem exists_not_nodup {id : NodeId} (hid : id ∈ g.nodeIds) (hlt : id.number < 2 ^ 32)
    (hahead : g.nextNode ≤ id.number) : ∃ edits : List Edit,
      g.nextNode + edits.length ≤ 2 ^ 32 ∧ ¬ (g.editAll edits).1.nodeIds.Nodup := by
  obtain ⟨k, hk⟩ := Nat.exists_eq_add_of_le hahead
  let node : Node := ⟨⟨0⟩, .relu, [], [], .empty, none⟩
  induction k generalizing g with
  | zero =>
    obtain rfl : id = ⟨g.nextNode⟩ := congrArg NodeId.mk hk
    refine ⟨[.pushNode node], hlt, fun hnodup => ?_⟩
    exact (List.nodup_cons.mp ((pushNode_ids g node).nodup_iff.mp hnodup)).1 hid
  | succ k ih =>
    have hnext : (g.pushNode node).1.nextNode = g.nextNode + 1 := NodeId.next_eq (by omega)
    obtain ⟨edits, hroom, hedits⟩ := ih (g := (g.pushNode node).1)
      ((pushNode_ids g node).mem_iff.mpr (List.mem_cons_of_mem _ hid)) (by omega) (by omega)
    refine ⟨.pushNode node :: edits, ?_, hedits⟩
    rw [List.length_cons]
    omega

/-- Until the counter begins again, ids stay distinct under all edits if and only if they are
distinct and below the counter. -/
theorem nodup_editAll_iff (hids : ∀ id ∈ g.nodeIds, id.number < 2 ^ 32)
    (hnext : g.nextNode < 2 ^ 32) :
    (∀ edits : List Edit, g.nextNode + edits.length ≤ 2 ^ 32 →
      (g.editAll edits).1.nodeIds.Nodup) ↔ g.Issued := by
  constructor
  · refine fun h => ⟨h [] (Nat.le_of_lt hnext), fun id hid => ?_⟩
    by_contra hahead
    obtain ⟨edits, hroom, hedits⟩ := exists_not_nodup hid (hids id hid) (Nat.not_lt.mp hahead)
    exact hedits (h edits hroom)
  · exact fun h _ hroom => h.nodup_editAll hroom

/-! ## Where graphs come from -/

theorem issued_empty (name : String) : (empty name).Issued :=
  ⟨List.nodup_nil, fun _ hid => (List.not_mem_nil hid).elim⟩

/-- The node ids of an accepted graph are distinct, so the counter is all that matters. -/
theorem issued_iff_of_verify (h : g.verify = .ok ()) :
    g.Issued ↔ ∀ id ∈ g.nodeIds, id.number < g.nextNode :=
  ⟨Issued.below, fun hbelow => ⟨(verify_eq_ok.mp h).1.nodes.nodup, hbelow⟩⟩

theorem issued_of_parse {text : String} (h : parse text = .ok g)
    (hroom : g.nodes.length < 2 ^ 32) : g.Issued := by
  obtain ⟨hverify, hbelow⟩ := wellFormed_iff.mp (wellFormed_of_parse h hroom)
  exact (issued_iff_of_verify hverify).mpr (List.forall_mem_map.mpr hbelow)

theorem verify_of_load {S : Json.Serializer} {text : String} (h : loadWith S text = .ok g) :
    g.verify = .ok () := by
  unfold loadWith at h
  cases hread : (S.read text).bind ofJson? with
  | none =>
    rw [hread] at h
    cases h
  | some g' =>
    rw [hread] at h
    obtain ⟨⟨⟩, hverify, heq⟩ := Outcome.bind_eq_ok.mp h
    obtain rfl := Outcome.pure_eq_ok.mp heq
    exact Outcome.mapError_eq_ok.mp hverify

/-- A loaded graph is as safe to edit as the counter that was stored. -/
theorem issued_iff_of_load {S : Json.Serializer} {text : String} (h : loadWith S text = .ok g) :
    g.Issued ↔ ∀ id ∈ g.nodeIds, id.number < g.nextNode :=
  issued_iff_of_verify (verify_of_load h)

/-- Loading does not look at the counter: a graph is loaded with its counter set back as well, and
then edits hand out an id that is there. -/
theorem load_counter_zero {S : Json.Serializer} (hS : S.Faithful) (hg : g.verify = .ok ())
    (h : g.Storable) (hne : g.nodes ≠ []) :
    loadWith S (storedWith S { g with nextNode := 0 }) = .ok { g with nextNode := 0 } ∧
      ∃ edits, ¬ (editAll { g with nextNode := 0 } edits).1.nodeIds.Nodup := by
  refine ⟨load_stored hS hg ⟨h.arena, h.types, h.nodes, Nat.two_pow_pos 32⟩, ?_⟩
  obtain ⟨node, rest, hnodes⟩ := List.exists_cons_of_ne_nil hne
  have hid : node.id ∈ nodeIds { g with nextNode := 0 } := by simp [nodeIds, hnodes]
  have hlt : node.id.number < 2 ^ 32 := (h.nodes node (by simp [hnodes])).id
  obtain ⟨edits, -, hedits⟩ := exists_not_nodup hid hlt (Nat.zero_le _)
  exact ⟨edits, hedits⟩

end Graph

end HybridGraph
