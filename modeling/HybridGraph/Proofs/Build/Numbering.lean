import HybridGraph.Build.Fingerprint
import HybridGraph.Proofs.Outcome
import Mathlib.Data.List.Nodup
/-!
# Fingerprints of segments with distinct values

Where the values that enter a segment and the results of its members are all different, numbering
is counting: the numbers after each step are `Numbering.ofValues` of the values so far, and the
fingerprint says of every member in which places its operands stand (`Recorded`):

    g.Resolves s.nodes run →
      (ofSegment g s inputs = .ok f ↔ Recorded (inputs.map BoundaryInput.value) run f.nodes ∧ …)
                                                                (Fingerprint.ofSegment_eq_ok)
-/

namespace HybridGraph

/-! ## Numbers -/

/-- Looking up a key that occurs once. -/
theorem lookup_eq_some_iff_mem {α β : Type} [BEq α] [LawfulBEq α] {entries : List (α × β)}
    (h : (entries.map Prod.fst).Nodup) {a : α} {b : β} :
    entries.lookup a = some b ↔ (a, b) ∈ entries := by
  induction entries with
  | nil => simp
  | cons entry entries ih =>
    obtain ⟨hnot, hrest⟩ := List.nodup_cons.mp h
    obtain ⟨key, value⟩ := entry
    by_cases hkey : a = key
    · subst hkey
      have habsent : (a, b) ∉ entries := fun hm => hnot (List.mem_map.mpr ⟨(a, b), hm, rfl⟩)
      simp [habsent, eq_comm]
    · have hne : (a == key) = false := beq_eq_false_iff_ne.mpr hkey
      simp [List.lookup_cons, hne, ih hrest, hkey]

namespace Numbering

variable {values vs : List ValueId} {v : ValueId} {n : Nat}

/-- Distinct values, numbered in order. -/
def ofValues (values : List ValueId) : Numbering := values.zipIdx.reverse

theorem length_ofValues (values : List ValueId) : (ofValues values).length = values.length := by
  simp [ofValues]

theorem ofValues_concat (values : List ValueId) (v : ValueId) :
    ofValues (values ++ [v]) = (v, values.length) :: ofValues values := by
  simp [ofValues, List.zipIdx_append]

theorem map_fst_ofValues (values : List ValueId) :
    (ofValues values).map Prod.fst = values.reverse := by
  rw [ofValues, List.map_reverse, List.zipIdx_map_fst]

/-- The number of a value is its place. -/
theorem get?_ofValues (h : values.Nodup) :
    (ofValues values).get? v = some n ↔ values[n]? = some v := by
  have hnodup : ((ofValues values).map Prod.fst).Nodup := by
    rw [map_fst_ofValues]
    exact List.nodup_reverse.mpr h
  rw [get?, lookup_eq_some_iff_mem hnodup, ofValues, List.mem_reverse,
    List.mem_zipIdx_iff_getElem?]

theorem get?_ofValues_of_notMem (h : values.Nodup) (hv : v ∉ values) :
    (ofValues values).get? v = none := by
  rw [Option.eq_none_iff_forall_ne_some]
  intro n hn
  exact hv (List.mem_of_getElem? ((get?_ofValues h).mp hn))

/-- Values that have numbers, with their numbers. -/
theorem forall₂_get?_ofValues (h : values.Nodup) (hvs : vs ⊆ values) :
    List.Forall₂ (fun v n => values[n]? = some v) vs (vs.filterMap (ofValues values).get?) := by
  induction vs with
  | nil => exact .nil
  | cons v vs ih =>
    obtain ⟨hv, hrest⟩ := List.cons_subset.mp hvs
    obtain ⟨n, hn⟩ := List.mem_iff_getElem?.mp hv
    rw [List.filterMap_cons, (get?_ofValues h).mpr hn]
    exact .cons hn (ih hrest)

theorem enter_ofValues (h : values.Nodup) (hv : v ∉ values) :
    (ofValues values).enter v = ofValues (values ++ [v]) := by
  rw [enter, get?_ofValues_of_notMem h hv, ofValues_concat, length_ofValues]
  rfl

theorem define_ofValues (hv : v ∉ values) :
    (ofValues values).define v = ofValues (values ++ [v]) := by
  have hkeep : (ofValues values).filter (·.1 ≠ v) = ofValues values := by
    refine List.filter_eq_self.mpr fun entry hentry => ?_
    have hmem : entry.1 ∈ values := by
      rw [← List.mem_reverse, ← map_fst_ofValues]
      exact List.mem_map_of_mem hentry
    exact decide_eq_true fun heq => hv (heq ▸ hmem)
  rw [define, hkeep, ofValues_concat, length_ofValues]

theorem foldl_enter_ofValues (h : (values ++ vs).Nodup) :
    vs.foldl enter (ofValues values) = ofValues (values ++ vs) := by
  induction vs generalizing values with
  | nil => rw [List.append_nil, List.foldl_nil]
  | cons v vs ih =>
    have hnext : ((values ++ [v]) ++ vs).Nodup := by rwa [List.append_assoc]
    obtain ⟨hnodup, -, hapart⟩ := List.nodup_append.mp h
    rw [List.foldl_cons, enter_ofValues hnodup fun hv => hapart v hv v List.mem_cons_self rfl,
      ih hnext, List.append_assoc, List.singleton_append]

theorem foldl_define_ofValues (h : (values ++ vs).Nodup) :
    vs.foldl define (ofValues values) = ofValues (values ++ vs) := by
  induction vs generalizing values with
  | nil => rw [List.append_nil, List.foldl_nil]
  | cons v vs ih =>
    have hnext : ((values ++ [v]) ++ vs).Nodup := by rwa [List.append_assoc]
    obtain ⟨-, -, hapart⟩ := List.nodup_append.mp h
    rw [List.foldl_cons, define_ofValues fun hv => hapart v hv v List.mem_cons_self rfl,
      ih hnext, List.append_assoc, List.singleton_append]

end Numbering

/-! ## Records -/

/-- What a fingerprint keeps of a node that follows the given values: operands become places. -/
structure MemberRecord.Describes (entry : MemberRecord) (values : List ValueId) (node : Node) :
    Prop where
  kind : entry.kind = node.kind
  operands : List.Forall₂ (fun v n => values[n]? = some v) node.inputs entry.operands
  results : entry.results = node.outputs.length
  attrs : entry.attrs = node.attrs

/-- The records of nodes, one after the other. -/
inductive Recorded : List ValueId → List Node → List MemberRecord → Prop where
  | nil {values : List ValueId} : Recorded values [] []
  | cons {values : List ValueId} {node : Node} {rest : List Node} {entry : MemberRecord}
      {entries : List MemberRecord} (hentry : entry.Describes values node)
      (hrest : Recorded (values ++ node.outputs) rest entries) :
      Recorded values (node :: rest) (entry :: entries)

/-- Every node reads values that are there when it is its turn. -/
def ReadsInOrder (values : List ValueId) (run : List Node) : Prop :=
  ∀ front node back, run = front ++ node :: back →
    node.inputs ⊆ values ++ front.flatMap Node.outputs

theorem ReadsInOrder.cons {values : List ValueId} {node : Node} {rest : List Node}
    (h : ReadsInOrder values (node :: rest)) :
    node.inputs ⊆ values ∧ ReadsInOrder (values ++ node.outputs) rest := by
  constructor
  · simpa using h [] node rest rfl
  · intro front next back hrest
    have hnext := h (node :: front) next back (congrArg (node :: ·) hrest)
    rwa [List.flatMap_cons, ← List.append_assoc] at hnext

/-- Nodes that read what is there have records. -/
theorem ReadsInOrder.exists_recorded {values : List ValueId} {run : List Node}
    (h : ReadsInOrder values run) : ∃ entries, Recorded values run entries := by
  induction run generalizing values with
  | nil => exact ⟨[], .nil⟩
  | cons node rest ih =>
    obtain ⟨hreads, hrest⟩ := h.cons
    obtain ⟨entries, hentries⟩ := ih hrest
    have hplaces : List.Forall₂ (fun v n => values[n]? = some v) node.inputs
        (node.inputs.map values.idxOf) := by
      rw [List.forall₂_map_right_iff, List.forall₂_same]
      exact fun v hv => List.getElem?_idxOf (hreads hv)
    exact ⟨⟨node.kind, _, _, node.attrs⟩ :: entries, .cons ⟨rfl, hplaces, rfl, rfl⟩ hentries⟩

/-- The nodes of ids in a graph. -/
abbrev Graph.Resolves (g : Graph) (ids : List NodeId) (nodes : List Node) : Prop :=
  List.Forall₂ (fun id node => g.node? id = some node) ids nodes

theorem Graph.Resolves.filterMap_eq {g : Graph} {ids : List NodeId} {nodes : List Node}
    (h : g.Resolves ids nodes) : ids.filterMap g.node? = nodes := by
  induction h with
  | nil => rfl
  | cons hnode _ ih => rw [List.filterMap_cons, hnode, ih]

namespace Fingerprint

variable {g : Graph} {segment : Nat} {values : List ValueId} {node : Node}
  {entries : List MemberRecord} {final : Numbering × List MemberRecord}

theorem operand_eq_ok (h : values.Nodup) {v : ValueId} {n : Nat} :
    operand segment node (.ofValues values) v = .ok n ↔ values[n]? = some v := by
  rw [← Numbering.get?_ofValues h, operand]
  cases (Numbering.ofValues values).get? v with
  | none => simp
  | some m => simp

theorem addMember_eq_ok {id : NodeId} (hnode : g.node? id = some node)
    (h : (values ++ node.outputs).Nodup) :
    addMember g segment (.ofValues values, entries) id = .ok final ↔ ∃ entry : MemberRecord,
      entry.Describes values node ∧
        final = (.ofValues (values ++ node.outputs), entries ++ [entry]) := by
  have hvalues := (List.nodup_append.mp h).1
  simp only [addMember, hnode, Outcome.bind_eq_ok, Outcome.pure_eq_ok, Outcome.mapM_eq_ok,
    operand_eq_ok hvalues, Numbering.foldl_define_ofValues h]
  constructor
  · rintro ⟨operands, hoperands, rfl⟩
    exact ⟨_, ⟨rfl, hoperands, rfl, rfl⟩, rfl⟩
  · rintro ⟨⟨kind, operands, results, attrs⟩, ⟨rfl, hoperands, rfl, rfl⟩, rfl⟩
    exact ⟨operands, hoperands, rfl⟩

/-- Members with distinct results are recorded one after the other. -/
theorem foldlM_addMember_eq_ok {ids : List NodeId} {run : List Node} (hrun : g.Resolves ids run)
    (h : (values ++ run.flatMap Node.outputs).Nodup) :
    ids.foldlM (addMember g segment) (.ofValues values, entries) = .ok final ↔
      ∃ more, Recorded values run more ∧
        final = (.ofValues (values ++ run.flatMap Node.outputs), entries ++ more) := by
  induction hrun generalizing values entries with
  | nil =>
    rw [List.foldlM_nil, Outcome.pure_eq_ok, List.flatMap_nil, List.append_nil]
    constructor
    · rintro rfl
      exact ⟨[], .nil, by rw [List.append_nil]⟩
    · rintro ⟨more, _ | _, rfl⟩
      rw [List.append_nil]
  | @cons id node ids run hnode hrun ih =>
    rw [List.flatMap_cons, ← List.append_assoc] at h
    rw [Outcome.foldlM_cons_eq_ok, List.flatMap_cons, ← List.append_assoc]
    constructor
    · rintro ⟨next, hnext, hrest⟩
      obtain ⟨entry, hentry, rfl⟩ := (addMember_eq_ok hnode (List.nodup_append.mp h).1).mp hnext
      obtain ⟨more, hmore, rfl⟩ := (ih h).mp hrest
      exact ⟨entry :: more, .cons hentry hmore, by simp⟩
    · rintro ⟨more, hmore, rfl⟩
      cases hmore with
      | @cons _ _ _ entry more hentry hmore =>
        refine ⟨_, (addMember_eq_ok hnode (List.nodup_append.mp h).1).mpr ⟨entry, hentry, rfl⟩, ?_⟩
        exact (ih h).mpr ⟨more, hmore, by simp⟩

/-- The fingerprint of a segment with distinct values. -/
theorem ofSegment_eq_ok {s : Segment} {inputs : List BoundaryInput} {run : List Node}
    (hrun : g.Resolves s.nodes run)
    (h : (inputs.map BoundaryInput.value ++ run.flatMap Node.outputs).Nodup) {f : Fingerprint} :
    ofSegment g s inputs = .ok f ↔
      Recorded (inputs.map BoundaryInput.value) run f.nodes ∧
      f.inputs = inputs.map (fun input => (input.engine, input.shape)) ∧
      f.outputs = s.outputs.filterMap
        (Numbering.ofValues (inputs.map BoundaryInput.value ++ run.flatMap Node.outputs)).get? := by
  have hentered : (inputs.map BoundaryInput.value).foldl Numbering.enter (.ofValues []) =
      .ofValues ([] ++ inputs.map BoundaryInput.value) :=
    Numbering.foldl_enter_ofValues (List.nodup_append.mp h).1
  rw [List.nil_append] at hentered
  change (inputs.map BoundaryInput.value).foldl Numbering.enter [] = _ at hentered
  simp only [ofSegment, hentered, Outcome.bind_eq_ok, foldlM_addMember_eq_ok hrun h,
    Outcome.pure_eq_ok, List.nil_append]
  constructor
  · rintro ⟨-, ⟨more, hmore, rfl⟩, rfl⟩
    exact ⟨hmore, rfl, rfl⟩
  · obtain ⟨fi, fn, fo⟩ := f
    rintro ⟨hmore, rfl, rfl⟩
    exact ⟨_, ⟨fn, hmore, rfl⟩, rfl⟩

end Fingerprint

end HybridGraph
