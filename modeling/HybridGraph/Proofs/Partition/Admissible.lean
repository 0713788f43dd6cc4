import HybridGraph.Partition.Demotion
import HybridGraph.Proofs.Partition.Boundary
import HybridGraph.Proofs.Partition.Runs
import Mathlib.Order.Bounds.Basic
/-!
# Admissible sets of nodes

Which sets of nodes engines may take, and the rules by which nodes are demoted, both said without
the algorithm.  A demotion rule may look at any set that has not shrunk further than the present
one.  In whatever order the rules fire, once none fires any more, what is left is the greatest
admissible set:

    g.Reaches r options shapes? S → (∀ id ∈ S, ¬ g.Demotes options shapes? S id) →
      IsGreatest (g.admissibleSets r options shapes?) S                     (isGreatest_of_stuck)
-/

namespace HybridGraph

variable {A : Accelerator}

namespace Graph

variable (g : Graph) (r : Registry A) (options : PartitionOptions) (shapes? : Option ShapeTable)

/-! ## Admissible sets -/

/-- The registry takes the node, and no option keeps it under the interpreter. -/
structure Eligible (node : Node) : Prop where
  supported : r.support g node = .ok ()
  kind : node.kind ∉ options.excludedOps
  scope : ∀ path ∈ options.excludedModules, node.inModule path = false

/-- The ids of the eligible nodes. -/
def eligibleIds : Set NodeId := {id | ∃ node ∈ g.nodes, g.Eligible r options node ∧ node.id = id}

/-- Element type and shape of a value are measured or declared. -/
def Bindable (shapes : ShapeTable) (v : ValueId) : Prop :=
  (shapes.get? v).isSome ∨
    ∃ declared, g.tensorType? v = some declared ∧ declared.dtype.isSome ∧
      declared.fixedExtents?.isSome

/-- An engine may read the value: it is a tensor, about which enough is known if that matters. -/
def MayEnter (v : ValueId) : Prop :=
  g.isTensor v = true ∧ ∀ shapes, shapes? = some shapes → g.Bindable shapes v

/-- A set of nodes that engines may take. -/
structure Admissible (T : Set NodeId) : Prop where
  eligible : T ⊆ g.eligibleIds r options
  constants : ∀ node ∈ g.nodes, node.id ∈ T → node.kind = .constant →
    ∃ user ∈ g.nodes, user.id ∈ T ∧ ∃ v ∈ node.outputs, v ∈ user.inputs
  length : ∀ run, IsRun (·.id ∈ T) g.nodes run → max options.minBlockSize 1 ≤ run.length
  inputs : ∀ run, IsRun (·.id ∈ T) g.nodes run → ∀ v, Enters run v → g.MayEnter shapes? v
  outputs : ∀ run, IsRun (·.id ∈ T) g.nodes run → ∀ v, g.Leaves run v → g.isTensor v = true

/-- The sets of nodes that engines may take. -/
def admissibleSets : Set (Set NodeId) := {T | g.Admissible r options shapes? T}

/-! ## Rules of demotion -/

/-- A rule demotes the node, looking at the set. -/
inductive Demotes (S : Set NodeId) : NodeId → Prop where
  | constant {node : Node} (hnode : node ∈ g.nodes) (hkind : node.kind = .constant)
      (hunused : ∀ user ∈ g.nodes, user.id ∈ S → ∀ v ∈ node.outputs, v ∉ user.inputs) :
      Demotes S node.id
  | short {run : List Node} {node : Node} (hrun : IsRun (·.id ∈ S) g.nodes run)
      (hnode : node ∈ run) (hlength : run.length < max options.minBlockSize 1) : Demotes S node.id
  | input {run : List Node} {node : Node} {v : ValueId} (hrun : IsRun (·.id ∈ S) g.nodes run)
      (hnode : node ∈ run) (hread : v ∈ node.inputs) (hout : ¬ ProducedIn run v)
      (hbad : ¬ g.MayEnter shapes? v) : Demotes S node.id
  | output {run : List Node} {node : Node} {v : ValueId} (hrun : IsRun (·.id ∈ S) g.nodes run)
      (hnode : node ∈ run) (hdefines : v ∈ node.outputs) (hleaves : g.Leaves run v)
      (hbad : g.isTensor v = false) : Demotes S node.id

/-- The sets that demotion reaches.  A rule may look at a set that is larger than the present one:
other nodes may have been demoted since. -/
inductive Reaches : Set NodeId → Prop where
  | start : Reaches (g.eligibleIds r options)
  | demote {S S₀ : Set NodeId} {id : NodeId} (hreach : Reaches S) (hle : S ⊆ S₀)
      (hrule : g.Demotes options shapes? S₀ id) : Reaches (S \ {id})

end Graph

/-! ## Rules keep admissible sets -/

variable {g : Graph} {r : Registry A} {options : PartitionOptions} {shapes? : Option ShapeTable}

/-- A node of an admissible set is in a run of that set. -/
theorem exists_isRun {T : Set NodeId} {node : Node} (hn : node ∈ g.nodes) (hT : node.id ∈ T) :
    ∃ run, IsRun (·.id ∈ T) g.nodes run ∧ node ∈ run := by
  classical
  obtain ⟨run, hrun, hmem⟩ :=
    exists_run_of_mem (fun n => decide (n.id ∈ T)) hn (decide_eq_true hT)
  exact ⟨run, by simpa using isRun_of_mem_stretches hrun, hmem⟩

/-- No rule demotes a node of an admissible set, as long as it looks at a set around it. -/
theorem not_mem_of_demotes (hg : g.SingleAssignment) {T S : Set NodeId}
    (hT : g.Admissible r options shapes? T) (hle : T ⊆ S) {id : NodeId}
    (hrule : g.Demotes options shapes? S id) : id ∉ T := by
  have hnodup : g.nodes.Nodup := hg.nodes.nodup.of_map
  -- the run of a node in the admissible set lies inside its run in the set around it
  have hinside : ∀ {run : List Node} {node : Node}, IsRun (·.id ∈ S) g.nodes run → node ∈ run →
      node.id ∈ T → ∃ small, IsRun (·.id ∈ T) g.nodes small ∧ node ∈ small ∧ small <:+: run := by
    intro run node hrun hnode hid
    obtain ⟨small, hsmall, hmem⟩ := exists_isRun (hrun.subset hnode) hid
    exact ⟨small, hsmall, hmem, hsmall.isInfix hnodup (fun n hn => hle hn) hrun hmem hnode⟩
  intro hid
  cases hrule with
  | constant hnode hkind hunused =>
    obtain ⟨user, huser, hin, v, hv, hread⟩ := hT.constants _ hnode hid hkind
    exact hunused user huser (hle hin) v hv hread
  | short hrun hnode hlength =>
    obtain ⟨small, hsmall, -, hsub⟩ := hinside hrun hnode hid
    have hlong := hT.length small hsmall
    have hlen := hsub.length_le
    omega
  | input hrun hnode hread hout hbad =>
    obtain ⟨small, hsmall, hmem, hsub⟩ := hinside hrun hnode hid
    refine hbad (hT.inputs small hsmall _ ⟨⟨_, hmem, hread⟩, ?_⟩)
    rintro ⟨producer, hp, hv⟩
    exact hout ⟨producer, hsub.subset hp, hv⟩
  | output hrun hnode hdefines hleaves hbad =>
    obtain ⟨small, hsmall, hmem, hsub⟩ := hinside hrun hnode hid
    have htensor := hT.outputs small hsmall _ ⟨⟨_, hmem, hdefines⟩, ?_⟩
    · rw [hbad] at htensor
      cases htensor
    · rcases hleaves.2 with hv | ⟨reader, hr, hnot, hv⟩
      · exact .inl hv
      · exact .inr ⟨reader, hr, fun hm => hnot (hsub.subset hm), hv⟩

/-- Demotion never leaves the eligible nodes. -/
theorem Graph.Reaches.subset_eligibleIds {S : Set NodeId} (h : g.Reaches r options shapes? S) :
    S ⊆ g.eligibleIds r options := by
  induction h with
  | start => exact subset_rfl
  | demote _ _ _ ih => exact Set.sdiff_subset.trans ih

/-- Demotion never loses an admissible set. -/
theorem Graph.Reaches.admissible_subset (hg : g.SingleAssignment) {S T : Set NodeId}
    (hT : g.Admissible r options shapes? T) (h : g.Reaches r options shapes? S) : T ⊆ S := by
  induction h with
  | start => exact hT.eligible
  | demote _ hle hrule ih =>
    intro id hid
    refine ⟨ih hid, fun heq => ?_⟩
    obtain rfl := Set.mem_singleton_iff.mp heq
    exact not_mem_of_demotes hg hT (ih.trans hle) hrule hid

/-! ## Top theorem -/

/-- A set of eligible nodes of which no rule demotes a node is admissible. -/
theorem admissible_of_stuck {S : Set NodeId} (hS : S ⊆ g.eligibleIds r options)
    (hstuck : ∀ id ∈ S, ¬ g.Demotes options shapes? S id) : g.Admissible r options shapes? S where
  eligible := hS
  constants := by
    intro node hnode hid hkind
    by_contra hnone
    refine hstuck _ hid (.constant hnode hkind fun user huser hin v hv hread => hnone ?_)
    exact ⟨user, huser, hin, v, hv, hread⟩
  length := by
    intro run hrun
    obtain ⟨node, hnode⟩ := List.exists_mem_of_ne_nil run hrun.nonempty
    by_contra hshort
    exact hstuck _ (hrun.members node hnode) (.short hrun hnode (by omega))
  inputs := by
    rintro run hrun v ⟨⟨node, hnode, hread⟩, hout⟩
    by_contra hbad
    exact hstuck _ (hrun.members node hnode) (.input hrun hnode hread hout hbad)
  outputs := by
    rintro run hrun v hleaves
    obtain ⟨node, hnode, hv⟩ := hleaves.1
    by_contra hbad
    refine hstuck _ (hrun.members node hnode) (.output hrun hnode hv hleaves ?_)
    exact Bool.eq_false_iff.mpr hbad

/-- Once no rule fires, what is left is the greatest admissible set. -/
theorem isGreatest_of_stuck (hg : g.SingleAssignment) {S : Set NodeId}
    (hreach : g.Reaches r options shapes? S)
    (hstuck : ∀ id ∈ S, ¬ g.Demotes options shapes? S id) :
    IsGreatest (g.admissibleSets r options shapes?) S := by
  constructor
  · exact admissible_of_stuck hreach.subset_eligibleIds hstuck
  · intro T hT
    exact hreach.admissible_subset hg hT

end HybridGraph
