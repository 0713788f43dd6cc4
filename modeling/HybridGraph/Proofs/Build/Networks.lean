import HybridGraph.Build.Segment
import HybridGraph.Proofs.Conversion.Blame
import HybridGraph.Proofs.Build.Numbering
/-!
# Networks of segments

What is bound while the network of a segment grows: its inputs first, then the results of its
members, each value to one tensor and in order.

    inputs.zipIdx.foldlM (addInput s.id) state = .ok state' →
      state'.Extends state (inputs.map BoundaryInput.value)                 (extends_of_addInputs)
    b.graph.Resolves ids run → ids.foldlM (b.addMember s.id) state = .ok state' →
      state'.Extends state (run.flatMap Node.outputs)                      (extends_of_addMembers)
-/

namespace HybridGraph

variable {A : Accelerator}

/-! ## Bound values -/

namespace EmitState

variable {s s' s'' : EmitState A} {vs ws : List ValueId} {v : ValueId}

theorem Extends.refl (s : EmitState A) : s.Extends s [] := ⟨[], rfl, rfl⟩

theorem Extends.trans (h' : s''.Extends s' ws) (h : s'.Extends s vs) :
    s''.Extends s (vs ++ ws) := by
  obtain ⟨first, hfirst, hbound⟩ := h
  obtain ⟨second, hsecond, hbound'⟩ := h'
  refine ⟨first ++ second, by simp [hfirst, hsecond], ?_⟩
  rw [hbound', hbound, List.zip_append hfirst.symm, List.reverse_append, List.append_assoc]

theorem isSome_tensor? : (s.tensor? v).isSome ↔ v ∈ s.bound.map Prod.fst := by
  rw [tensor?, List.lookup_isSome_iff, List.mem_map]
  constructor
  · rintro ⟨entry, hentry, hkey⟩
    exact ⟨entry, hentry, (beq_iff_eq.mp hkey).symm⟩
  · rintro ⟨entry, hentry, rfl⟩
    exact ⟨entry, hentry, beq_self_eq_true _⟩

/-- What was bound before and what has been bound since is bound. -/
theorem Extends.binds (h : s'.Extends s vs) (hws : s.Binds ws) : s'.Binds (ws ++ vs) := by
  obtain ⟨tensors, hlen, hbound⟩ := h
  intro v hv
  rw [isSome_tensor?, hbound, List.map_append, List.map_reverse, List.map_fst_zip (by omega)]
  rcases List.mem_append.mp hv with hv | hv
  · exact List.mem_append_right _ (isSome_tensor?.mp (hws v hv))
  · exact List.mem_append_left _ (List.mem_reverse.mpr hv)

/-- Other values stand for what they stood for. -/
theorem Extends.tensor?_of_notMem (h : s'.Extends s vs) (hv : v ∉ vs) :
    s'.tensor? v = s.tensor? v := by
  obtain ⟨tensors, hlen, hbound⟩ := h
  have hnone : (vs.zip tensors).reverse.lookup v = none := by
    rw [List.lookup_eq_none_iff]
    intro entry hentry
    have hkey : entry.1 ∈ vs := (List.of_mem_zip (List.mem_reverse.mp hentry)).1
    exact bne_iff_ne.mpr fun heq => hv (heq ▸ hkey)
  rw [tensor?, hbound, List.lookup_append, hnone, Option.none_or]
  rfl

end EmitState

/-! ## Boundaries -/

theorem Graph.boundaryInput_eq_ok {g : Graph} {shapes : ShapeTable} {truncateWide : Bool}
    {v : ValueId} {input : BoundaryInput} : g.boundaryInput shapes truncateWide v = .ok input ↔
      ∃ declared engine shape, g.knownType? shapes v = some declared ∧
        engineType truncateWide v declared = .ok engine ∧ g.knownShape? shapes v = some shape ∧
          ⟨v, declared, engine, shape⟩ = input := by
  unfold boundaryInput
  cases g.knownType? shapes v with
  | none => exact iff_of_false nofun (by simp)
  | some declared =>
    simp only [Outcome.bind_eq_ok, Option.some.injEq, exists_and_left, exists_eq_left']
    refine exists_congr fun engine => and_congr_right fun _ => ?_
    cases g.knownShape? shapes v with
    | none => exact iff_of_false nofun (by simp)
    | some shape => simp only [Outcome.pure_eq_ok, Option.some.injEq, exists_eq_left']

theorem Graph.value_of_boundaryInput {g : Graph} {shapes : ShapeTable} {truncateWide : Bool}
    {v : ValueId} {input : BoundaryInput}
    (h : g.boundaryInput shapes truncateWide v = .ok input) : input.value = v := by
  obtain ⟨declared, engine, shape, -, -, -, rfl⟩ := boundaryInput_eq_ok.mp h
  rfl

namespace SegmentBuilder

variable {b : SegmentBuilder A} {segment : Nat} {state state' : EmitState A}

/-- The boundary of a segment is its inputs, in order. -/
theorem values_of_boundary {s : Segment} {inputs : List BoundaryInput}
    (h : b.boundary s = .ok inputs) :
    inputs.map BoundaryInput.value = s.inputs := by
  rw [boundary, Outcome.mapError_eq_ok, Outcome.mapM_eq_ok] at h
  rw [← List.forall₂_eq_eq_eq, List.forall₂_map_left_iff]
  exact h.flip.imp fun _ _ => Graph.value_of_boundaryInput

/-! ## Growing networks -/

theorem network_eq_ok {s : Segment} {inputs : List BoundaryInput} :
    b.network s inputs = .ok state' ↔ ∃ entered converted,
      inputs.zipIdx.foldlM (addInput s.id) (EmitState.start A) = .ok entered ∧
        s.nodes.foldlM (b.addMember s.id) entered = .ok converted ∧
          s.outputs.zipIdx.foldlM (addOutput s.id) converted = .ok state' := by
  simp only [network, Outcome.bind_eq_ok, exists_and_left]

theorem addInput_eq_ok {input : BoundaryInput} {number : Nat} :
    addInput segment state (input, number) = .ok state' ↔ ∃ network tensor,
      A.addInput state.network s!"input_{number}" input.engine input.shape =
          .ok (network, tensor) ∧
        state' = { state with network }.bind input.value tensor := by
  simp only [addInput, Outcome.bind_eq_ok, Outcome.mapError_eq_ok, Outcome.pure_eq_ok, Prod.exists]
  simp only [eq_comm]

theorem addMember_eq_ok {id : NodeId} :
    b.addMember segment state id = .ok state' ↔ ∃ node, b.graph.node? id = some node ∧
      b.registry.convert b.graph b.config.truncateWide state node = (.ok (), state') := by
  cases hnode : b.graph.node? id with
  | none => simp [addMember, hnode, throw, throwThe, MonadExceptOf.throw]
  | some node =>
    simp only [addMember, hnode, Outcome.bind_eq_ok, Outcome.mapError_eq_ok, Outcome.pure_eq_ok,
      Option.some.injEq, exists_eq_left']
    rcases b.registry.convert b.graph b.config.truncateWide state node with ⟨cause | ⟨⟩, next⟩
    · simp
    · simp

theorem addOutput_eq_ok {v : ValueId} {number : Nat} :
    addOutput segment state (v, number) = .ok state' ↔ ∃ tensor network,
      state.tensor? v = some tensor ∧
        A.markOutput state.network tensor s!"output_{number}" = .ok network ∧
          state' = { state with network } := by
  cases htensor : state.tensor? v with
  | none => simp [addOutput, htensor, throw, throwThe, MonadExceptOf.throw]
  | some tensor =>
    simp only [addOutput, htensor, Outcome.bind_eq_ok, Outcome.mapError_eq_ok, Outcome.pure_eq_ok,
      Option.some.injEq, exists_and_left, exists_eq_left']
    simp only [eq_comm]

/-- The values that enter are bound in their order. -/
theorem extends_of_addInputs {inputs : List BoundaryInput} {k : Nat}
    (h : (inputs.zipIdx k).foldlM (addInput segment) state = .ok state') :
    state'.Extends state (inputs.map BoundaryInput.value) := by
  induction inputs generalizing k state with
  | nil =>
    obtain rfl := Outcome.pure_eq_ok.mp h
    exact .refl state
  | cons input inputs ih =>
    obtain ⟨next, hnext, hrest⟩ := Outcome.foldlM_cons_eq_ok.mp h
    obtain ⟨network, tensor, -, rfl⟩ := addInput_eq_ok.mp hnext
    have hfirst : ({ state with network }.bind input.value tensor).Extends state [input.value] :=
      ⟨[tensor], rfl, rfl⟩
    exact (ih hrest).trans hfirst

/-- Members are nodes of the graph. -/
theorem resolves_of_addMembers {ids : List NodeId}
    (h : ids.foldlM (b.addMember segment) state = .ok state') :
    ∃ run, b.graph.Resolves ids run := by
  induction ids generalizing state with
  | nil => exact ⟨[], .nil⟩
  | cons id ids ih =>
    obtain ⟨next, hnext, hrest⟩ := Outcome.foldlM_cons_eq_ok.mp h
    obtain ⟨node, hnode, -⟩ := addMember_eq_ok.mp hnext
    obtain ⟨run, hrun⟩ := ih hrest
    exact ⟨node :: run, .cons hnode hrun⟩

/-- The results of members are bound in their order. -/
theorem extends_of_addMembers (hr : b.registry.IsPart) {ids : List NodeId} {run : List Node}
    (hrun : b.graph.Resolves ids run) (h : ids.foldlM (b.addMember segment) state = .ok state') :
    state'.Extends state (run.flatMap Node.outputs) := by
  induction hrun generalizing state with
  | nil =>
    obtain rfl := Outcome.pure_eq_ok.mp h
    exact .refl state
  | @cons id node ids run hnode hrun ih =>
    obtain ⟨next, hnext, hrest⟩ := Outcome.foldlM_cons_eq_ok.mp h
    obtain ⟨other, hother, hconvert⟩ := addMember_eq_ok.mp hnext
    obtain rfl := Option.some.inj (hnode.symm.trans hother)
    exact (ih hrest).trans (Registry.extends_of_convert hr hconvert)

/-- Outputs bind nothing. -/
theorem bound_of_addOutputs {entries : List (ValueId × Nat)}
    (h : entries.foldlM (addOutput segment) state = .ok state') :
    state'.bound = state.bound := by
  refine Outcome.foldlM_induction (p := fun next => next.bound = state.bound) ?_ rfl h
  rintro next ⟨v, number⟩ next' hbound hnext
  obtain ⟨tensor, network, -, -, rfl⟩ := addOutput_eq_ok.mp hnext
  exact hbound

/-- Outputs are bound. -/
theorem binds_of_addOutputs {outputs : List ValueId} {k : Nat}
    (h : (outputs.zipIdx k).foldlM (addOutput segment) state = .ok state') :
    state.Binds outputs := by
  induction outputs generalizing k state with
  | nil => exact nofun
  | cons v outputs ih =>
    obtain ⟨next, hfirst, hrest⟩ := Outcome.foldlM_cons_eq_ok.mp h
    obtain ⟨tensor, network, htensor, -, rfl⟩ := addOutput_eq_ok.mp hfirst
    refine List.forall_mem_cons.mpr ⟨Option.isSome_iff_exists.mpr ⟨tensor, htensor⟩, ?_⟩
    have hbinds := ih hrest
    exact hbinds.of_bound_eq rfl

end SegmentBuilder

end HybridGraph
