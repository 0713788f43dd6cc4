import HybridGraph.Proofs.Engine.Contract
import HybridGraph.Proofs.Engine.Stored
/-!
# Engines from files

A file is read as it stands: beyond its mark and its version nothing is checked, so an engine that
can be written is loaded whatever its network refers to and whatever its bindings are
(`Engine.load_of_storable`).  Only a run shows what is wrong with it.  An engine goes outside its
slots exactly at a reference of its network to a tensor that it does not have, and it takes as many
tensors as it has bindings but answers as many as its network has outputs:

    engine.execute ts = .error e → e.fault = .slot x count →
      count = engine.network.tensors.size ∧ count ≤ x.index ∧
        x ∈ engine.network.references                                          (foreign_of_execute)
    engine.execute ts = .ok us →
      ts.length = engine.inputs.length ∧ us.length = engine.network.outputs.length
-/

namespace HybridGraph

open Outcome

/-- The tensors to which a network refers. -/
def Network.references (n : Network) : List TensorRef :=
  n.inputs.map NetworkInput.tensor ++
    n.layers.flatMap (fun layer => layer.inputs ++ [layer.output]) ++
      n.outputs.map NetworkOutput.tensor

/-- If an objection is to a missing slot, then a network refers to a tensor that it does not
have. -/
def EngineFault.BlamesForeign (n : Network) (fault : EngineFault) : Prop :=
  ∀ x count, fault = .slot x count →
    count = n.tensors.size ∧ count ≤ x.index ∧ x ∈ n.references

namespace Network

variable {n : Network} {α : Type} {slots : Array α} {x : TensorRef}

theorem readSlot_blamesForeign (hsize : slots.size = n.tensors.size) (hx : x ∈ n.references) :
    FailsWith (EngineFault.BlamesForeign n) (readSlot slots x) := by
  unfold readSlot
  split
  · exact .ok _
  · next hnone =>
    refine .error ?_
    rintro _ _ ⟨⟩
    exact ⟨hsize, Array.getElem?_eq_none_iff.mp hnone, hx⟩

theorem writeSlot_blamesForeign (hsize : slots.size = n.tensors.size) (hx : x ∈ n.references)
    (value : α) : FailsWith (EngineFault.BlamesForeign n) (writeSlot slots x value) := by
  unfold writeSlot
  split
  · exact .ok _
  · next hlt =>
    refine .error ?_
    rintro _ _ ⟨⟩
    exact ⟨hsize, Nat.le_of_not_lt hlt, hx⟩

end Network

namespace Engine

variable {engine : Engine} {slots : Slots} {ts us : List Tensor}

theorem filled_blamesForeign {x : TensorRef} (hsize : slots.size = engine.network.tensors.size)
    (hx : x ∈ engine.network.references) :
    FailsWith (EngineFault.BlamesForeign engine.network) (filled slots x) := by
  refine .bind (Network.readSlot_blamesForeign hsize hx) fun found => ?_
  cases found with
  | some t => exact .ok t
  | none => exact .error nofun

theorem checkInputs_blamesForeign (ts : List Tensor) :
    FailsWith (EngineFault.BlamesForeign engine.network) (engine.checkInputs ts) := by
  intro fault h
  unfold checkInputs at h
  split at h
  · cases h
    exact nofun
  · obtain ⟨⟨t, binding⟩, -, h⟩ := exists_of_forM_eq_error h
    unfold checkInput at h
    dsimp only at h
    split at h
    · cases h
      exact nofun
    · split at h
      · cases h
        exact nofun
      · cases h

theorem bindInputs_blamesForeign (ts : List Tensor) :
    FailsWith (EngineFault.BlamesForeign engine.network) (engine.bindInputs ts) := by
  refine .foldlM_of_invariant (q := fun slots => slots.size = engine.network.tensors.size) ?_
    (fun hsize hwrite => (size_of_writeSlot hwrite).trans hsize) Array.size_replicate
  rintro slots hsize ⟨input, t⟩ hentry
  refine Network.writeSlot_blamesForeign hsize ?_ _
  have hinput : input.tensor ∈ engine.network.inputs.map NetworkInput.tensor :=
    List.mem_map_of_mem (List.of_mem_zip hentry).1
  simp [Network.references, hinput]

theorem size_of_bindInputs (h : engine.bindInputs ts = .ok slots) :
    slots.size = engine.network.tensors.size :=
  foldlM_induction (p := fun slots => slots.size = engine.network.tensors.size)
    (fun hsize hwrite => (size_of_writeSlot hwrite).trans hsize) Array.size_replicate h

theorem size_of_runLayer {layer : Layer} {slots' : Slots}
    (h : engine.runLayer slots layer = .ok slots') : slots'.size = slots.size := by
  obtain ⟨_, -, h⟩ := bind_eq_ok.mp h
  obtain ⟨_, -, h⟩ := bind_eq_ok.mp h
  obtain ⟨_, -, h⟩ := bind_eq_ok.mp h
  exact size_of_writeSlot h

theorem runLayer_blamesForeign {layer : Layer} (hlayer : layer ∈ engine.network.layers)
    (hsize : slots.size = engine.network.tensors.size) :
    FailsWith (EngineFault.BlamesForeign engine.network) (engine.runLayer slots layer) := by
  have hrefers : ∀ x ∈ layer.inputs ++ [layer.output], x ∈ engine.network.references :=
    fun x hx => List.mem_append_left _ (List.mem_append_right _
      (List.mem_flatMap.mpr ⟨layer, hlayer, hx⟩))
  refine .bind (.mapM_of_mem fun x hx =>
    filled_blamesForeign hsize (hrefers x (List.mem_append_left _ hx))) fun operands => ?_
  refine .bind (.mapError (.any _) fun _ _ => nofun) fun result => ?_
  refine .bind ?_ fun t => Network.writeSlot_blamesForeign hsize
    (hrefers _ (List.mem_append_right _ List.mem_cons_self)) _
  unfold rounded
  split
  · exact .mapError (.any _) fun _ _ => nofun
  · exact .ok _

theorem readOutput_blamesForeign {output : NetworkOutput}
    (houtput : output ∈ engine.network.outputs)
    (hsize : slots.size = engine.network.tensors.size) :
    FailsWith (EngineFault.BlamesForeign engine.network) (readOutput slots output) := by
  have hrefers : output.tensor ∈ engine.network.references :=
    List.mem_append_right _ (List.mem_map_of_mem houtput)
  refine .bind (Network.readSlot_blamesForeign hsize hrefers) fun found => ?_
  cases found with
  | some t => exact .ok t
  | none => exact .error nofun

/-- An engine goes outside its slots only at a tensor to which its network refers without having
it. -/
theorem foreign_of_execute {e : EngineError} {x : TensorRef} {count : Nat}
    (h : engine.execute ts = .error e) (he : e.fault = .slot x count) :
    count = engine.network.tensors.size ∧ count ≤ x.index ∧ x ∈ engine.network.references := by
  suffices hfails : FailsWith (fun e => e.fault.BlamesForeign engine.network)
      (engine.execute ts) from hfails e h x count he
  refine .bind ((checkInputs_blamesForeign ts).mapError fun _ hfault => hfault) fun _ => ?_
  refine .bind_of_ok ((bindInputs_blamesForeign ts).mapError fun _ hfault => hfault)
    fun slots hslots => ?_
  have hsize := size_of_bindInputs (mapError_eq_ok.mp hslots)
  have hkeeps : ∀ {slots slots' : Slots} {entry : Layer × Nat},
      slots.size = engine.network.tensors.size →
      (engine.runLayer slots entry.1).mapError (EngineError.inLayer entry.2) = .ok slots' →
      slots'.size = engine.network.tensors.size := fun hsize hrun =>
    (size_of_runLayer (mapError_eq_ok.mp hrun)).trans hsize
  refine .bind_of_ok (.foldlM_of_invariant ?_ hkeeps hsize) fun slots' hslots' => ?_
  · rintro slots hsize ⟨layer, number⟩ hentry
    have hlayer : layer ∈ engine.network.layers := (List.mem_zipIdx' hentry).2 ▸ List.getElem_mem _
    exact (runLayer_blamesForeign hlayer hsize).mapError fun _ hfault => hfault
  · have hsize' := foldlM_induction hkeeps hsize hslots'
    exact FailsWith.mapError (.mapM_of_mem fun output houtput =>
      readOutput_blamesForeign houtput hsize') fun _ hfault => hfault

/-- An engine takes as many tensors as it has bindings, and answers as many as its network has
outputs. -/
theorem lengths_of_execute (h : engine.execute ts = .ok us) :
    ts.length = engine.inputs.length ∧ us.length = engine.network.outputs.length := by
  obtain ⟨⟨⟩, hcheck, h⟩ := bind_eq_ok.mp h
  obtain ⟨_, -, h⟩ := bind_eq_ok.mp h
  obtain ⟨_, -, h⟩ := bind_eq_ok.mp h
  exact ⟨(checkInputs_eq_ok.mp (mapError_eq_ok.mp hcheck)).length_eq.symm,
    (mapM_eq_ok.mp (mapError_eq_ok.mp h)).length_eq.symm⟩

/-! ## Loaded engines -/

/-- An engine that only answers one tensor, which it does not have, and may announce more. -/
def answering (x : TensorRef) (outputs : List EngineBinding) (type : DeviceType) : Engine :=
  ⟨{ outputs := [⟨"output_0", x⟩] }, [], outputs, false, type⟩

/-- Any reference and any bindings that can be written are loaded, and the reference is followed. -/
theorem load_answering {S : Json.Serializer} (hS : S.Faithful) {x : TensorRef}
    {outputs : List EngineBinding} {device : Device}
    (hx : x.index < Number.twoPow 32) (houtputs : ∀ b ∈ outputs, b.shape.Storable) :
    loadWith S ((answering x outputs device.type).saveWith S) device =
        .ok (answering x outputs device.type) ∧
      (answering x outputs device.type).execute [] = .error (EngineFault.slot x 0).plain := by
  have hnetwork : (answering x outputs device.type).network.Storable := by
    refine ⟨by simp [answering], by simp [answering], by simp [answering], ?_⟩
    intro output houtput
    obtain rfl := List.mem_singleton.mp houtput
    exact hx
  exact ⟨load_of_storable hS ⟨hnetwork, by simp [answering], houtputs⟩ rfl, rfl⟩

end Engine

end HybridGraph
