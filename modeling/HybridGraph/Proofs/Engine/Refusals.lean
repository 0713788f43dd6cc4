import HybridGraph.Engine.Build
import HybridGraph.Proofs.Outcome
/-!
# Refusals of networks

A network may be refused because it marks no outputs.  Nothing else that is asked of a network is
refused for that reason, and neither is a network with outputs:

    n.outputs ≠ [] → FailsWith EngineError.IsOther (n.build c)                    (failsWith_build)
-/

namespace HybridGraph

open Outcome

/-- An objection other than that a network has no outputs. -/
def EngineFault.IsOther (fault : EngineFault) : Prop := fault ≠ .noOutputs

/-- An error with such an objection. -/
def EngineError.IsOther (e : EngineError) : Prop := e.fault.IsOther

theorem Outcome.FailsWith.plain {α : Type} {p : EngineFault → Prop} {r : Except EngineFault α}
    (h : FailsWith p r) : FailsWith (fun e => p e.fault) (r.mapError EngineFault.plain) :=
  h.mapError fun _ hfault => hfault

theorem Outcome.FailsWith.inLayer {α : Type} {p : EngineFault → Prop} {r : Except EngineFault α}
    (layer : Nat) (h : FailsWith p r) :
    FailsWith (fun e => p e.fault) (r.mapError (EngineError.inLayer layer)) :=
  h.mapError fun _ hfault => hfault

theorem BuilderConfig.failsWith_checkDevice (c : BuilderConfig) :
    FailsWith EngineFault.IsOther c.checkDevice := by
  unfold checkDevice
  dsimp only
  split
  · exact .error nofun
  · split
    · exact .error nofun
    · exact .ok _

namespace Network

variable {n : Network}

section

variable {p : EngineFault → Prop} (hslot : ∀ tensor count, p (.slot tensor count))

include hslot

theorem failsWith_readSlot {α : Type} (slots : Array α) (tensor : TensorRef) :
    FailsWith p (readSlot slots tensor) := by
  unfold readSlot
  split
  · exact .ok _
  · exact .error (hslot _ _)

theorem failsWith_writeSlot {α : Type} (slots : Array α) (tensor : TensorRef) (value : α) :
    FailsWith p (writeSlot slots tensor value) := by
  unfold writeSlot
  split
  · exact .ok _
  · exact .error (hslot _ _)

variable (hinference : ∀ cause, p (.inference cause))

include hinference

theorem failsWith_inferLayer (tensors : Array TensorSig) (entry : Layer × Nat) :
    FailsWith (fun e => p e.fault) (inferLayer tensors entry) := by
  obtain ⟨layer, number⟩ := entry
  refine .bind (.inLayer number (.mapM (failsWith_readSlot hslot tensors) _)) fun operands => ?_
  exact .bind (.mapError (.any _) fun cause _ => hinference cause) fun desc =>
    .inLayer number (failsWith_writeSlot hslot _ _ _)

/-- The descriptors are refused for the number of inputs, for a tensor that does not exist, or by
the inference of a layer. -/
theorem failsWith_concreteShapes (hcount : ∀ expected given, p (.shapeCount expected given))
    (inputs : List (List Nat)) : FailsWith (fun e => p e.fault) (n.concreteShapes inputs) := by
  unfold concreteShapes
  split
  · exact .error (hcount _ _)
  · exact .bind (.foldlM (fun _ _ => .plain (failsWith_writeSlot hslot _ _ _)) _ _)
      fun _ => .foldlM (failsWith_inferLayer hslot hinference) _ _

end

theorem failsWith_workspace (limit : Option Nat) :
    FailsWith EngineError.IsOther (n.workspace limit) := by
  refine .bind (failsWith_concreteShapes (fun _ _ => nofun) (fun _ => nofun) (fun _ _ => nofun) _)
    fun tensors => .foldlM (fun total entry => ?_) _ _
  refine .bind (.plain (failsWith_readSlot (fun _ _ => nofun) _ _)) fun desc => ?_
  dsimp only
  split
  · split
    · exact .error nofun
    · exact .ok _
  · exact .ok _

theorem failsWith_measureOutputs (pick : ShapeSpec → List Nat) :
    FailsWith EngineError.IsOther (n.measureOutputs pick) := by
  refine .bind (failsWith_concreteShapes (fun _ _ => nofun) (fun _ => nofun) (fun _ _ => nofun) _)
    fun tensors => .plain (.mapM (fun output => ?_) _)
  refine .bind (failsWith_readSlot (fun _ _ => nofun) _ _) fun desc => ?_
  split
  · exact .ok _
  · exact .error nofun

theorem failsWith_outputBindings : FailsWith EngineError.IsOther n.outputBindings := by
  refine .bind (failsWith_measureOutputs _) fun lo => .bind (failsWith_measureOutputs _)
    fun mid => .bind (failsWith_measureOutputs _) fun hi => .mapM (fun entry => ?_) _
  exact .bind (.plain (failsWith_readSlot (fun _ _ => nofun) _ _)) fun desc => .ok _

/-- A network with outputs is not refused for having none. -/
theorem failsWith_build (c : BuilderConfig) (hn : n.outputs ≠ []) :
    FailsWith EngineError.IsOther (n.build c) := by
  unfold build
  refine .bind (.plain (BuilderConfig.failsWith_checkDevice c)) fun _ => ?_
  rw [if_neg (by simpa using hn)]
  exact .bind (failsWith_workspace _) fun _ => .bind failsWith_outputBindings fun _ => .ok _

theorem failsWith_addInput (name : String) (dtype : DType) (shape : ShapeSpec) :
    FailsWith EngineError.IsOther (n.addInput name dtype shape) := by
  unfold addInput
  dsimp only
  split
  · exact .error nofun
  · exact .bind (.mapError (.any _) fun _ _ => nofun) fun _ => .ok _

theorem failsWith_markOutput (tensor : TensorRef) (name : String) :
    FailsWith EngineError.IsOther (n.markOutput tensor name) := by
  refine .bind (.plain ?_) fun _ => ?_
  · unfold describe
    split
    · exact .ok _
    · exact .error nofun
  · dsimp only
    split
    · exact .error nofun
    · exact .ok _

end Network

end HybridGraph
