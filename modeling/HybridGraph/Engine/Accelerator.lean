import HybridGraph.Digest
import HybridGraph.Engine.Error
import HybridGraph.Settings.Builder
/-!
# Accelerators

What the rest of the library asks of an engine builder: networks that grow layer by layer, a build
step, and engines that run, can be saved and can be loaded.  Whoever compiles a graph works with
any `Accelerator`.
-/

namespace HybridGraph

/-- An engine builder. -/
structure Accelerator where
  /-- The name that enters the digest of the builder options. -/
  name : String
  /-- Networks under construction. -/
  Network : Type
  /-- Built engines. -/
  Engine : Type
  /-- A network without layers. -/
  empty : Network
  /-- Adds an input. -/
  addInput : Network → String → DType → ShapeSpec → Except EngineError (Network × TensorRef)
  /-- Adds a named layer over tensors and answers the tensors it defines. -/
  addLayer : Network → LayerKind → List TensorRef → String →
    Except EngineError (Network × List TensorRef)
  /-- Makes a tensor a named output. -/
  markOutput : Network → TensorRef → String → Except EngineError Network
  /-- The descriptor of a tensor. -/
  describe? : Network → TensorRef → Option TensorSig
  /-- Number of layers; layers are numbered in the order in which they were added. -/
  layerCount : Network → Nat
  /-- Builds an engine. -/
  build : Network → BuilderConfig → Except EngineError Engine
  /-- What an engine reads. -/
  inputs : Engine → List EngineBinding
  /-- What an engine writes. -/
  outputs : Engine → List EngineBinding
  /-- Runs an engine. -/
  execute : Engine → List Tensor → Except EngineError (List Tensor)
  /-- The bytes of an engine. -/
  save : Engine → Except EngineError Digest.Bytes
  /-- An engine from its bytes, for a device. -/
  load : Digest.Bytes → Device → Except EngineError Engine

end HybridGraph
