import HybridGraph.Engine.Accelerator
import HybridGraph.Engine.Build
import HybridGraph.Engine.Stored
/-!
# The reference accelerator

`Reference.accelerator` puts `Network` and `Engine` behind the operations of an accelerator, and
`Reference.acceleratorWith` saves and loads engines with another serializer.
-/

namespace HybridGraph

/-- The reference accelerator. -/
def Reference.accelerator : Accelerator where
  name := "ref"
  Network := Network
  Engine := Engine
  empty := {}
  addInput := Network.addInput
  addLayer := Network.addLayer
  markOutput := Network.markOutput
  describe? := Network.describe?
  layerCount n := n.layers.length
  build := Network.build
  inputs := Engine.inputs
  outputs := Engine.outputs
  execute := Engine.execute
  save engine := .ok engine.save
  load := Engine.load

/-- The reference accelerator that saves and loads engines with a serializer. -/
def Reference.acceleratorWith (S : Json.Serializer) : Accelerator :=
  { Reference.accelerator with
    save := fun engine => .ok (engine.saveWith S)
    load := Engine.loadWith S }

end HybridGraph
