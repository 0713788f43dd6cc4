import HybridGraph.Graph.Stored
import HybridGraph.Program.Assembly
/-!
# Programs as stored records

`HybridProgram.storedWith` writes the graph and the bytes of every engine, and
`HybridProgram.loadWith` reads them, loads the engines for a device and checks that every call names
one of them, whatever writes and reads the text.  `HybridProgram.stored` and `HybridProgram.load`
use the texts of this library.
-/

namespace HybridGraph

/-- The record of a key. -/
def EngineKey.toJson (key : EngineKey) : Json :=
  .object [("segment_hash", .nat key.segmentHash.toNat), ("config_hash", .nat key.configHash.toNat)]

/-- Reads a key. -/
def EngineKey.ofJson? (j : Json) : Option EngineKey := do
  let r ← Json.record? ["segment_hash", "config_hash"] j
  return {
    segmentHash := .ofNat (← r.required "segment_hash" Json.size?)
    configHash := .ofNat (← r.required "config_hash" Json.size?) }

/-- The record of a port. -/
def EnginePort.toJson (port : EnginePort) : Json :=
  .object [("value", port.value.toJson), ("declared", .option DType.toJson port.declared),
    ("engine", port.engine.toJson)]

/-- Reads a port. -/
def EnginePort.ofJson? (j : Json) : Option EnginePort := do
  let r ← Json.record? ["value", "declared", "engine"] j
  return {
    value := ← r.required "value" ValueId.ofJson?
    declared := ← r.optional "declared" DType.ofJson?
    engine := ← r.required "engine" DType.ofJson? }

/-- A segment engine whose engine is saved as bytes. -/
structure SavedEngine where
  segment : Nat
  key : EngineKey
  inputs : List EnginePort
  outputs : List EnginePort
  bytes : Digest.Bytes

namespace SavedEngine

variable {A : Accelerator}

/-- Saves an engine. -/
def ofEngine (engine : SegmentEngine A) : Except AssemblyError SavedEngine := do
  let bytes ← (A.save engine.engine).mapError .engine
  return ⟨engine.segment, engine.key, engine.inputs, engine.outputs, bytes⟩

/-- Loads an engine for a device. -/
def restore (A : Accelerator) (device : Device) (saved : SavedEngine) :
    Except AssemblyError (SegmentEngine A) := do
  let engine ← (A.load saved.bytes device).mapError .engine
  return ⟨saved.segment, saved.key, engine, saved.inputs, saved.outputs⟩

/-- The record of a saved engine. -/
def toJson (saved : SavedEngine) : Json :=
  .object [("segment", .nat saved.segment), ("key", saved.key.toJson),
    ("inputs", .list EnginePort.toJson saved.inputs),
    ("outputs", .list EnginePort.toJson saved.outputs),
    ("bytes", .list (fun byte => .nat byte.toNat) saved.bytes)]

/-- Reads a saved engine. -/
def ofJson? (j : Json) : Option SavedEngine := do
  let r ← Json.record? ["segment", "key", "inputs", "outputs", "bytes"] j
  return {
    segment := ← r.required "segment" Json.size?
    key := ← r.required "key" EngineKey.ofJson?
    inputs := ← r.required "inputs" (Json.list? EnginePort.ofJson?)
    outputs := ← r.required "outputs" (Json.list? EnginePort.ofJson?)
    bytes := ← r.required "bytes" (Json.list? Json.byte?) }

end SavedEngine

namespace HybridProgram

variable {A : Accelerator}

/-- The record of a program whose engines are saved. -/
def toJson (g : Graph) (engines : List SavedEngine) : Json :=
  .object [("graph", g.toJson), ("engines", .list SavedEngine.toJson engines)]

/-- The stored text of a program. -/
def storedWith (S : Json.Serializer) (p : HybridProgram A) : Except AssemblyError String := do
  let engines ← p.engines.mapM SavedEngine.ofEngine
  return S.write (toJson p.graph engines)

/-- The stored text of a program, without blanks. -/
def stored (p : HybridProgram A) : Except AssemblyError String := p.storedWith .compact

/-- Graph and saved engines of a program. -/
def ofJson? (j : Json) : Option (Graph × List SavedEngine) := do
  let r ← Json.record? ["graph", "engines"] j
  return (← r.required "graph" Graph.ofJson?,
    ← r.required "engines" (Json.list? SavedEngine.ofJson?))

/-- Refuses a call of an engine that the table does not have. -/
def checkCall (count : Nat) (node : Node) : Except AssemblyError Unit :=
  let number := (node.int? "engine").getD (-1)
  if 0 ≤ number ∧ number < count then .ok () else .error (.engineNumber node.id number count)

/-- Reads the text of a stored program and loads its engines for a device. -/
def loadWith (S : Json.Serializer) (A : Accelerator) (text : String) (device : Device) :
    Except AssemblyError (HybridProgram A) := do
  let some (graph, saved) := (S.read text).bind ofJson? | throw .malformed
  graph.verify.mapError .structure
  let engines ← saved.mapM (SavedEngine.restore A device)
  let p : HybridProgram A := ⟨graph, engines⟩
  p.engineCalls.forM (checkCall engines.length)
  return p

/-- Reads the stored text of a program and loads its engines for a device. -/
def load (A : Accelerator) (text : String) (device : Device) :
    Except AssemblyError (HybridProgram A) := loadWith .compact A text device

end HybridProgram

end HybridGraph
