import HybridGraph.Digest
import HybridGraph.Settings.Device
/-!
# Builder options

What an accelerator is told when it builds an engine.  `BuilderConfig.bytes` is the byte record of
the options; equal records mean equal options, so its hash can stand for them.
-/

namespace HybridGraph

/-- The name of a quantization calibrator, with the file it keeps its results in. -/
structure Calibrator where
  name : String
  cacheFile : Option String
deriving DecidableEq

/-- The options of an engine build. -/
structure BuilderConfig where
  precisions : List Precision
  device : Device
  capability : Capability
  workspaceSize : Option Nat
  minTimingIters : Nat
  avgTimingIters : Nat
  maxBatchSize : Option Nat
  debug : Bool
  strictTypes : Bool
  sparseWeights : Bool
  disableTf32 : Bool
  calibrator : Option Calibrator
deriving DecidableEq

/-- The byte record of a device. -/
def Device.bytes (d : Device) : Digest.Bytes :=
  Digest.tag d.type.index ++ Digest.tag d.gpu ++ Digest.tag d.core ++ Digest.bool d.allowFallback

/-- The byte record of a calibrator. -/
def Calibrator.bytes (c : Calibrator) : Digest.Bytes :=
  Digest.text c.name ++ Digest.option Digest.text c.cacheFile

/-- The byte record of the options. -/
def BuilderConfig.bytes (c : BuilderConfig) : Digest.Bytes :=
  Digest.list (fun p => Digest.tag p.index) c.precisions ++ c.device.bytes ++
    Digest.tag c.capability.index ++ Digest.option Digest.word c.workspaceSize ++
    Digest.tag c.minTimingIters ++ Digest.tag c.avgTimingIters ++
    Digest.option Digest.tag c.maxBatchSize ++ Digest.bool c.debug ++ Digest.bool c.strictTypes ++
    Digest.bool c.sparseWeights ++ Digest.bool c.disableTf32 ++
    Digest.option Calibrator.bytes c.calibrator

/-- The digest of all that shapes an engine besides its segment: who builds it, the options, and
whether 64-bit values are narrowed. -/
def BuilderConfig.digest (c : BuilderConfig) (builder : String) (truncateWide : Bool) : UInt64 :=
  Digest.fnv1a (Digest.text builder ++ c.bytes ++ Digest.bool truncateWide)

end HybridGraph
