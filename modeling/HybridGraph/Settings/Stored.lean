import HybridGraph.Json.Printer
import HybridGraph.Settings.Config
import HybridGraph.Tensor.Stored
/-!
# Options as stored records

`CompileConfig.stored` writes the options and `CompileConfig.load` reads and checks them; every
option may be left out.
-/

namespace HybridGraph

/-- The record of a precision. -/
def Precision.toJson (p : Precision) : Json := .string p.tag

/-- Reads a precision. -/
def Precision.ofJson? : Json → Option Precision := Json.unit? Precision.ofTag?

/-- The record of a calibrator. -/
def Calibrator.toJson (c : Calibrator) : Json :=
  .object [("name", .string c.name), ("cache_file", .option .string c.cacheFile)]

/-- Reads a calibrator. -/
def Calibrator.ofJson? (j : Json) : Option Calibrator := do
  let r ← Json.record? ["name", "cache_file"] j
  return {
    name := ← r.required "name" Json.string?
    cacheFile := ← r.defaulted "cache_file" none (Json.option? Json.string?) }

/-- The record of lowering options. -/
def LoweringOptions.toJson (o : LoweringOptions) : Json :=
  .object [("approximate_gelu", .bool o.approximateGelu)]

/-- Reads lowering options. -/
def LoweringOptions.ofJson? (j : Json) : Option LoweringOptions := do
  let r ← Json.record? ["approximate_gelu"] j
  return { approximateGelu := ← r.defaulted "approximate_gelu" false Json.bool? }

namespace CompileConfig

/-- The names of the options in stored records, in order. -/
def fieldNames : List String :=
  [ "enabled_precisions", "device", "capability", "min_block_size", "torch_executed_ops",
    "torch_executed_modules", "calibrator", "workspace_size", "num_min_timing_iters",
    "num_avg_timing_iters", "max_batch_size", "debug", "strict_types", "sparse_weights",
    "disable_tf32", "truncate_long_and_double", "require_full_compilation", "input_specs",
    "lowering", "threshold", "skip_fidelity_check" ]

/-- The values of the options, in the order of their names. -/
def fieldValues (c : CompileConfig) : List Json :=
  [ .list Precision.toJson c.precisions, c.device.toJson, .string c.capability.tag,
    .option .nat c.minBlockSize, .list .string c.excludedOps, .list .string c.excludedModules,
    .option Calibrator.toJson c.calibrator, .option .nat c.workspaceSize, .nat c.minTimingIters,
    .nat c.avgTimingIters, .option .nat c.maxBatchSize, .bool c.debug, .bool c.strictTypes,
    .bool c.sparseWeights, .bool c.disableTf32, .bool c.truncateWide, .bool c.fullCompilation,
    .list InputSpec.toJson c.inputSpecs, c.lowering.toJson, .double c.threshold,
    .bool c.skipFidelity ]

/-- The record of the options. -/
def toJson (c : CompileConfig) : Json := .object (fieldNames.zip c.fieldValues)

/-- Reads the options; nothing is checked. -/
def ofJson? (j : Json) : Option CompileConfig := do
  let r ← Json.record? fieldNames j
  let words := Json.list? Json.string?
  let d : CompileConfig := {}
  return {
    precisions := ← r.defaulted "enabled_precisions" d.precisions fun j =>
      (Json.list? Precision.ofJson? j).map Precision.sorted
    device := ← r.defaulted "device" d.device Device.ofJson?
    capability := ← r.defaulted "capability" d.capability (Json.unit? Capability.ofTag?)
    minBlockSize := ← r.defaulted "min_block_size" none (Json.option? Json.size?)
    excludedOps := ← r.defaulted "torch_executed_ops" [] words
    excludedModules := ← r.defaulted "torch_executed_modules" [] words
    calibrator := ← r.defaulted "calibrator" none (Json.option? Calibrator.ofJson?)
    workspaceSize := ← r.defaulted "workspace_size" none (Json.option? Json.size?)
    minTimingIters := ← r.defaulted "num_min_timing_iters" d.minTimingIters Json.index?
    avgTimingIters := ← r.defaulted "num_avg_timing_iters" d.avgTimingIters Json.index?
    maxBatchSize := ← r.defaulted "max_batch_size" none (Json.option? Json.index?)
    debug := ← r.defaulted "debug" false Json.bool?
    strictTypes := ← r.defaulted "strict_types" false Json.bool?
    sparseWeights := ← r.defaulted "sparse_weights" false Json.bool?
    disableTf32 := ← r.defaulted "disable_tf32" false Json.bool?
    truncateWide := ← r.defaulted "truncate_long_and_double" false Json.bool?
    fullCompilation := ← r.defaulted "require_full_compilation" false Json.bool?
    inputSpecs := ← r.defaulted "input_specs" [] (Json.list? InputSpec.ofJson?)
    lowering := ← r.defaulted "lowering" {} LoweringOptions.ofJson?
    threshold := ← r.defaulted "threshold" d.threshold Json.double?
    skipFidelity := ← r.defaulted "skip_fidelity_check" false Json.bool? }

/-- The stored text of the options. -/
def stored (c : CompileConfig) : String := c.toJson.pretty

/-- Why stored options are refused. -/
inductive LoadError where
  | malformed
  | refused (cause : ConfigError)

/-- Reads the text of stored options and checks them. -/
def load (text : String) : Except LoadError CompileConfig := do
  let some c := (Json.parse? text).bind ofJson? | throw .malformed
  c.check.mapError .refused
  return c

end CompileConfig

end HybridGraph
