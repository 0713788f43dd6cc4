import HybridGraph.Lowering.DeadCode
import HybridGraph.Lowering.Decomposition
import HybridGraph.Lowering.Simplification
import HybridGraph.Text.Literal
/-!
# The lowering pipeline

A pipeline is a list of steps: a pass, or a group of steps repeated until nothing changes or a cap
is reached.  `Graph.lower` runs the standard pipeline

    verify, (fold, normalize, identities)*, linear, silu, gelu, (identities, dead code)*, verify
-/

namespace HybridGraph

/-- A lowering pass. -/
inductive Pass where
  | verify | fold | normalize | identities | linear | silu | gelu | deadCode
deriving DecidableEq

namespace Pass

/-- The name of a pass in messages. -/
def name : Pass → String
  | .verify => "verify"
  | .fold => "fold-constant-attributes"
  | .normalize => "normalize-defaults"
  | .identities => "eliminate-identities"
  | .linear => "decompose-linear"
  | .silu => "decompose-silu"
  | .gelu => "decompose-gelu"
  | .deadCode => "dce"

/-- A finished pass that counted changed nodes. -/
def modified (result : Graph × Nat) : Lowered := (result.1, .ok (.ofModified result.2))

/-- A finished pass that counted removed nodes. -/
def erased (result : Graph × Nat) : Lowered := (result.1, .ok (.ofErased result.2))

/-- Runs a pass. -/
def run (options : LoweringOptions) (pass : Pass) (g : Graph) : Lowered :=
  match pass with
  | .verify => (g, (g.verify.mapError (.structure pass.name)).map fun _ => {})
  | .fold => modified (Folding.run g)
  | .normalize => modified (Defaults.run g)
  | .identities => erased (Identities.run g)
  | .linear => Decomposition.visitKind pass.name .linear Decomposition.linear g
  | .silu => Decomposition.visitKind pass.name .silu Decomposition.silu g
  | .gelu => Decomposition.visitKind pass.name .gelu (Decomposition.gelu options) g
  | .deadCode => erased (DeadCode.run g)

end Pass

/-- A step of a pipeline. -/
inductive Step where
  | pass (pass : Pass)
  | fixedPoint (cap : Nat) (steps : List Step)

namespace Lowered

/-- Continues with a further step unless the first one failed. -/
def andThen (first : Lowered) (next : Graph → Lowered) : Lowered :=
  match first with
  | (g, .error e) => (g, .error e)
  | (g, .ok stats) =>
    let (g, result) := next g
    (g, result.map stats.merge)

/-- Counts one more iteration. -/
def countIteration (stats : PassStats) : PassStats :=
  { stats with iterations := stats.iterations + 1 }

/-- Repeats a body until it changes nothing, at most `cap` times. -/
def iterate (body : Graph → Lowered) : Nat → Graph → Lowered
  | 0, g => (g, .ok {})
  | cap + 1, g =>
    match body g with
    | (g, .error e) => (g, .error e)
    | (g, .ok stats) =>
      if stats.changed then andThen (g, .ok (countIteration stats)) (iterate body cap)
      else (g, .ok (countIteration stats))

end Lowered

namespace Step

mutual

/-- Runs a step; a group runs at least once. -/
def run (options : LoweringOptions) : Step → Graph → Lowered
  | .pass p, g => p.run options g
  | .fixedPoint cap steps, g => Lowered.iterate (runAll options steps) (max cap 1) g

/-- Runs steps in order. -/
def runAll (options : LoweringOptions) : List Step → Graph → Lowered
  | [], g => (g, .ok {})
  | step :: steps, g => Lowered.andThen (run options step g) (runAll options steps)

end

/-- The cap of repeated groups unless the environment sets another one. -/
def defaultCap : Nat := 4

/-- The cap that an environment setting asks for; zero and junk are ignored. -/
def capOfSetting (setting : Option String) : Nat :=
  match setting.bind fun text => Text.nat? (Text.trim text.toList) with
  | some n => if n = 0 then defaultCap else n
  | none => defaultCap

/-- The standard pipeline. -/
def standard (cap : Nat) : List Step :=
  [ .pass .verify,
    .fixedPoint cap [.pass .fold, .pass .normalize, .pass .identities],
    .pass .linear,
    .pass .silu,
    .pass .gelu,
    .fixedPoint cap [.pass .identities, .pass .deadCode],
    .pass .verify ]

end Step

/-- Lowers a graph with the standard pipeline. -/
def Graph.lower (g : Graph) (cap : Nat) (options : LoweringOptions) : Lowered :=
  Step.runAll options (Step.standard cap) g

end HybridGraph
