import HybridGraph.Compilation.Compile
import Mathlib.Logic.Relation
/-!
# Lowering keeps inputs and outputs

Whatever the graph, well-formed or not, lowering leaves its list of inputs as it is, and an output
in the place of each output (`Graph.SameEnds`): outputs are renamed where a node is retired, and
nothing adds or drops one.  A pipeline is a sequence of passes and a pass a sequence of rewrites of
three kinds (`Graph.Rewrite`), so what every rewrite keeps a pipeline keeps.  Filling in types
changes neither end.  A graph that every pass leaves alone is left alone by every pipeline.

    g.Rewrites (Step.runAll options steps g).1                                    (rewrites_runAll)
    g.SameEnds (Step.runAll options steps g).1                                   (sameEnds_runAll)
    (∀ pass, pass.run options g = (g, .ok {})) →
      ∃ iterations, Step.runAll options steps g = (g, .ok { iterations })  (exists_runAll_eq_self)
-/

namespace HybridGraph

namespace Graph

/-! ## Rewrites -/

/-- The three ways in which passes change a graph: a node with a new result is emitted, a node is
retired, or the node list is replaced by another one. -/
inductive Rewrite : Graph → Graph → Prop
  | emit (e : Expansion) (kind : OpKind) (inputs : List ValueId) (type : ValueType)
      (attrs : AttrList) : Rewrite e.graph (e.emit kind inputs type attrs).1.graph
  | retire (g : Graph) (id : NodeId) (old new : ValueId) : Rewrite g (g.retire id old new)
  | nodes (g : Graph) (nodes : List Node) : Rewrite g { g with nodes }

/-- One rewrite after the other. -/
def Rewrites : Graph → Graph → Prop := Relation.ReflTransGen Rewrite

namespace Rewrites

variable {g : Graph} {e : Expansion}

theorem refl (g : Graph) : g.Rewrites g := Relation.ReflTransGen.refl

theorem emit (h : g.Rewrites e.graph) (kind : OpKind) (inputs : List ValueId) (type : ValueType)
    (attrs : AttrList) : g.Rewrites (e.emit kind inputs type attrs).1.graph :=
  h.tail (.emit e kind inputs type attrs)

theorem emitScalar (h : g.Rewrites e.graph) (kind : OpKind) (x : ValueId) (other : Float)
    (type : ValueType) : g.Rewrites (e.emitScalar kind x other type).1.graph :=
  h.emit kind [x] type _

/-- A sweep whose visits rewrite the graph rewrites it. -/
theorem foldl {α : Type} {visit : Graph × Nat → α → Graph × Nat}
    (hvisit : ∀ (state : Graph × Nat) (a : α), state.1.Rewrites (visit state a).1) (as : List α)
    (state : Graph × Nat) : state.1.Rewrites (as.foldl visit state).1 := by
  induction as generalizing state with
  | nil => exact .refl state.1
  | cons a as ih => exact (hvisit state a).trans (ih (visit state a))

end Rewrites

end Graph

open HybridGraph.Graph

/-! ## Passes -/

theorem Folding.rewrites_visit (state : Graph × Nat) (id : NodeId) :
    state.1.Rewrites (visit state id).1 := by
  have hfold : ∀ fold? (state : Graph × Nat), state.1.Rewrites (applyFold fold? id state).1 := by
    intro fold? state
    unfold applyFold
    split
    · exact .single (.nodes _ _)
    · exact .refl state.1
  exact (hfold foldAttributes? state).trans (hfold foldOther? _)

theorem Identities.rewrites_visit (state : Graph × Nat) (id : NodeId) :
    state.1.Rewrites (visit state id).1 := by
  unfold visit
  split
  · exact .refl state.1
  · split
    · exact .single (.retire _ _ _ _)
    · exact .refl state.1

namespace Decomposition

variable {g g' : Graph} {node : Node} {e : Expansion}

/-- A node is retired in a graph to which nodes have been added. -/
theorem rewrites_finish {id : NodeId} {old : ValueId} {emitted : Expansion × ValueId}
    (hemitted : g.Rewrites emitted.1.graph) (h : finish id old emitted = .replaced g') :
    g.Rewrites g' := by
  obtain rfl := Verdict.replaced.inj h
  exact hemitted.tail (.retire _ _ _ _)

theorem rewrites_emitLinear (h : g.Rewrites e.graph) (x weight : ValueId) (bias? : Option ValueId)
    (weightType outType : ValueType) :
    g.Rewrites (emitLinear e x weight bias? weightType outType).1.graph := by
  unfold emitLinear
  cases bias? with
  | none => exact (h.emit ..).emit ..
  | some bias => exact ((h.emit ..).emit ..).emit ..

theorem rewrites_emitGelu (h : g.Rewrites e.graph) (x : ValueId) (useTanh : Bool)
    (type outType : ValueType) : g.Rewrites (emitGelu e x useTanh type outType).1.graph := by
  unfold emitGelu
  cases useTanh with
  | true =>
    have hinner : g.Rewrites (emitTanhTerm e x type).1.graph :=
      ((((h.emitScalar ..).emitScalar ..).emit ..).emitScalar ..).emit ..
    exact ((hinner.emitScalar ..).emitScalar ..).emit ..
  | false =>
    have hinner : g.Rewrites (emitErfTerm e x type).1.graph := (h.emitScalar ..).emit ..
    exact ((hinner.emitScalar ..).emitScalar ..).emit ..

theorem graph_of_before? {id : NodeId} (h : Expansion.before? g id = some e) : e.graph = g := by
  obtain ⟨position, -, h⟩ := Option.bind_eq_some_iff.mp h
  obtain ⟨node, -, h⟩ := Option.bind_eq_some_iff.mp h
  rw [← Option.some.inj h]

theorem rewrites_linear (h : linear g node = .replaced g') : g.Rewrites g' := by
  unfold linear at h
  split at h
  · next x weight rest _ =>
    split at h
    · cases h
    · dsimp only at h
      split at h
      · cases h
      · split at h
        · next e _ he =>
          obtain rfl := graph_of_before? he
          exact rewrites_finish (rewrites_emitLinear (.refl _) ..) h
        · cases h
  · cases h

theorem rewrites_silu (h : silu g node = .replaced g') : g.Rewrites g' := by
  unfold silu at h
  split at h
  · next e _ _ he =>
    obtain rfl := graph_of_before? he
    exact rewrites_finish (((Rewrites.refl _).emit ..).emit ..) h
  · cases h

theorem rewrites_gelu (options : LoweringOptions) (h : gelu options g node = .replaced g') :
    g.Rewrites g' := by
  unfold gelu at h
  split at h
  · next x name _ _ =>
    split at h
    · cases h
    · split at h
      · next e _ he =>
        obtain rfl := graph_of_before? he
        exact rewrites_finish (rewrites_emitGelu (.refl _) ..) h
      · cases h
  · cases h

theorem rewrites_visitAll (pass : String) {visit : Graph → Node → Verdict}
    (hvisit : ∀ {g g' : Graph} {node : Node}, visit g node = .replaced g' → g.Rewrites g')
    (g : Graph) (count : Nat) (ids : List NodeId) :
    g.Rewrites (visitAll pass visit g count ids).1 := by
  induction ids generalizing g count with
  | nil => exact .refl g
  | cons id ids ih =>
    rw [visitAll]
    split
    · exact ih g count
    · split
      · exact ih g count
      · next heq => exact (hvisit heq).trans (ih _ _)
      · exact .refl g

end Decomposition

/-- A pass is a sequence of rewrites. -/
theorem Pass.rewrites_run (options : LoweringOptions) (pass : Pass) (g : Graph) :
    g.Rewrites (pass.run options g).1 := by
  cases pass with
  | verify => exact .refl g
  | fold => exact Rewrites.foldl Folding.rewrites_visit g.nodeIds (g, 0)
  | normalize => exact .single (.nodes g _)
  | identities => exact Rewrites.foldl Identities.rewrites_visit (Identities.found g) (g, 0)
  | linear => exact Decomposition.rewrites_visitAll _ Decomposition.rewrites_linear _ _ _
  | silu => exact Decomposition.rewrites_visitAll _ Decomposition.rewrites_silu _ _ _
  | gelu => exact Decomposition.rewrites_visitAll _ (Decomposition.rewrites_gelu options) _ _ _
  | deadCode => exact .single (.nodes g _)

/-! ## Steps -/

/-- The second graph is what passes, one after the other, leave of the first. -/
def Graph.LowersTo (options : LoweringOptions) : Graph → Graph → Prop :=
  Relation.ReflTransGen fun g g' => ∃ pass : Pass, (pass.run options g).1 = g'

namespace Lowered

variable {options : LoweringOptions}

theorem lowersTo_andThen {g : Graph} {first : Lowered} (h : g.LowersTo options first.1)
    {next : Graph → Lowered} (hnext : ∀ g : Graph, g.LowersTo options (next g).1) :
    g.LowersTo options (first.andThen next).1 := by
  obtain ⟨g', result⟩ := first
  cases result with
  | error e => exact h
  | ok stats => exact h.trans (hnext g')

theorem lowersTo_iterate {body : Graph → Lowered}
    (hbody : ∀ g : Graph, g.LowersTo options (body g).1) (cap : Nat) (g : Graph) :
    g.LowersTo options (iterate body cap g).1 := by
  induction cap generalizing g with
  | zero => exact .refl
  | succ cap ih =>
    have hfirst := hbody g
    rw [iterate]
    split
    · next heq =>
      rw [heq] at hfirst
      exact hfirst
    · next heq =>
      rw [heq] at hfirst
      split
      · exact lowersTo_andThen hfirst ih
      · exact hfirst

end Lowered

namespace Step

variable (options : LoweringOptions)

mutual

theorem lowersTo_run (step : Step) (g : Graph) : g.LowersTo options (run options step g).1 := by
  cases step with
  | pass pass => exact .single ⟨pass, rfl⟩
  | fixedPoint cap steps => exact Lowered.lowersTo_iterate (lowersTo_runAll steps) _ g

/-- A pipeline is a sequence of passes. -/
theorem lowersTo_runAll (steps : List Step) (g : Graph) :
    g.LowersTo options (runAll options steps g).1 := by
  cases steps with
  | nil => exact .refl
  | cons step steps => exact Lowered.lowersTo_andThen (lowersTo_run step g) (lowersTo_runAll steps)

end

/-- So a pipeline is a sequence of rewrites. -/
theorem rewrites_runAll (steps : List Step) (g : Graph) :
    g.Rewrites (runAll options steps g).1 := by
  have hlowers := lowersTo_runAll options steps g
  generalize (runAll options steps g).1 = g' at hlowers ⊢
  induction hlowers with
  | refl => exact .refl g
  | tail _ hpass ih =>
    obtain ⟨pass, rfl⟩ := hpass
    exact ih.trans (pass.rewrites_run options _)

/-! ## Graphs that are left alone -/

variable {options} {g : Graph}

mutual

theorem exists_run_eq_self (h : ∀ pass : Pass, pass.run options g = (g, .ok {})) (step : Step) :
    ∃ iterations, run options step g = (g, .ok { iterations }) := by
  cases step with
  | pass pass => exact ⟨0, h pass⟩
  | fixedPoint cap steps =>
    obtain ⟨iterations, hrun⟩ := exists_runAll_eq_self h steps
    obtain ⟨n, hn⟩ : ∃ n, max cap 1 = n + 1 := ⟨max cap 1 - 1, by omega⟩
    refine ⟨iterations + 1, ?_⟩
    rw [run, hn, Lowered.iterate, hrun]
    rfl

/-- Only rounds are reported. -/
theorem exists_runAll_eq_self (h : ∀ pass : Pass, pass.run options g = (g, .ok {}))
    (steps : List Step) : ∃ iterations, runAll options steps g = (g, .ok { iterations }) := by
  cases steps with
  | nil => exact ⟨0, rfl⟩
  | cons step steps =>
    obtain ⟨first, hfirst⟩ := exists_run_eq_self h step
    obtain ⟨rest, hrest⟩ := exists_runAll_eq_self h steps
    refine ⟨first + rest, ?_⟩
    rw [runAll, hfirst, Lowered.andThen, hrest]
    rfl

end

end Step

/-! ## Inputs and outputs -/

/-- A graph with the same inputs and as many outputs. -/
structure Graph.SameEnds (g g' : Graph) : Prop where
  inputs : g'.inputs = g.inputs
  outputs : g'.outputs.length = g.outputs.length

namespace Graph.SameEnds

variable {g g' g'' : Graph}

theorem refl (g : Graph) : g.SameEnds g := ⟨rfl, rfl⟩

theorem trans (h : g.SameEnds g') (h' : g'.SameEnds g'') : g.SameEnds g'' :=
  ⟨h'.inputs.trans h.inputs, h'.outputs.trans h.outputs⟩

theorem of_rewrite (h : g.Rewrite g') : g.SameEnds g' := by
  cases h with
  | emit => exact ⟨rfl, rfl⟩
  | retire => exact ⟨rfl, List.length_map _⟩
  | nodes => exact ⟨rfl, rfl⟩

theorem of_rewrites (h : g.Rewrites g') : g.SameEnds g' := by
  induction h with
  | refl => exact .refl g
  | tail _ hrewrite ih => exact ih.trans (.of_rewrite hrewrite)

/-- A sweep whose visits keep inputs and outputs keeps them. -/
theorem foldl {α : Type} {visit : Graph × Nat → α → Graph × Nat}
    (hvisit : ∀ (state : Graph × Nat) (a : α), state.1.SameEnds (visit state a).1) (as : List α)
    (state : Graph × Nat) : state.1.SameEnds (as.foldl visit state).1 := by
  induction as generalizing state with
  | nil => exact .refl state.1
  | cons a as ih => exact (hvisit state a).trans (ih (visit state a))

end Graph.SameEnds

theorem Step.sameEnds_runAll (options : LoweringOptions) (steps : List Step) (g : Graph) :
    g.SameEnds (runAll options steps g).1 := .of_rewrites (rewrites_runAll options steps g)

/-! ## Types filled in -/

theorem ShapeTable.sameEnds_refine (table : ShapeTable) (g : Graph) :
    g.SameEnds (table.refine g).1 := by
  refine SameEnds.foldl (fun state entry => ?_) table (g, 0)
  unfold refineValue
  dsimp only
  split
  · exact ⟨rfl, rfl⟩
  · exact .refl state.1

end HybridGraph
