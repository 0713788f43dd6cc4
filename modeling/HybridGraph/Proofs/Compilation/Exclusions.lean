import HybridGraph.Compilation.Compile
import HybridGraph.Proofs.Lowering.Pipeline
import HybridGraph.Proofs.Partition.Plans
/-!
# Exclusions in compilations

Exclusions are applied to the lowered graph, whose nodes descend from nodes of the graph that is
compiled.  A module that is excluded stays excluded, since a descendant is in the scope of its
ancestor.  A kind stays excluded only together with its parts: where `aten::silu` is excluded and
`aten::sigmoid` is not, the sigmoid that a sigmoid-weighted unit is decomposed into may be compiled.

    node ∈ g.nodes → (PartitionOptions.ofConfig c).Excludes node
    (compiler.compile s g c).1 = .ok compilation → compilation.plan.segments = []
-/

namespace HybridGraph

/-! ## Parts of a compilation -/

namespace ShapeTable

@[simp]
theorem nodes_refineValue (state : Graph × Nat) (entry : ValueId × ValueShape) :
    (refineValue state entry).1.nodes = state.1.nodes := by
  unfold refineValue
  dsimp only
  split <;> rfl

/-- Filling in types leaves the nodes alone. -/
theorem nodes_refine (table : ShapeTable) (g : Graph) : (table.refine g).1.nodes = g.nodes := by
  have hall : ∀ state : Graph × Nat, (table.foldl refineValue state).1.nodes = state.1.nodes := by
    induction table with
    | nil => exact fun _ => rfl
    | cons entry table ih => exact fun state => (ih _).trans (nodes_refineValue state entry)
  exact hall (g, 0)

end ShapeTable

namespace Compiler

variable {A : Accelerator} {compiler : Compiler A} {g : Graph} {c : CompileConfig}

theorem of_lower {options : LoweringOptions} {lowered : Graph}
    (h : compiler.lower g options = .ok lowered) : lowered = (g.lower compiler.cap options).1 := by
  unfold lower at h
  split at h
  next last result heq =>
    rw [heq]
    cases result with
    | error e => cases h
    | ok stats => exact (Except.ok.inj h).symm

/-- A prepared graph has the nodes of the lowered one and a valid plan. -/
theorem of_prepare {p : Prepared} (h : compiler.prepare g c = .ok p) :
    p.lowered.nodes = (g.lower compiler.cap c.lowering).1.nodes ∧
      p.lowered.partition compiler.registry (.ofConfig c) (some p.shapes) = .ok p.plan ∧
      p.plan.validate p.lowered = .ok () := by
  simp only [prepare, Outcome.bind_eq_ok, Outcome.mapError_eq_ok] at h
  obtain ⟨-, -, -, -, lowered, hlowered, -, -, plan, hplan, _, hvalid, hp⟩ := h
  obtain rfl := Outcome.pure_eq_ok.mp hp
  refine ⟨?_, hplan, hvalid⟩
  rw [← of_lower hlowered]
  exact ShapeTable.nodes_refine _ lowered

/-- What runs while a device is held has succeeded. -/
theorem of_holding {α : Type} {s : DeviceState} {device : Device}
    {run : Unit → Except CompileError α} {a : α} (h : (holding s device run).1 = .ok a) :
    run () = .ok a := by
  unfold holding at h
  split at h
  · cases h
  · exact h

/-- A compilation has the graph and the plan of its preparation, and links it. -/
theorem of_compile {s : DeviceState} {compilation : Compilation A}
    (h : (compiler.compile s g c).1 = .ok compilation) :
    ∃ p, compiler.prepare g c = .ok p ∧ compiler.link c p = .ok compilation.program ∧
      compilation.lowered = p.lowered ∧ compilation.plan = p.plan := by
  obtain ⟨made, hmade, rfl⟩ : ∃ made,
      (holding s c.device fun _ => compiler.linkHeld g c).1 = .ok made ∧
        compiler.compared g c made = compilation := Outcome.map_eq_ok.mp h
  obtain ⟨p, hp, h⟩ := Outcome.bind_eq_ok.mp (of_holding hmade)
  obtain ⟨program, hprogram, h⟩ := Outcome.bind_eq_ok.mp h
  obtain rfl := Outcome.pure_eq_ok.mp h
  exact ⟨p, hp, hprogram, rfl, rfl⟩

end Compiler

/-! ## Exclusions -/

/-- Options that keep a node, and whatever it is decomposed into, under the interpreter. -/
def PartitionOptions.Excludes (options : PartitionOptions) (node : Node) : Prop :=
  (∃ path ∈ options.excludedModules, node.inModule path = true) ∨
    node.kind ∈ options.excludedOps ∧ node.kind.parts ⊆ options.excludedOps

/-- A descendant of an excluded node is not eligible. -/
theorem PartitionOptions.Excludes.not_eligible {options : PartitionOptions} {node old : Node}
    (h : options.Excludes old) (hdescends : node.DescendsFrom old) {A : Accelerator} {g : Graph}
    {r : Registry A} : ¬ g.Eligible r options node := by
  intro heligible
  rcases h with ⟨path, hpath, hin⟩ | ⟨hkind, hparts⟩
  · have hout := heligible.scope path hpath
    rw [Node.inModule, hdescends.scope] at hout
    rw [Node.inModule, hout] at hin
    cases hin
  · rcases hdescends.kind with hsame | hpart
    · exact heligible.kind (hsame ▸ hkind)
    · exact heligible.kind (hparts hpart)

namespace Compiler

variable {A : Accelerator} {compiler : Compiler A} {g : Graph} {c : CompileConfig}
  {s : DeviceState} {compilation : Compilation A}

/-- What engines take is eligible in the lowered graph and descends from the graph compiled. -/
theorem exists_eligible_of_compile (hg : g.Ready)
    (h : (compiler.compile s g c).1 = .ok compilation) :
    ∀ id ∈ compilation.plan.engineNodes, ∃ node ∈ compilation.lowered.nodes, node.id = id ∧
      compilation.lowered.Eligible compiler.registry (.ofConfig c) node ∧
      ∃ old ∈ g.nodes, node.DescendsFrom old := by
  obtain ⟨p, hp, -, hlowered, hplan⟩ := of_compile h
  obtain ⟨hnodes, hpartition, -⟩ := of_prepare hp
  intro id hid
  rw [hplan] at hid
  obtain ⟨node, hn, heligible, hsame⟩ := Graph.engineNodes_subset_eligibleIds hpartition hid
  have hdescends := (Step.keeps_runAll c.lowering (Step.standard compiler.cap) g hg).descends
  refine ⟨node, hlowered ▸ hn, hsame, hlowered ▸ heligible, hdescends node ?_⟩
  rw [hnodes] at hn
  exact hn

/-- If every node is excluded together with its parts, no engine is built. -/
theorem segments_eq_nil_of_excludes (hg : g.verify = .ok ())
    (hids : ∀ node ∈ g.nodes, node.id.number < g.nextNode)
    (hroom : g.nextNode + g.demand < 2 ^ 32)
    (hexcludes : ∀ node ∈ g.nodes, (PartitionOptions.ofConfig c).Excludes node)
    (h : (compiler.compile s g c).1 = .ok compilation) : compilation.plan.segments = [] := by
  have hready : g.Ready := ⟨Graph.wellFormed_iff.mpr ⟨hg, hids⟩, hroom⟩
  refine List.eq_nil_iff_forall_not_mem.mpr fun segment hsegment => ?_
  obtain ⟨p, hp, -, -, hplan⟩ := of_compile h
  obtain ⟨-, index, -, hvalid⟩ := Plan.validate_eq_ok.mp (of_prepare hp).2.2
  have hnonempty := (Plan.checkSegment_eq_ok.mp (hvalid segment (hplan ▸ hsegment))).1
  obtain ⟨id, hid⟩ := List.exists_mem_of_ne_nil _ hnonempty
  obtain ⟨node, -, -, heligible, old, hold, hdescends⟩ :=
    exists_eligible_of_compile hready h id ⟨segment, hsegment, hid⟩
  exact (hexcludes old hold).not_eligible hdescends heligible

end Compiler

end HybridGraph
