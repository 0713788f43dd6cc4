import HybridGraph.Proofs.Lowering.Ends
import HybridGraph.Proofs.Lowering.Finished
import HybridGraph.Proofs.Lowering.Progress
/-!
# Lowering twice

A pass changes nothing exactly if there is nothing in the graph for it to do (`run_eq_self_iff`),
and a pipeline that leaves a graph as it was is one of passes that do (`Step.passesAll_eq_self`).
So the standard pipeline leaves a graph as it is exactly if every pass does:

    (∃ stats, g.lower cap options = (g, .ok stats)) ↔ g.LeftAlone options    (lower_eq_self_iff)

Lowering once need not lead to such a graph, since a group stops at its cap although its last round
still changed something.  Under a cap above the work that the graph is, the first group ends with a
round that changes nothing and leaves simple nodes only; the decompositions finish their kinds and
keep that; and the second group then removes dead nodes and does nothing else.  So what is left is
left alone by every pass, and lowering it again changes nothing, as long as the node ids suffice:

    g.verify = .ok () → … → g.work < cap → g.lower cap options = (g', .ok stats) →
      g'.LeftAlone options ∧ …                                                (lower_idempotent)
-/

namespace HybridGraph

open HybridGraph.Graph

/-! ## Passes that change nothing -/

/-- A sweep that counts nothing in the end has counted nothing before. -/
theorem Counts.eq_self {g g' : Graph} {state : Graph × Nat} (h : Counts (g, 0) state)
    (h' : Counts state (g', 0)) : state = (g, 0) := by
  obtain ⟨-, k, hcount, -⟩ := id h
  obtain ⟨-, k', hcount', -⟩ := h'
  have hnone : state.2 = 0 := by
    dsimp only at hcount'
    omega
  exact Prod.ext (h.tells_count.eq_false_iff.mp (by simp [hnone])) hnone

namespace Folding

variable {g : Graph}

theorem visit_eq_self {ids : List NodeId} (h : ids.foldl visit (g, 0) = (g, 0)) :
    ∀ id ∈ ids, visit (g, 0) id = (g, 0) := by
  induction ids with
  | nil => exact List.forall_mem_nil _
  | cons id ids ih =>
    rw [List.foldl_cons] at h
    have hrest := Counts.foldl counts_visit ids (visit (g, 0) id)
    rw [h] at hrest
    have hfirst := (counts_visit (g, 0) id).eq_self hrest
    rw [hfirst] at h
    exact List.forall_mem_cons.mpr ⟨hfirst, ih h⟩

theorem applyFold_eq_self_iff {fold? : Graph → Node → Option Node} {node : Node} {id : NodeId}
    (hnode : g.node? id = some node) :
    applyFold fold? id (g, 0) = (g, 0) ↔ fold? g node = none := by
  unfold applyFold
  rw [hnode, Option.bind_some]
  cases fold? g node <;> simp

/-- Folding changes nothing exactly if no node can be folded. -/
theorem run_eq_self_iff (hg : g.SingleAssignment) : run g = (g, 0) ↔
    ∀ node ∈ g.nodes, foldAttributes? g node = none ∧ foldOther? g node = none := by
  have hvisit : ∀ node ∈ g.nodes, visit (g, 0) node.id = (g, 0) ↔
      foldAttributes? g node = none ∧ foldOther? g node = none := by
    intro node hn
    have hnode := node?_id hg hn
    rw [← applyFold_eq_self_iff hnode, ← applyFold_eq_self_iff hnode]
    constructor
    · intro h
      have hother := counts_applyFold foldOther? work_foldOther node.id
        (applyFold foldAttributes? node.id (g, 0))
      unfold visit at h
      rw [h] at hother
      have hfirst := (counts_applyFold foldAttributes? work_foldAttributes node.id (g, 0)).eq_self
        hother
      rw [hfirst] at h
      exact ⟨hfirst, h⟩
    · rintro ⟨hfirst, hsecond⟩
      rw [visit, hfirst, hsecond]
  constructor
  · intro h node hn
    exact (hvisit node hn).mp (visit_eq_self h node.id (List.mem_map_of_mem hn))
  · intro h
    have hids : ∀ id ∈ g.nodeIds, visit (g, 0) id = (g, 0) := by
      intro id hid
      obtain ⟨node, hn, rfl⟩ := List.mem_map.mp hid
      exact (hvisit node hn).mpr (h node hn)
    unfold run
    generalize g.nodeIds = ids at hids ⊢
    induction ids with
    | nil => rfl
    | cons id ids ih =>
      obtain ⟨hfirst, hrest⟩ := List.forall_mem_cons.mp hids
      rw [List.foldl_cons, hfirst, ih hrest]

end Folding

/-- Writing defaults out changes nothing exactly if every node has its own. -/
theorem Defaults.run_eq_self_iff {g : Graph} :
    run g = (g, 0) ↔ ∀ node ∈ g.nodes, isIncomplete g node = false := by
  have hnone : (run g).2 = 0 ↔ ∀ node ∈ g.nodes, isIncomplete g node = false := by
    show (g.nodes.filter (isIncomplete g)).length = 0 ↔ _
    rw [List.length_eq_zero_iff, List.filter_eq_nil_iff]
    simp
  rw [← hnone]
  refine ⟨congrArg Prod.snd, fun h => Prod.ext ?_ h⟩
  exact (tells_run g).eq_false_iff.mp (by simp [h])

namespace Identities

variable {g : Graph}

theorem count_le_foldl_visit (ids : List NodeId) (state : Graph × Nat) :
    state.2 ≤ (ids.foldl visit state).2 := by
  induction ids generalizing state with
  | nil => exact Nat.le_refl _
  | cons id ids ih =>
    refine Nat.le_trans ?_ (ih (visit state id))
    unfold visit
    split
    · exact Nat.le_refl _
    · split
      · exact Nat.le_succ _
      · exact Nat.le_refl _

/-- Retiring identities changes nothing exactly if there are none. -/
theorem run_eq_self_iff (hg : g.SingleAssignment) :
    run g = (g, 0) ↔ ∀ node ∈ g.nodes, isIdentity g node = false := by
  have hnone : (∀ node ∈ g.nodes, isIdentity g node = false) ↔
      g.nodes.filter (isIdentity g) = [] := by
    rw [List.filter_eq_nil_iff]
    simp
  rw [hnone]
  unfold run found
  cases hfound : g.nodes.filter (isIdentity g) with
  | nil => exact iff_of_true rfl rfl
  | cons node rest =>
    obtain ⟨hn, hidentity⟩ := List.mem_filter.mp (hfound ▸ List.mem_cons_self)
    obtain ⟨x, out, hinputs, houtputs, -⟩ := exists_of_isIdentity hidentity
    refine iff_of_false (fun h => ?_) (List.cons_ne_nil _ _)
    have hcount := count_le_foldl_visit (rest.map Node.id) (visit (g, 0) node.id)
    rw [List.map_cons, List.foldl_cons] at h
    rw [h, visit, node?_id hg hn] at hcount
    simp [hinputs, houtputs] at hcount

end Identities

/-- A decomposition changes nothing if no node of its kind is composite. -/
theorem Decomposition.Decomposes.visitKind_eq_self {g : Graph} {kind : OpKind}
    {visit : Graph → Node → Verdict} (hd : Decomposes kind visit) (pass : String)
    (hg : g.WellFormed) (hfinished : ∀ id, ¬ g.Unfinished kind id) :
    visitKind pass kind visit g = (g, .ok {}) := by
  have hids := ofKind_filter hg kind
  unfold visitKind
  generalize (g.nodes.filter (·.kind = kind)).map Node.id = ids at hids ⊢
  induction ids with
  | nil => rfl
  | cons id ids ih =>
    have hrest : g.OfKind (· = kind) ids := fun other ho => hids other (List.mem_cons_of_mem _ ho)
    rw [visitAll]
    cases hnode : g.node? id with
    | none => exact ih hrest
    | some node =>
      obtain ⟨hn, rfl⟩ := mem_of_node? hnode
      have hkind := (hids _ List.mem_cons_self).2 node hn rfl
      have hkeep : visit g node = .keep := (hd.keep_iff hg hn hkind).mpr fun hcomposite =>
        hfinished node.id ⟨node, hn, rfl, hkind, hcomposite⟩
      simp only [hkeep]
      exact ih hrest

/-! ## Graphs that passes leave alone -/

/-- Every pass leaves the graph alone. -/
def Graph.LeftAlone (options : LoweringOptions) (g : Graph) : Prop :=
  ∀ pass : Pass, pass.run options g = (g, .ok {})

variable {g g' : Graph} {options : LoweringOptions} {stats : PassStats}

namespace Pass

theorem modified_eq_self_iff {result : Graph × Nat} :
    modified result = (g, .ok {}) ↔ result = (g, 0) := by
  refine ⟨fun h => ?_, fun h => h ▸ rfl⟩
  obtain ⟨hgraph, hstats⟩ := Prod.mk.inj h
  exact Prod.ext hgraph (congrArg PassStats.modified (Except.ok.inj hstats))

theorem erased_eq_self_iff {result : Graph × Nat} :
    erased result = (g, .ok {}) ↔ result = (g, 0) := by
  refine ⟨fun h => ?_, fun h => h ▸ rfl⟩
  obtain ⟨hgraph, hstats⟩ := Prod.mk.inj h
  exact Prod.ext hgraph (congrArg PassStats.erased (Except.ok.inj hstats))

/-- A pass that leaves the graph as it was reports nothing. -/
theorem run_eq_self (pass : Pass) (h : pass.run options g = (g, .ok stats)) :
    pass.run options g = (g, .ok {}) := by
  have hunchanged : stats.changed = false := by
    refine (pass.reports_run options g stats (congrArg Prod.snd h)).eq_false_iff.mpr ?_
    exact congrArg Prod.fst h
  have hform : ∃ k, stats = .ofModified k ∨ stats = .ofErased k := by
    have hstats := congrArg Prod.snd h
    cases pass with
    | verify =>
      rw [run] at hstats
      cases hverify : g.verify with
      | error cause =>
        rw [hverify] at hstats
        cases hstats
      | ok _ =>
        rw [hverify] at hstats
        exact ⟨0, .inl (Except.ok.inj hstats).symm⟩
    | fold | normalize => exact ⟨_, .inl (Except.ok.inj hstats).symm⟩
    | identities | deadCode => exact ⟨_, .inr (Except.ok.inj hstats).symm⟩
    | linear =>
      obtain ⟨k, hk, -⟩ := Decomposition.Decomposes.linear.exists_tells_visitKind _ hstats
      exact ⟨k, .inl hk⟩
    | silu =>
      obtain ⟨k, hk, -⟩ := Decomposition.Decomposes.silu.exists_tells_visitKind _ hstats
      exact ⟨k, .inl hk⟩
    | gelu =>
      obtain ⟨k, hk, -⟩ :=
        (Decomposition.Decomposes.gelu options).exists_tells_visitKind _ hstats
      exact ⟨k, .inl hk⟩
  obtain ⟨k, rfl | rfl⟩ := hform
  all_goals
    obtain rfl : k = 0 := by simpa [PassStats.ofModified, PassStats.ofErased] using hunchanged
    exact h

end Pass

/-- A graph is simplified exactly if the simplifying passes leave it alone. -/
theorem Graph.simplified_iff (options : LoweringOptions) (hg : g.SingleAssignment) : g.Simplified ↔
    ∀ pass ∈ [Pass.fold, .normalize, .identities], pass.run options g = (g, .ok {}) := by
  simp only [List.forall_mem_cons, Pass.run, Pass.modified_eq_self_iff, Pass.erased_eq_self_iff,
    Folding.run_eq_self_iff hg, Defaults.run_eq_self_iff, Identities.run_eq_self_iff hg]
  constructor
  · intro h
    exact ⟨fun node hn => ⟨(h node hn).attributes, (h node hn).other⟩,
      fun node hn => (h node hn).complete, fun node hn => (h node hn).active,
      List.forall_mem_nil _⟩
  · rintro ⟨hfold, hcomplete, hactive, -⟩ node hn
    exact ⟨(hfold node hn).1, (hfold node hn).2, hcomplete node hn, hactive node hn⟩

/-- A graph is left alone once nothing is left to simplify, to decompose or to remove. -/
theorem Graph.leftAlone_of_finished (hg : g.WellFormed) (hsimple : g.Simplified)
    (hfinished : ∀ kind id, ¬ g.Unfinished kind id) (hlive : DeadCode.run g = (g, 0)) :
    g.LeftAlone options := by
  intro pass
  cases pass with
  | verify =>
    rw [Pass.run, (wellFormed_iff.mp hg).1]
    rfl
  | fold | normalize | identities => exact (simplified_iff options hg.form).mp hsimple _ (by decide)
  | linear => exact Decomposition.Decomposes.linear.visitKind_eq_self _ hg (hfinished _)
  | silu => exact Decomposition.Decomposes.silu.visitKind_eq_self _ hg (hfinished _)
  | gelu => exact (Decomposition.Decomposes.gelu options).visitKind_eq_self _ hg (hfinished _)
  | deadCode => exact Pass.erased_eq_self_iff.mpr hlive

/-! ## Pipelines that change nothing -/

/-- Two steps that together leave the graph as it was do so one by one. -/
theorem Lowered.eq_self_of_andThen {first : Lowered} {next : Graph → Lowered}
    (hfirst : first.Reports g) (hnext : ∀ g : Graph, (next g).Reports g)
    (h : first.andThen next = (g, .ok stats)) :
    ∃ s s', first = (g, .ok s) ∧ next g = (g, .ok s') := by
  obtain ⟨mid, s, s', rfl, hlast, -⟩ := andThen_eq_ok.mp h
  have htells := hnext mid s' (congrArg Prod.snd hlast)
  rw [hlast] at htells
  have hboth := (hfirst s rfl).trans htells
  obtain ⟨hdown, -⟩ := Bool.or_eq_false_iff.mp (hboth.eq_false_iff.mpr rfl)
  obtain rfl := (hfirst s rfl).eq_false_iff.mp hdown
  exact ⟨s, s', rfl, hlast⟩

/-- Rounds that together leave the graph as it was begin with one that does. -/
theorem Lowered.eq_self_of_iterate {body : Graph → Lowered}
    (hbody : ∀ g : Graph, (body g).Reports g) {cap : Nat}
    (h : iterate body (cap + 1) g = (g, .ok stats)) : ∃ s, body g = (g, .ok s) := by
  have hreports := hbody g
  rw [iterate] at h
  split at h
  · cases congrArg Prod.snd h
  · next mid s hround =>
    rw [hround] at hreports
    split at h
    · have hreported : Reports (mid, .ok (countIteration s)) g := reports_ok (hreports s rfl)
      obtain ⟨_, _, hfirst, -⟩ := eq_self_of_andThen hreported (reports_iterate hbody cap) h
      obtain rfl : mid = g := congrArg Prod.fst hfirst
      exact ⟨s, hround⟩
    · obtain rfl : mid = g := congrArg Prod.fst h
      exact ⟨s, hround⟩

namespace Step

mutual

/-- The passes of a step. -/
def passes : Step → List Pass
  | .pass p => [p]
  | .fixedPoint _ steps => passesAll steps

/-- The passes of a pipeline. -/
def passesAll : List Step → List Pass
  | [] => []
  | step :: steps => passes step ++ passesAll steps

end

mutual

theorem passes_eq_self (step : Step) (stats : PassStats)
    (h : run options step g = (g, .ok stats)) :
    ∀ pass ∈ passes step, pass.run options g = (g, .ok {}) := by
  cases step with
  | pass p =>
    intro pass hpass
    rw [List.mem_singleton.mp hpass]
    exact p.run_eq_self h
  | fixedPoint cap steps =>
    obtain ⟨n, hn⟩ : ∃ n, max cap 1 = n + 1 := ⟨max cap 1 - 1, by omega⟩
    rw [run, hn] at h
    obtain ⟨s, hround⟩ := Lowered.eq_self_of_iterate (reports_runAll options steps) h
    exact passesAll_eq_self steps s hround

/-- A pipeline that leaves the graph as it was is one of passes that do. -/
theorem passesAll_eq_self (steps : List Step) (stats : PassStats)
    (h : runAll options steps g = (g, .ok stats)) :
    ∀ pass ∈ passesAll steps, pass.run options g = (g, .ok {}) := by
  cases steps with
  | nil => exact List.forall_mem_nil _
  | cons step steps =>
    obtain ⟨s, s', hfirst, hrest⟩ := Lowered.eq_self_of_andThen (reports_run options step g)
      (reports_runAll options steps) h
    exact List.forall_mem_append.mpr
      ⟨passes_eq_self step s hfirst, passesAll_eq_self steps s' hrest⟩

end

/-- The first step of a pipeline that ends well leaves a ready graph to the others. -/
theorem runAll_cons_eq_ok (hg : g.Ready) {step : Step} {steps : List Step}
    (h : runAll options (step :: steps) g = (g', .ok stats)) :
    ∃ mid s s', mid.Ready ∧ run options step g = (mid, .ok s) ∧
      runAll options steps mid = (g', .ok s') := by
  obtain ⟨mid, s, s', hfirst, hrest, -⟩ := Lowered.andThen_eq_ok.mp h
  have hkeeps := keeps_run options step g hg
  rw [hfirst] at hkeeps
  exact ⟨mid, s, s', hkeeps.preserves.ready hg, hfirst, hrest⟩

/-- A round of the first group adds no values. -/
theorem values_simplification (options : LoweringOptions) (g : Graph) :
    (runAll options [.pass .fold, .pass .normalize, .pass .identities] g).1.values = g.values :=
  (Identities.counts_run (Defaults.run (Folding.run g).1).1).values.trans
    (Folding.counts_run g).values

/-- Under a large cap the simplifying passes leave alone what the first group leaves. -/
theorem passes_eq_self_of_simplification {cap : Nat} (hcap : g.work < cap)
    (h : run options (.fixedPoint cap [.pass .fold, .pass .normalize, .pass .identities]) g =
      (g', .ok stats)) :
    ∀ pass ∈ [Pass.fold, .normalize, .identities], pass.run options g' = (g', .ok {}) := by
  obtain ⟨last, -, hround⟩ := Lowered.exists_last_round (reports_runAll options _)
    (values_simplification options) (Nat.lt_of_lt_of_le hcap (Nat.le_max_left cap 1))
    (congrArg Prod.snd h)
  rw [show Lowered.iterate _ _ _ = (g', .ok stats) from h] at hround
  exact passesAll_eq_self _ last hround

/-! ## The standard pipeline -/

/-- The decompositions finish all kinds. -/
theorem finished_of_decompositions (hg : g.Ready) {steps : List Step}
    (h : runAll options (.pass .linear :: .pass .silu :: .pass .gelu :: steps) g =
      (g', .ok stats)) : ∃ mid s, mid.Ready ∧ g.Advances mid ∧
        (∀ kind id, ¬ mid.Unfinished kind id) ∧ runAll options steps mid = (g', .ok s) := by
  obtain ⟨g₁, _, _, h₁, hlinear, h⟩ := runAll_cons_eq_ok hg h
  obtain ⟨g₂, _, _, h₂, hsilu, h⟩ := runAll_cons_eq_ok h₁ h
  obtain ⟨g₃, _, s, h₃, hgelu, h⟩ := runAll_cons_eq_ok h₂ h
  obtain ⟨hto₁, hno₁⟩ := Decomposition.Decomposes.linear.finished_visitKind hg hlinear
  obtain ⟨hto₂, hno₂⟩ := Decomposition.Decomposes.silu.finished_visitKind h₁ hsilu
  obtain ⟨hto₃, hno₃⟩ := (Decomposition.Decomposes.gelu options).finished_visitKind h₂ hgelu
  refine ⟨g₃, s, h₃, hto₁.trans (hto₂.trans hto₃), fun kind id hleft => ?_, h⟩
  have hleft₂ := hto₃.composite kind id hleft
  have hleft₁ := hto₂.composite kind id hleft₂
  -- no other kind has composite nodes
  have ⟨node, _, _, hsame, hcomposite⟩ := hleft
  subst hsame
  unfold Decomposition.IsComposite at hcomposite
  split at hcomposite
  · next hkind => exact hno₁ id (hkind ▸ hleft₁)
  · next hkind => exact hno₂ id (hkind ▸ hleft₂)
  · next hkind => exact hno₃ id (hkind ▸ hleft)
  · exact hcomposite

/-- A round of the second group removes dead nodes from a simplified graph, and says so. -/
theorem runAll_removal (options : LoweringOptions) (hg : g.SingleAssignment)
    (hsimple : g.Simplified) :
    ∃ s, runAll options [.pass .identities, .pass .deadCode] g = ((DeadCode.run g).1, .ok s) ∧
      s.changed = ((DeadCode.run g).2 != 0) := by
  have hidentities := (simplified_iff options hg).mp hsimple .identities (by decide)
  refine ⟨PassStats.merge {} (PassStats.merge (.ofErased (DeadCode.run g).2) {}), ?_, ?_⟩
  · rw [runAll, run, hidentities]
    rfl
  · simp [PassStats.merge, PassStats.ofErased]

/-- The second group removes dead nodes from a simplified graph and does nothing else. -/
theorem run_removal (hg : g.SingleAssignment) (hsimple : g.Simplified) (cap : Nat) :
    (run options (.fixedPoint cap [.pass .identities, .pass .deadCode]) g).1 =
      (DeadCode.run g).1 := by
  obtain ⟨n, hn⟩ : ∃ n, max cap 1 = n + 1 := ⟨max cap 1 - 1, by omega⟩
  rw [run, hn]
  clear hn
  induction n generalizing g with
  | zero =>
    obtain ⟨s, hround, -⟩ := runAll_removal options hg hsimple
    rw [Lowered.iterate, hround]
    dsimp only
    split <;> rfl
  | succ n ih =>
    obtain ⟨s, hround, -⟩ := runAll_removal options hg hsimple
    have hrest := ih (DeadCode.singleAssignment_run hg)
      ((DeadCode.advances_run hg).simplified hsimple)
    rw [DeadCode.run_run hg] at hrest
    rw [Lowered.iterate, hround]
    dsimp only
    split
    · exact hrest
    · rfl

end Step

/-! ## Top theorem -/

/-- A graph is left as it is by the standard pipeline exactly if every pass leaves it alone. -/
theorem Graph.lower_eq_self_iff (cap : Nat) :
    (∃ stats, g.lower cap options = (g, .ok stats)) ↔ g.LeftAlone options := by
  constructor
  · rintro ⟨stats, hlower⟩ pass
    refine Step.passesAll_eq_self (Step.standard cap) stats hlower pass ?_
    cases pass <;> simp [Step.standard, Step.passesAll, Step.passes]
  · intro halone
    obtain ⟨iterations, hlower⟩ := Step.exists_runAll_eq_self halone (Step.standard cap)
    exact ⟨_, hlower⟩

/-- Under a cap above the work that a graph is, what lowering leaves is left alone by every pass, so
every pipeline leaves it as it is and reports nothing but its rounds. -/
theorem Graph.lower_idempotent (hg : g.verify = .ok ())
    (hids : ∀ node ∈ g.nodes, node.id.number < g.nextNode)
    (hroom : g.nextNode + g.demand < 2 ^ 32) {cap : Nat} (hcap : g.work < cap)
    (h : g.lower cap options = (g', .ok stats)) : g'.LeftAlone options ∧
      ∀ steps, ∃ iterations, Step.runAll options steps g' = (g', .ok { iterations }) := by
  have hready : g.Ready := ⟨wellFormed_iff.mpr ⟨hg, hids⟩, hroom⟩
  obtain ⟨g₀, _, _, -, hverify, h⟩ := Step.runAll_cons_eq_ok hready h
  obtain rfl : g = g₀ := congrArg Prod.fst hverify
  obtain ⟨g₁, _, _, h₁, hgroup, h⟩ := Step.runAll_cons_eq_ok hready h
  obtain ⟨g₂, _, h₂, hadvances, hfinished, h⟩ := Step.finished_of_decompositions h₁ h
  obtain ⟨g₃, _, _, h₃, hremoval, h⟩ := Step.runAll_cons_eq_ok h₂ h
  obtain ⟨g₄, _, _, -, hlast, h⟩ := Step.runAll_cons_eq_ok h₃ h
  obtain rfl : g₃ = g₄ := congrArg Prod.fst hlast
  obtain rfl : g₃ = g' := congrArg Prod.fst h
  have hsimple := hadvances.simplified ((simplified_iff options h₁.form).mpr
    (Step.passes_eq_self_of_simplification hcap hgroup))
  have hremoved : g₃ = (DeadCode.run g₂).1 :=
    (congrArg Prod.fst hremoval).symm.trans (Step.run_removal h₂.form hsimple cap)
  have hlast : g₂.Advances g₃ := hremoved ▸ DeadCode.advances_run h₂.form
  have halone : g₃.LeftAlone options := by
    refine leftAlone_of_finished h₃.toWellFormed (hlast.simplified hsimple)
      (fun kind id hleft => ?_) ?_
    · exact hfinished kind id (hlast.composite kind id hleft)
    · rw [hremoved]
      exact DeadCode.run_run h₂.form
  exact ⟨halone, fun steps => Step.exists_runAll_eq_self halone steps⟩

end HybridGraph
