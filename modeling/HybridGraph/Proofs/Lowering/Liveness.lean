import HybridGraph.Lowering.Pipeline
import HybridGraph.Proofs.Lowering.Simplification
import Mathlib.Logic.Relation
/-!
# Liveness

A graph is live if every node of it has side effects or a result that somebody wants: a graph
output, or an operand of a node (`Graph.Live`).  Whatever the removal of dead code leaves is live,
and it is the last pass of the pipeline that changes anything, so lowering leaves live graphs:

    (DeadCode.run g).1.SingleAssignment → (DeadCode.run g).1.Live                        (live_run)
    (g.lower cap options).2 = .ok stats → (g.lower cap options).1.Live                 (live_lower)

A node is alive if it has side effects, gives a graph output, or defines what a live node reads
(`Graph.Alive`).  The removal of dead code finds the live nodes with a worklist.  A round takes any
value that waits; rounds come to an end whatever they take, and they end where nothing waits and
the needed values are found (`DeadCode.Round`):

    WellFounded fun s' s => Round g s s'                                     (wellFounded_round)
    ReflTransGen (Round g) (start g) s → s.waiting = [] → (v ∈ s.found ↔ v ∈ needed g)
                                                                             (found_iff_needed)
    g.SingleAssignment → (node ∈ (run g).1.nodes ↔ g.Alive node)            (mem_run_iff_alive)
-/

namespace HybridGraph

/-- The graph gives the value, or a node reads it. -/
def Graph.Wants (g : Graph) (v : ValueId) : Prop :=
  v ∈ g.outputs ∨ ∃ reader ∈ g.nodes, v ∈ reader.inputs

/-- Every node has side effects or a result that is wanted. -/
def Graph.Live (g : Graph) : Prop :=
  ∀ node ∈ g.nodes, node.kind.hasSideEffects = true ∨ ∃ v ∈ node.outputs, g.Wants v

/-! ## Dead code -/

namespace DeadCode

variable {g : Graph} {v : ValueId} {node : Node}

/-- What holds at the start and passes from a value to what its definer reads holds of every value
that is found. -/
theorem forall_mem_discover {p : ValueId → Prop} {found work : List ValueId}
    (hfound : ∀ v ∈ found, p v) (hwork : ∀ v ∈ work, p v)
    (hstep : ∀ v node, p v → definer? g v = some node → ∀ w ∈ node.inputs, p w) :
    ∀ v ∈ discover g found work, p v := by
  fun_induction discover g found work with
  | case1 found => exact hfound
  | case2 found v work hv ih => exact ih hfound (List.forall_mem_cons.mp hwork).2
  | case3 found v work hv hd ih =>
    obtain ⟨hfirst, hrest⟩ := List.forall_mem_cons.mp hwork
    exact ih (List.forall_mem_cons.mpr ⟨hfirst, hfound⟩) hrest
  | case4 found v work hv node hd ih =>
    obtain ⟨hfirst, hrest⟩ := List.forall_mem_cons.mp hwork
    refine ih (List.forall_mem_cons.mpr ⟨hfirst, hfound⟩) fun w hw => ?_
    rcases List.mem_append.mp hw with hw | hw
    · exact hstep v node hfirst hd w hw
    · exact hrest w hw

theorem inputs_subset_of_definer (hneeded : v ∈ needed g) (hd : definer? g v = some node) :
    node.inputs ⊆ needed g :=
  discover_closed (fun _ hw => absurd hw List.not_mem_nil) v hneeded node hd

/-- What is needed is wanted by the graph or by a node that stays. -/
theorem wanted_of_mem_needed (hv : v ∈ needed g) :
    v ∈ g.outputs ∨ ∃ reader ∈ g.nodes, reader.id ∈ kept g ∧ v ∈ reader.inputs := by
  -- the definer of a value stays only if the value is needed, so both are carried along
  have hall : ∀ v ∈ needed g, v ∈ needed g ∧
      (v ∈ g.outputs ∨ ∃ reader ∈ g.nodes, reader.id ∈ kept g ∧ v ∈ reader.inputs) := by
    refine forall_mem_discover (fun v hv => absurd hv List.not_mem_nil) (fun v hv => ?_) ?_
    · rcases List.mem_append.mp hv with hv | hv
      · obtain ⟨root, hroot, hread⟩ := List.mem_flatMap.mp hv
        obtain ⟨hmem, heffects⟩ := List.mem_filter.mp hroot
        have hkept : root.id ∈ kept g := List.mem_append_left _ (List.mem_map_of_mem hroot)
        exact ⟨mem_needed_of_root hmem heffects hread, .inr ⟨root, hmem, hkept, hread⟩⟩
      · exact ⟨mem_needed_of_output hv, .inl hv⟩
    · rintro v node ⟨hneeded, -⟩ hd w hw
      have hkept : node.id ∈ kept g := by
        refine List.mem_append_right _ (List.mem_filterMap.mpr ⟨v, hneeded, ?_⟩)
        rw [hd]
        rfl
      exact ⟨inputs_subset_of_definer hneeded hd hw,
        .inr ⟨node, (mem_outputs_of_definer hd).1, hkept, hw⟩⟩
  exact (hall v hv).2

theorem mem_nodes_run : node ∈ (run g).1.nodes ↔ node ∈ g.nodes ∧ node.id ∈ kept g := by
  have hkept : node.id ∈ kept g ↔ (kept g).contains node.id = true := List.contains_iff_mem.symm
  rw [hkept]
  exact List.mem_filter

/-- What is left is live.  The graph itself may give one id to several nodes. -/
theorem live_run (h : (run g).1.SingleAssignment) : (run g).1.Live := by
  intro node hn
  have hsame : ∀ other ∈ g.nodes, other.id = node.id → other = node := by
    intro other ho hid
    have hkept := (mem_nodes_run.mp hn).2
    exact h.nodes.eq_of_id (mem_nodes_run.mpr ⟨ho, hid ▸ hkept⟩) hn hid
  rcases List.mem_append.mp (mem_nodes_run.mp hn).2 with hroot | hdefines
  · obtain ⟨root, hroot, hid⟩ := List.mem_map.mp hroot
    obtain ⟨hmem, heffects⟩ := List.mem_filter.mp hroot
    obtain rfl := hsame root hmem hid
    exact .inl heffects
  · obtain ⟨v, hneeded, hid⟩ := List.mem_filterMap.mp hdefines
    obtain ⟨definer, hd, hid⟩ := Option.map_eq_some_iff.mp hid
    obtain ⟨hmem, hout⟩ := mem_outputs_of_definer hd
    obtain rfl := hsame definer hmem hid
    refine .inr ⟨v, hout, ?_⟩
    rcases wanted_of_mem_needed hneeded with hv | ⟨reader, hreader, hkept, hread⟩
    · exact .inl hv
    · exact .inr ⟨reader, mem_nodes_run.mpr ⟨hreader, hkept⟩, hread⟩

end DeadCode

/-! ## What a pipeline ensures -/

/-- If the lowering succeeds, its graph has a property. -/
def Lowered.Ensures (lowered : Lowered) (p : Graph → Prop) : Prop :=
  ∀ stats, lowered.2 = .ok stats → p lowered.1

namespace Lowered

variable {p q : Graph → Prop} {body next : Graph → Lowered}

theorem Ensures.andThen {first : Lowered} (h : first.Ensures p)
    (hnext : ∀ g, p g → (next g).Ensures q) : (first.andThen next).Ensures q := by
  obtain ⟨g, result⟩ := first
  intro stats hstats
  cases result with
  | error e => cases hstats
  | ok held =>
    obtain ⟨last, hlast, -⟩ : ∃ last, (next g).2 = .ok last ∧ held.merge last = stats := by
      cases hresult : (next g).2 with
      | error e =>
        have hmap : (next g).2.map held.merge = .ok stats := hstats
        rw [hresult] at hmap
        cases hmap
      | ok last =>
        have hmap : (next g).2.map held.merge = .ok stats := hstats
        rw [hresult] at hmap
        exact ⟨last, rfl, Except.ok.inj hmap⟩
    exact hnext g (h held rfl) last hlast

/-- What every round ensures holds after the last one; without any round it has to hold before. -/
theorem ensures_iterate (hbody : ∀ g, (body g).Ensures p) {cap : Nat} {g : Graph}
    (hg : cap = 0 → p g) : (iterate body cap g).Ensures p := by
  induction cap generalizing g with
  | zero => exact fun _ _ => hg rfl
  | succ cap ih =>
    have hfirst := hbody g
    rw [iterate]
    split
    · exact fun _ hstats => nomatch hstats
    · next g' stats heq =>
      rw [heq] at hfirst
      have hround : p g' := hfirst stats rfl
      split
      · exact Ensures.andThen (fun _ _ => hround) fun _ h => ih fun _ => h
      · exact fun _ _ => hround

end Lowered

namespace Step

variable (options : LoweringOptions) {p : Graph → Prop}

/-- A group runs at least once, so it ensures what its body does. -/
theorem ensures_fixedPoint {steps : List Step} (cap : Nat)
    (hbody : ∀ g, (runAll options steps g).Ensures p) (g : Graph) :
    (run options (.fixedPoint cap steps) g).Ensures p := by
  rw [run]
  refine Lowered.ensures_iterate hbody fun hzero => ?_
  omega

theorem ensures_cons {q : Graph → Prop} {step : Step} {steps : List Step} {g : Graph}
    (hstep : (run options step g).Ensures p)
    (hsteps : ∀ g, p g → (runAll options steps g).Ensures q) :
    (runAll options (step :: steps) g).Ensures q := by
  rw [runAll]
  exact hstep.andThen hsteps

theorem ensures_singleton {step : Step} {g : Graph} (h : (run options step g).Ensures p) :
    (runAll options [step] g).Ensures p :=
  ensures_cons options h fun _ hp _ _ => hp

/-- A pipeline ensures what its last steps do. -/
theorem ensures_append (first : List Step) {last : List Step}
    (hlast : ∀ g, (runAll options last g).Ensures p) (g : Graph) :
    (runAll options (first ++ last) g).Ensures p := by
  induction first generalizing g with
  | nil => exact hlast g
  | cons step first ih =>
    exact ensures_cons options (p := fun _ => True) (fun _ _ => trivial) fun g _ => ih g

/-- The check lets accepted graphs through. -/
theorem verify_of_run {g : Graph} {stats : PassStats}
    (h : (run options (.pass .verify) g).2 = .ok stats) : g.verify = .ok () := by
  cases hverify : g.verify with
  | error e =>
    rw [run, Pass.run, hverify] at h
    cases h
  | ok _ => rfl

end Step

/-! ## Top theorem -/

/-- What lowering leaves is live: dead code is removed at the end of the last group, and the check
that follows changes nothing. -/
theorem Graph.live_lower {g : Graph} {cap : Nat} {options : LoweringOptions} {stats : PassStats}
    (h : (g.lower cap options).2 = .ok stats) :
    (g.lower cap options).1.SingleAssignment ∧ (g.lower cap options).1.Live := by
  let cleanup : List Step := [.pass .identities, .pass .deadCode]
  have hround : ∀ g, (Step.runAll options cleanup g).Ensures fun g =>
      g.SingleAssignment → g.Live :=
    Step.ensures_append options [.pass .identities] fun g =>
      Step.ensures_singleton options fun _ _ => DeadCode.live_run
  have hverify : ∀ g : Graph, (g.SingleAssignment → g.Live) →
      (Step.runAll options [.pass .verify] g).Ensures fun g => g.SingleAssignment ∧ g.Live := by
    intro g hlive
    refine Step.ensures_singleton options fun _ hstats => ?_
    obtain ⟨hform, -⟩ := verify_eq_ok.mp (Step.verify_of_run options hstats)
    exact ⟨hform, hlive hform⟩
  have hlast : ∀ g, (Step.runAll options [.fixedPoint cap cleanup, .pass .verify] g).Ensures
      fun g => g.SingleAssignment ∧ g.Live := fun g =>
    Step.ensures_cons options (Step.ensures_fixedPoint options cap hround g) hverify
  exact Step.ensures_append options [.pass .verify,
    .fixedPoint cap [.pass .fold, .pass .normalize, .pass .identities], .pass .linear, .pass .silu,
    .pass .gelu] hlast g stats h

/-! ## Live nodes -/

/-- The nodes that matter: those with side effects, those that give a graph output, and those that
define what such a node reads, or a node that matters for it. -/
inductive Graph.Alive (g : Graph) : Node → Prop where
  | effects {node : Node} (hn : node ∈ g.nodes)
      (hkind : node.kind = .print ∨ node.kind = .branch ∨ node.kind = .loop) : g.Alive node
  | output {node : Node} {v : ValueId} (hn : node ∈ g.nodes) (hv : v ∈ node.outputs)
      (hgiven : v ∈ g.outputs) : g.Alive node
  | read {node reader : Node} {v : ValueId} (hn : node ∈ g.nodes) (hv : v ∈ node.outputs)
      (hreader : g.Alive reader) (hread : v ∈ reader.inputs) : g.Alive node

theorem Graph.Alive.mem {g : Graph} {node : Node} (h : g.Alive node) : node ∈ g.nodes := by
  cases h with
  | effects hn => exact hn
  | output hn => exact hn
  | read hn => exact hn

theorem OpKind.hasSideEffects_iff (kind : OpKind) :
    kind.hasSideEffects = true ↔ kind = .print ∨ kind = .branch ∨ kind = .loop := by
  cases kind <;> decide

namespace DeadCode

open Relation

variable {g : Graph} {node : Node} {v : ValueId}

/-! ## Rounds of the worklist -/

/-- The values that were met, and the values that wait for their turn. -/
structure Worklist where
  found : List ValueId
  waiting : List ValueId

/-- What the definer of a value reads. -/
def definerReads (g : Graph) (v : ValueId) : List ValueId :=
  ((definer? g v).map Node.inputs).getD []

/-- One round takes any of the values that wait.  A value met before is dropped; for a new one wait,
in any order, the operands of its definer. -/
inductive Round (g : Graph) : Worklist → Worklist → Prop where
  | drop {found front back : List ValueId} {v : ValueId} (hv : v ∈ found) :
      Round g ⟨found, front ++ v :: back⟩ ⟨found, front ++ back⟩
  | follow {found front back waiting : List ValueId} {v : ValueId} (hv : v ∉ found)
      (hwaiting : waiting.Perm (front ++ back ++ definerReads g v)) :
      Round g ⟨found, front ++ v :: back⟩ ⟨v :: found, waiting⟩

/-- At first the graph outputs wait and what nodes with side effects read. -/
def start (g : Graph) : Worklist := ⟨[], (roots g).flatMap Node.inputs ++ g.outputs⟩

theorem Round.drop_newest {found work : List ValueId} (hv : v ∈ found) :
    Round g ⟨found, v :: work⟩ ⟨found, work⟩ := @Round.drop g found [] work v hv

theorem Round.follow_newest {found work waiting : List ValueId} (hv : v ∉ found)
    (hwaiting : waiting.Perm (work ++ definerReads g v)) :
    Round g ⟨found, v :: work⟩ ⟨v :: found, waiting⟩ :=
  @Round.follow g found [] work waiting v hv hwaiting

/-- As long as a value waits there is a round. -/
theorem exists_round {s : Worklist} (h : s.waiting ≠ []) : ∃ s', Round g s s' := by
  obtain ⟨found, waiting⟩ := s
  cases waiting with
  | nil => exact absurd rfl h
  | cons v back =>
    by_cases hv : v ∈ found
    · exact ⟨⟨found, back⟩, .drop_newest hv⟩
    · exact ⟨⟨v :: found, back ++ definerReads g v⟩, .follow_newest hv (.refl _)⟩

/-- What decreases from round to round: the values that nodes define and that were not met, and then
the number of values that wait. -/
def Worklist.measure (g : Graph) (s : Worklist) : Nat × Nat :=
  ((undiscovered g s.found).length, s.waiting.length)

theorem measure_lt {s s' : Worklist} (h : Round g s s') :
    Prod.Lex (· < ·) (· < ·) (s'.measure g) (s.measure g) := by
  cases h with
  | drop hv => exact .right _ (by simp)
  | @follow found front back waiting v hv hwaiting =>
    cases hd : definer? g v with
    | some node => exact .left _ _ (length_undiscovered_lt hd hv)
    | none =>
      -- nobody defines the value, so nothing is added
      have hlen : waiting.length < (front ++ v :: back).length := by
        rw [hwaiting.length_eq, definerReads, hd]
        simp
      rcases Nat.lt_or_eq_of_le (length_undiscovered_cons_le g found v) with hlt | heq
      · exact .left _ _ hlt
      · show Prod.Lex _ _ (_, _) (_, _)
        rw [heq]
        exact .right _ hlen

/-- There is no endless sequence of rounds. -/
theorem wellFounded_round (g : Graph) : WellFounded fun s' s => Round g s s' := by
  have hlex : WellFounded (Prod.Lex (· < ·) (· < ·) : Nat × Nat → Nat × Nat → Prop) :=
    (Prod.lex Nat.lt_wfRel Nat.lt_wfRel).wf
  exact Subrelation.wf measure_lt (InvImage.wf (Worklist.measure g) hlex)

/-- The worklist that takes the newest value first is one of them. -/
theorem rounds_discover (g : Graph) (found work : List ValueId) :
    ReflTransGen (Round g) ⟨found, work⟩ ⟨discover g found work, []⟩ := by
  fun_induction discover g found work with
  | case1 found => exact .refl
  | case2 found v work hv ih => exact .head (.drop_newest hv) ih
  | case3 found v work hv hd ih =>
    refine .head (.follow_newest hv ?_) ih
    rw [definerReads, hd]
    simp
  | case4 found v work hv node hd ih =>
    refine .head (.follow_newest hv ?_) ih
    rw [definerReads, hd]
    exact List.perm_append_comm

/-! ## What rounds find -/

/-- The values met or waiting hold what was there at first and what the definers of values met
read, and nothing but needed values. -/
structure Sound (g : Graph) (s : Worklist) : Prop where
  needed : ∀ v, v ∈ s.found ∨ v ∈ s.waiting → v ∈ DeadCode.needed g
  begun : ∀ v ∈ (start g).waiting, v ∈ s.found ∨ v ∈ s.waiting
  closed : ∀ v ∈ s.found, ∀ w ∈ definerReads g v, w ∈ s.found ∨ w ∈ s.waiting

theorem definerReads_subset (hv : v ∈ needed g) : definerReads g v ⊆ needed g := by
  unfold definerReads
  cases hd : definer? g v with
  | none => exact List.nil_subset _
  | some node => exact discover_closed (fun _ hw => absurd hw List.not_mem_nil) v hv node hd

theorem sound_start (g : Graph) : Sound g (start g) where
  needed _ hv := (subset_discover g [] _).2 (hv.resolve_left List.not_mem_nil)
  begun _ hv := .inr hv
  closed _ hv := absurd hv List.not_mem_nil

theorem sound_round {s s' : Worklist} (hs : Sound g s) (h : Round g s s') : Sound g s' := by
  cases h with
  | @drop found front back v hv =>
    -- the value that goes was met before
    have hstays : ∀ w, w ∈ found ∨ w ∈ front ++ v :: back → w ∈ found ∨ w ∈ front ++ back := by
      intro w hw
      simp only [List.mem_append, List.mem_cons] at hw ⊢
      rcases hw with hw | hw | rfl | hw
      · exact .inl hw
      · exact .inr (.inl hw)
      · exact .inl hv
      · exact .inr (.inr hw)
    refine ⟨fun w hw => hs.needed w (hw.imp_right fun hw => ?_), fun w hw =>
      hstays w (hs.begun w hw), fun w hw u hu => hstays u (hs.closed w hw u hu)⟩
    exact List.append_subset.mpr
      ⟨List.subset_append_left _ _, fun u hu => List.mem_append_right _ (.tail _ hu)⟩ hw
  | @follow found front back waiting v hv hwaiting =>
    have hmem : ∀ w, w ∈ waiting ↔ w ∈ front ++ back ∨ w ∈ definerReads g v := fun w =>
      hwaiting.mem_iff.trans List.mem_append
    have hstays : ∀ w, w ∈ found ∨ w ∈ front ++ v :: back → w ∈ v :: found ∨ w ∈ waiting := by
      intro w hw
      simp only [hmem, List.mem_append, List.mem_cons] at hw ⊢
      tauto
    have hneeded : v ∈ needed g := hs.needed v (.inr (List.mem_append_right _ List.mem_cons_self))
    refine ⟨fun w hw => ?_, fun w hw => hstays w (hs.begun w hw), fun w hw u hu => ?_⟩
    · have hold := hs.needed w
      simp only [hmem, List.mem_append, List.mem_cons] at hw hold
      rcases hw with (rfl | hw) | (hw | hw) | hw
      · exact hneeded
      · exact hold (.inl hw)
      · exact hold (.inr (.inl hw))
      · exact hold (.inr (.inr (.inr hw)))
      · exact definerReads_subset hneeded hw
    · rcases List.mem_cons.mp hw with rfl | hw
      · exact .inr ((hmem u).mpr (.inr hu))
      · exact hstays u (hs.closed w hw u hu)

theorem sound_rounds {s : Worklist} (h : ReflTransGen (Round g) (start g) s) : Sound g s := by
  induction h with
  | refl => exact sound_start g
  | tail _ hround ih => exact sound_round ih hround

/-- Whatever is taken first, the values met in the end are the needed ones. -/
theorem found_iff_needed {s : Worklist} (h : ReflTransGen (Round g) (start g) s)
    (hend : s.waiting = []) : v ∈ s.found ↔ v ∈ needed g := by
  have hs := sound_rounds h
  have hmet : ∀ w, w ∈ s.found ∨ w ∈ s.waiting → w ∈ s.found := by
    intro w hw
    rw [hend] at hw
    exact hw.resolve_right List.not_mem_nil
  refine ⟨fun hv => hs.needed v (.inl hv), fun hv => ?_⟩
  refine forall_mem_discover (fun w hw => absurd hw List.not_mem_nil)
    (fun w hw => hmet w (hs.begun w hw))
    (fun w node hw hd u hu => hmet u (hs.closed w hw u ?_)) v hv
  rw [definerReads, hd]
  exact hu

/-! ## Who stays -/

/-- Whoever defines a needed value is alive. -/
theorem alive_of_mem_needed (hv : v ∈ needed g) (hn : node ∈ g.nodes) (hout : v ∈ node.outputs) :
    g.Alive node := by
  have hall : ∀ v ∈ needed g, ∀ node ∈ g.nodes, v ∈ node.outputs → g.Alive node := by
    refine forall_mem_discover (fun v hv => absurd hv List.not_mem_nil) (fun v hv => ?_) ?_
    · intro node hn hout
      rcases List.mem_append.mp hv with hread | hgiven
      · obtain ⟨root, hroot, hread⟩ := List.mem_flatMap.mp hread
        obtain ⟨hmem, heffects⟩ := List.mem_filter.mp hroot
        exact .read hn hout (.effects hmem (root.kind.hasSideEffects_iff.mp heffects)) hread
      · exact .output hn hout hgiven
    · intro v definer hdefiners hd w hw node hn hout
      obtain ⟨hmem, hdefines⟩ := mem_outputs_of_definer hd
      exact .read hn hout (hdefiners definer hmem hdefines) hw
  exact hall v hv node hn hout

theorem mem_kept_of_alive (hg : g.SingleAssignment) (h : g.Alive node) : node.id ∈ kept g := by
  induction h with
  | @effects node hn hkind =>
    exact (mem_kept_iff hg hn).mpr (.inl (node.kind.hasSideEffects_iff.mpr hkind))
  | output hn hv hgiven =>
    exact (mem_kept_iff hg hn).mpr (.inr ⟨_, hv, mem_needed_of_output hgiven⟩)
  | read hn hv hreader hread ih =>
    exact (mem_kept_iff hg hn).mpr (.inr ⟨_, hv, inputs_subset_needed hg hreader.mem ih hread⟩)

/-- The nodes that stay are the nodes that are alive. -/
theorem mem_run_iff_alive (hg : g.SingleAssignment) : node ∈ (run g).1.nodes ↔ g.Alive node := by
  rw [mem_nodes_run]
  constructor
  · rintro ⟨hn, hkept⟩
    rcases (mem_kept_iff hg hn).mp hkept with heffects | ⟨v, hv, hneeded⟩
    · exact .effects hn (node.kind.hasSideEffects_iff.mp heffects)
    · exact alive_of_mem_needed hneeded hn hv
  · exact fun h => ⟨h.mem, mem_kept_of_alive hg h⟩

theorem singleAssignment_run (hg : g.SingleAssignment) : (run g).1.SingleAssignment :=
  hg.filter (contains_kept_of_reads hg) (contains_kept_of_output hg)

/-- A live node is alive among the nodes that stay. -/
theorem alive_run (hg : g.SingleAssignment) (h : g.Alive node) : (run g).1.Alive node := by
  induction h with
  | effects hn hkind => exact .effects ((mem_run_iff_alive hg).mpr (.effects hn hkind)) hkind
  | output hn hv hgiven =>
    exact .output ((mem_run_iff_alive hg).mpr (.output hn hv hgiven)) hv hgiven
  | read hn hv hreader hread ih =>
    exact .read ((mem_run_iff_alive hg).mpr (.read hn hv hreader hread)) hv ih hread

/-- Nothing is removed from a graph of live nodes. -/
theorem run_of_alive (hg : g.SingleAssignment) (h : ∀ node ∈ g.nodes, g.Alive node) :
    run g = (g, 0) := by
  have hall : (g.nodes.filter fun node => (kept g).contains node.id) = g.nodes :=
    List.filter_eq_self.mpr fun node hn =>
      List.contains_iff_mem.mpr (mem_kept_of_alive hg (h node hn))
  rw [run, hall, Nat.sub_self]

/-- Of what is left nothing is dead. -/
theorem run_run (hg : g.SingleAssignment) : run (run g).1 = ((run g).1, 0) :=
  run_of_alive (singleAssignment_run hg) fun _ hn =>
    alive_run hg ((mem_run_iff_alive hg).mp hn)

/-! ## Top theorem -/

/-- A result, a negated exponential that nobody wants, and a value that is only printed. -/
def observed : Graph where
  name := "observed"
  values := .replicate 5 ⟨.tensor .unknown, none⟩
  nodes := [⟨⟨0⟩, .relu, [⟨0⟩], [⟨1⟩], .empty, none⟩, ⟨⟨1⟩, .exp, [⟨1⟩], [⟨2⟩], .empty, none⟩,
    ⟨⟨2⟩, .neg, [⟨2⟩], [⟨3⟩], .empty, none⟩, ⟨⟨3⟩, .tanh, [⟨0⟩], [⟨4⟩], .empty, none⟩,
    ⟨⟨4⟩, .print, [⟨4⟩], [], .empty, none⟩]
  inputs := [⟨0⟩]
  outputs := [⟨1⟩]
  nextNode := 5

/-- In an accepted graph the worklist comes to an end whatever it takes first, and always with the
same values; what stays are the live nodes, in order and as they were, and everything else of the
graph; and nothing is left to remove. -/
theorem run_keeps_alive (hg : g.verify = .ok ()) :
    (WellFounded fun s' s => Round g s s') ∧
    (∀ s, ReflTransGen (Round g) (start g) s → (¬ ∃ s', Round g s s') →
      ∀ v, v ∈ s.found ↔ v ∈ needed g) ∧
    ReflTransGen (Round g) (start g) ⟨needed g, []⟩ ∧
    (∀ node, node ∈ (run g).1.nodes ↔ g.Alive node) ∧
    (run g).1.nodes.Sublist g.nodes ∧ (run g).1 = { g with nodes := (run g).1.nodes } ∧
    run (run g).1 = ((run g).1, 0) := by
  obtain ⟨hform, -⟩ := Graph.verify_eq_ok.mp hg
  refine ⟨wellFounded_round g, fun s hs hend v => ?_, rounds_discover g _ _, fun node =>
    mem_run_iff_alive hform, List.filter_sublist, rfl, run_run hform⟩
  refine found_iff_needed hs ?_
  by_contra hwaits
  exact hend (exists_round hwaits)

theorem run_keeps_alive_observed :
    observed.verify = .ok () ∧
      ⟨⟨3⟩, .tanh, [⟨0⟩], [⟨4⟩], .empty, none⟩ ∈ (run observed).1.nodes ∧
      ⟨⟨1⟩, .exp, [⟨1⟩], [⟨2⟩], .empty, none⟩ ∉ (run observed).1.nodes := by
  have hverify : observed.verify = .ok () := by
    refine Graph.verify_eq_ok.mpr ⟨by decide, ?_⟩
    simp only [observed, List.forall_mem_cons]
    exact ⟨rfl, rfl, rfl, rfl, rfl, fun _ hn => absurd hn List.not_mem_nil⟩
  obtain ⟨-, -, -, hstays, -⟩ := run_keeps_alive hverify
  refine ⟨hverify, (hstays _).mpr ?_, fun hexp => ?_⟩
  · have hprint : observed.Alive ⟨⟨4⟩, .print, [⟨4⟩], [], .empty, none⟩ :=
      .effects (by simp [observed]) (.inl rfl)
    exact .read (by simp [observed]) (List.mem_singleton_self _) hprint
      (List.mem_singleton_self _)
  -- only the negation reads the exponential, and nobody reads the negation
  · have hwanted : ∀ node, observed.Alive node → node.id ≠ ⟨1⟩ ∧ node.id ≠ ⟨2⟩ := by
      intro node h
      induction h with
      | effects hn hkind =>
        simp only [observed, List.mem_cons, List.not_mem_nil, or_false] at hn
        rcases hn with rfl | rfl | rfl | rfl | rfl <;> simp at hkind ⊢
      | output hn hv hgiven =>
        simp only [observed, List.mem_cons, List.not_mem_nil, or_false] at hn hgiven
        subst hgiven
        rcases hn with rfl | rfl | rfl | rfl | rfl <;> simp at hv ⊢
      | read hn hv hreader hread ih =>
        have hmem := hreader.mem
        simp only [observed, List.mem_cons, List.not_mem_nil, or_false] at hn hmem
        rcases hn with rfl | rfl | rfl | rfl | rfl <;>
          rcases hmem with rfl | rfl | rfl | rfl | rfl <;> simp_all
    exact (hwanted _ ((hstays _).mp hexp)).1 rfl

end DeadCode

end HybridGraph
