import HybridGraph.Partition.Demotion
import Mathlib.Data.List.Chain
import Mathlib.Data.List.Infix
/-!
# Maximal runs

`IsRun` says, without the algorithm, what a maximal run of consecutive chosen nodes is.  `stretches`
finds exactly the maximal runs, covers the list with them and the nodes in between, and never puts
two runs side by side:

    .run run ∈ stretches eligible nodes ↔ IsRun (eligible · = true) nodes run   (mem_stretches_iff)
    (stretches eligible nodes).flatMap Stretch.nodes = nodes                    (flatMap_stretches)

A run of fewer chosen nodes lies inside a run of more (`IsRun.isInfix`), which is all that demotion
needs to know about how runs change.
-/

namespace HybridGraph

/-! ## Runs -/

/-- A maximal run of consecutive nodes that are chosen. -/
structure IsRun (chosen : Node → Prop) (nodes run : List Node) : Prop where
  nonempty : run ≠ []
  members : ∀ node ∈ run, chosen node
  maximal : ∃ before after, nodes = before ++ run ++ after ∧
    (∀ node ∈ before.getLast?, ¬ chosen node) ∧ (∀ node ∈ after.head?, ¬ chosen node)

theorem IsRun.subset {chosen : Node → Prop} {nodes run : List Node} (h : IsRun chosen nodes run) :
    run ⊆ nodes := by
  obtain ⟨before, after, hsplit, -⟩ := h.maximal
  rw [hsplit]
  intro node hn
  simp [hn]

/-- Only what is chosen among the nodes matters. -/
theorem isRun_congr {chosen chosen' : Node → Prop} {nodes run : List Node}
    (h : ∀ node ∈ nodes, (chosen node ↔ chosen' node)) :
    IsRun chosen nodes run ↔ IsRun chosen' nodes run := by
  have hone : ∀ {p q : Node → Prop}, (∀ node ∈ nodes, (p node ↔ q node)) → IsRun p nodes run →
      IsRun q nodes run := by
    intro p q hpq hrun
    obtain ⟨before, after, hsplit, hbefore, hafter⟩ := hrun.maximal
    refine ⟨hrun.nonempty, fun n hn => (hpq n (hrun.subset hn)).mp (hrun.members n hn), before,
      after, hsplit, fun n hn hq => ?_, fun n hn hq => ?_⟩
    · have hmem : n ∈ nodes := by simp [hsplit, List.mem_of_getLast? hn]
      exact hbefore n hn ((hpq n hmem).mpr hq)
    · have hmem : n ∈ nodes := by simp [hsplit, List.mem_of_head? hn]
      exact hafter n hn ((hpq n hmem).mpr hq)
  exact ⟨hone h, hone fun n hn => (h n hn).symm⟩

namespace Stretch

/-- The nodes of a stretch. -/
def nodes : Stretch → List Node
  | .run nodes => nodes
  | .single node => [node]

/-- A run holds eligible nodes, and the nodes between runs are not eligible. -/
def Fits (eligible : Node → Bool) : Stretch → Prop
  | .run nodes => nodes ≠ [] ∧ ∀ node ∈ nodes, eligible node = true
  | .single node => eligible node = false

/-- Two stretches that may stand side by side: not two runs. -/
def Separate (a b : Stretch) : Prop := a.run? = none ∨ b.run? = none

end Stretch

/-! ## Stretches -/

variable {eligible : Node → Bool}

theorem stretches_cons (eligible : Node → Bool) (node : Node) (rest : List Node) :
    (eligible node = true ∧ ∃ run more, stretches eligible rest = .run run :: more ∧
      stretches eligible (node :: rest) = .run (node :: run) :: more) ∨
    (eligible node = true ∧ (∀ s ∈ (stretches eligible rest).head?, s.run? = none) ∧
      stretches eligible (node :: rest) = .run [node] :: stretches eligible rest) ∨
    (eligible node = false ∧
      stretches eligible (node :: rest) = .single node :: stretches eligible rest) := by
  rw [stretches]
  cases he : eligible node with
  | false => exact .inr (.inr ⟨rfl, rfl⟩)
  | true =>
    rw [if_pos rfl]
    split
    · next run more hs => exact .inl ⟨rfl, run, more, hs, rfl⟩
    · next hs =>
      refine .inr (.inl ⟨rfl, fun s hmem => ?_, rfl⟩)
      cases s with
      | single n => rfl
      | run ns =>
        obtain ⟨more, hmore⟩ := List.head?_eq_some_iff.mp hmem
        exact absurd hmore (hs ns more)

/-- Stretches cover the list. -/
theorem flatMap_stretches (eligible : Node → Bool) (nodes : List Node) :
    (stretches eligible nodes).flatMap Stretch.nodes = nodes := by
  induction nodes with
  | nil => rfl
  | cons node rest ih =>
    rcases stretches_cons eligible node rest with
      ⟨-, run, more, hs, heq⟩ | ⟨-, -, heq⟩ | ⟨-, heq⟩
    · rw [hs] at ih
      rw [heq]
      show node :: (run ++ more.flatMap Stretch.nodes) = node :: rest
      exact congrArg (node :: ·) ih
    · rw [heq]
      exact congrArg (node :: ·) ih
    · rw [heq]
      exact congrArg (node :: ·) ih

theorem fits_of_mem_stretches {nodes : List Node} {s : Stretch}
    (h : s ∈ stretches eligible nodes) : s.Fits eligible := by
  induction nodes generalizing s with
  | nil => cases h
  | cons node rest ih =>
    rcases stretches_cons eligible node rest with
      ⟨he, run, more, hs, heq⟩ | ⟨he, -, heq⟩ | ⟨he, heq⟩
    · rw [heq] at h
      rcases List.mem_cons.mp h with rfl | h
      · obtain ⟨-, hrun⟩ := ih (s := .run run) (by rw [hs]; exact List.mem_cons_self)
        exact ⟨by simp, List.forall_mem_cons.mpr ⟨he, hrun⟩⟩
      · exact ih (by rw [hs]; exact List.mem_cons_of_mem _ h)
    · rw [heq] at h
      rcases List.mem_cons.mp h with rfl | h
      · exact ⟨by simp, by simpa using he⟩
      · exact ih h
    · rw [heq] at h
      rcases List.mem_cons.mp h with rfl | h
      · exact he
      · exact ih h

/-- No two runs stand side by side. -/
theorem isChain_stretches (eligible : Node → Bool) (nodes : List Node) :
    (stretches eligible nodes).IsChain Stretch.Separate := by
  induction nodes with
  | nil => exact .nil
  | cons node rest ih =>
    rcases stretches_cons eligible node rest with
      ⟨-, run, more, hs, heq⟩ | ⟨-, hhead, heq⟩ | ⟨-, heq⟩
    · rw [hs] at ih
      rw [heq]
      cases more with
      | nil => exact .singleton _
      | cons s more =>
        obtain ⟨hsep, hrest⟩ := List.isChain_cons_cons.mp ih
        have hnone : s.run? = none := hsep.resolve_left (by simp [Stretch.run?])
        exact List.isChain_cons_cons.mpr ⟨.inr hnone, hrest⟩
    · rw [heq]
      exact List.isChain_cons.mpr ⟨fun s hs => .inr (hhead s hs), ih⟩
    · rw [heq]
      exact List.isChain_cons.mpr ⟨fun s hs => .inl rfl, ih⟩

theorem isRun_of_mem_stretches {nodes run : List Node}
    (h : .run run ∈ stretches eligible nodes) : IsRun (eligible · = true) nodes run := by
  obtain ⟨hne, hall⟩ := fits_of_mem_stretches h
  obtain ⟨front, back, hsplit⟩ := List.append_of_mem h
  have hchain := isChain_stretches eligible nodes
  rw [hsplit, List.isChain_append, List.isChain_cons] at hchain
  obtain ⟨-, ⟨hback, -⟩, hfront⟩ := hchain
  -- a neighbour of the run is a node by itself, hence not eligible
  have hsingle : ∀ s ∈ stretches eligible nodes, s.run? = none →
      ∃ node, s.nodes = [node] ∧ eligible node = false := by
    intro s hs hnone
    cases s with
    | run ns => cases hnone
    | single node => exact ⟨node, rfl, fits_of_mem_stretches hs⟩
  refine ⟨hne, hall, front.flatMap Stretch.nodes, back.flatMap Stretch.nodes, ?_, ?_, ?_⟩
  · rw [← flatMap_stretches eligible nodes, hsplit]
    simp [Stretch.nodes]
  · rcases List.eq_nil_or_concat front with rfl | ⟨init, s, rfl⟩
    · simp
    · have hnone := (hfront s (by simp) (.run run) rfl).resolve_right (by simp [Stretch.run?])
      obtain ⟨node, hnodes, hnot⟩ := hsingle s (by rw [hsplit]; simp) hnone
      simp [hnodes, hnot]
  · cases back with
    | nil => simp
    | cons s more =>
      have hnone := (hback s rfl).resolve_left (by simp [Stretch.run?])
      obtain ⟨node, hnodes, hnot⟩ := hsingle s (by rw [hsplit]; simp) hnone
      simp [hnodes, hnot]

/-! ## Runs inside runs -/

/-- What stands before a boundary reaches at least as far back. -/
theorem isSuffix_of_boundary {chosen : Node → Prop} {a b x y : List Node} (h : a ++ x = b ++ y)
    (hx : ∀ node ∈ x, chosen node) (hb : ∀ node ∈ b.getLast?, ¬ chosen node) : x <:+ y := by
  rcases List.append_eq_append_iff.mp h with ⟨c, rfl, rfl⟩ | ⟨c, rfl, rfl⟩
  · rcases List.eq_nil_or_concat c with rfl | ⟨init, last, rfl⟩
    · exact List.suffix_rfl
    · exact absurd (hx last (by simp)) (hb last (by simp))
  · exact List.suffix_append c x

/-- What stands behind a boundary reaches at least as far ahead. -/
theorem isPrefix_of_boundary {chosen : Node → Prop} {a b x y : List Node} (h : x ++ a = y ++ b)
    (hx : ∀ node ∈ x, chosen node) (hb : ∀ node ∈ b.head?, ¬ chosen node) : x <+: y := by
  rcases List.append_eq_append_iff.mp h with ⟨c, rfl, rfl⟩ | ⟨c, rfl, rfl⟩
  · exact List.prefix_append x c
  · cases c with
    | nil => simp
    | cons first rest => exact absurd (hx first (by simp)) (hb first (by simp))

/-- A run of fewer nodes lies inside the run of more that it meets. -/
theorem IsRun.isInfix {few many : Node → Prop} {nodes small large : List Node}
    (hnodup : nodes.Nodup) (hle : ∀ node, few node → many node) (hsmall : IsRun few nodes small)
    (hlarge : IsRun many nodes large) {node : Node} (hns : node ∈ small) (hnl : node ∈ large) :
    small <:+: large := by
  obtain ⟨-, hfew, front, back, hsplit, -, -⟩ := hsmall
  obtain ⟨-, -, before, after, hsplit', hbefore, hafter⟩ := hlarge
  obtain ⟨x, y, rfl⟩ := List.append_of_mem hns
  obtain ⟨x', y', rfl⟩ := List.append_of_mem hnl
  have heq : (front ++ x) ++ node :: (y ++ back) = (before ++ x') ++ node :: (y' ++ after) := by
    have h := hsplit.symm.trans hsplit'
    simpa using h
  have hnd : ((front ++ x) ++ node :: (y ++ back)).Nodup := by
    rw [hsplit] at hnodup
    simpa using hnodup
  obtain ⟨-, hright, hleft⟩ := List.nodup_append.mp hnd
  have hbehind : node ∉ y ++ back := (List.nodup_cons.mp hright).1
  have hfront : node ∉ front ++ x := fun hm => hleft node hm node List.mem_cons_self rfl
  -- the node occurs once, so both lists are cut at the same place
  obtain ⟨hleft, -, hright⟩ := (List.append_cons_inj_of_notMem hfront hbehind).mp heq
  have hmany : ∀ n ∈ x ++ node :: y, many n := fun n hn => hle n (hfew n hn)
  have hsuffix : x <:+ x' :=
    isSuffix_of_boundary hleft (fun n hn => hmany n (by simp [hn])) hbefore
  have hprefix : y <+: y' :=
    isPrefix_of_boundary hright (fun n hn => hmany n (by simp [hn])) hafter
  obtain ⟨c, rfl⟩ := hsuffix
  obtain ⟨c', rfl⟩ := hprefix
  exact ⟨c, c', by simp⟩

/-! ## Top theorems -/

/-- Every eligible node is in a run. -/
theorem exists_run_of_mem (eligible : Node → Bool) {nodes : List Node} {node : Node}
    (hn : node ∈ nodes) (he : eligible node = true) :
    ∃ run, .run run ∈ stretches eligible nodes ∧ node ∈ run := by
  rw [← flatMap_stretches eligible nodes] at hn
  obtain ⟨s, hs, hmem⟩ := List.mem_flatMap.mp hn
  cases s with
  | run ns => exact ⟨ns, hs, hmem⟩
  | single n =>
    obtain rfl : node = n := List.mem_singleton.mp hmem
    have hnot : eligible node = false := fits_of_mem_stretches hs
    rw [he] at hnot
    cases hnot

/-- The stretches that are runs are the maximal runs. -/
theorem mem_stretches_iff {nodes run : List Node} (hnodup : nodes.Nodup) :
    .run run ∈ stretches eligible nodes ↔ IsRun (eligible · = true) nodes run := by
  refine ⟨isRun_of_mem_stretches, fun h => ?_⟩
  obtain ⟨node, hnode⟩ := List.exists_mem_of_ne_nil run h.nonempty
  obtain ⟨found, hfound, hmem⟩ := exists_run_of_mem eligible (h.subset hnode) (h.members node hnode)
  have hrun := isRun_of_mem_stretches hfound
  have hle : found <:+: run := hrun.isInfix hnodup (fun _ => id) h hmem hnode
  have hge : run <:+: found := h.isInfix hnodup (fun _ => id) hrun hnode hmem
  rw [hge.eq_of_length_le hle.length_le]
  exact hfound

end HybridGraph
