import HybridGraph.Proofs.Graph.Renumbering
import HybridGraph.Proofs.Lowering.Liveness
import HybridGraph.Proofs.Lowering.Payloads
/-!
# Texts of lowered graphs

Values that lowering creates have no names, and nothing else about names changes
(`Graph.SameNames`).  So the labels in a lowered graph are distinct exactly if no name in the source
is the label of a created value, which is an underscore and a number.  Tensors stay the payloads of
constants; so where labels are distinct a lowered graph that is legible comes back from its text up
to numbers, as long as lowering does not run out of node ids:

    Graph.parse text = .ok g → g.nodes.length + g.demand < 2 ^ 32 →
      (g.lower cap options).1.Legible →
      Set.InjOn (g.lower cap options).1.label (g.lower cap options).1.defined →
        ∃ g', Graph.parse (g.lower cap options).1.text = .ok g' ∧
          (g.lower cap options).1.Renumbers g'                      (exists_parse_text_lower)

A source that names a value `_3` may print two values of that label, and such a text is refused
(`exists_parse_text_lower_eq_error`).
-/

namespace HybridGraph

/-! ## Names -/

/-- No value has another name. -/
structure Graph.SameNames (g g' : Graph) : Prop where
  name?_eq : ∀ v, g'.name? v = g.name? v

namespace Graph.SameNames

variable {g g' g'' : Graph}

theorem refl (g : Graph) : g.SameNames g := ⟨fun _ => rfl⟩

theorem trans (h : g.SameNames g') (h' : g'.SameNames g'') : g.SameNames g'' :=
  ⟨fun v => (h'.name?_eq v).trans (h.name?_eq v)⟩

theorem of_values_eq (h : g'.values = g.values) : g.SameNames g' :=
  ⟨fun v => by rw [name?, name?, value?, value?, h]⟩

/-- A created value has no name, as it had none before it was created. -/
theorem of_rewrite (h : g.Rewrite g') : g.SameNames g' := by
  cases h with
  | emit e kind inputs type attrs =>
    refine ⟨fun v => ?_⟩
    rw [name?_push (g := e.graph) (by rw [Expansion.emit_graph])]
    split
    · next hlast =>
      symm
      rw [Option.eq_none_iff_forall_ne_some]
      exact fun name hname => absurd (lt_of_name? hname) (by omega)
    · rfl
  | retire => exact .of_values_eq rfl
  | nodes => exact .of_values_eq rfl

theorem of_rewrites (h : g.Rewrites g') : g.SameNames g' := by
  induction h with
  | refl => exact .refl g
  | tail _ hrewrite ih => exact ih.trans (.of_rewrite hrewrite)

end Graph.SameNames

/-! ## Texts -/

variable {text : String} {g : Graph}

/-- In a lowered graph two values share a label exactly if a name in the source is the label of a
created value. -/
theorem Graph.injOn_label_lower (h : Graph.parse text = .ok g) (cap : Nat)
    (options : LoweringOptions) :
    Set.InjOn (g.lower cap options).1.label (g.lower cap options).1.defined ↔
      ∀ v ∈ (g.lower cap options).1.defined, ∀ w ∈ (g.lower cap options).1.defined,
        g.values.size ≤ w.index → g.name? v ≠ some s!"_{w.index}" := by
  have hnames : g.SameNames (g.lower cap options).1 :=
    .of_rewrites (Step.rewrites_runAll options (Step.standard cap) g)
  have hnumbered := numbered_of_parse h
  have hnone : ∀ w, g.name? w = none ↔ g.values.size ≤ w.index := by
    intro w
    constructor
    · intro hnone
      by_contra hlt
      obtain ⟨name, hname⟩ := hnumbered.named w (Nat.not_le.mp hlt)
      rw [hname] at hnone
      cases hnone
    · intro hle
      rw [Option.eq_none_iff_forall_ne_some]
      exact fun name hname => absurd (lt_of_name? hname) (Nat.not_lt.mpr hle)
  rw [injOn_label_iff]
  · simp only [hnames.name?_eq, hnone]
  · intro v w name
    rw [hnames.name?_eq, hnames.name?_eq]
    exact hnumbered.distinct v w name

/-- A graph that is read from a text can be lowered, if there are ids for its nodes and for those of
their decompositions. -/
theorem Graph.ready_of_parse (h : Graph.parse text = .ok g)
    (hroom : g.nodes.length + g.demand < 2 ^ 32) : g.Ready := by
  refine ⟨wellFormed_of_parse h (by omega), ?_⟩
  rw [(numbered_of_parse h).nextNode, NodeId.nextAfter_eq (by omega)]
  omega

/-- Where labels are distinct, a lowered graph that is legible comes back from its text up to
numbers, as long as lowering does not run out of node ids. -/
theorem Graph.exists_parse_text_lower (h : Graph.parse text = .ok g) (cap : Nat)
    (options : LoweringOptions) (hroom : g.nodes.length + g.demand < 2 ^ 32)
    (hlegible : (g.lower cap options).1.Legible)
    (hlabels : Set.InjOn (g.lower cap options).1.label (g.lower cap options).1.defined) :
    ∃ g', Graph.parse (g.lower cap options).1.text = .ok g' ∧
      (g.lower cap options).1.Renumbers g' := by
  have hg := ready_of_parse h hroom
  have hlowered : (g.lower cap options).1.Ready :=
    (Step.keeps_runAll options (Step.standard cap) g hg).preserves.ready hg
  have hlength : (g.lower cap options).1.nodeIds.length ≤ (g.lower cap options).1.nextNode :=
    NodeId.length_le hlowered.form.nodes.nodup (List.forall_mem_map.mpr hlowered.issued)
  have hleft := hlowered.room
  rw [nodeIds, List.length_map] at hlength
  have hpayloads : (g.lower cap options).1.HoldsPayloads :=
    Step.holdsPayloads_runAll options (Step.standard cap) hg fun _ hn => payloads_of_parse h hn
  have hverify := (wellFormed_iff.mp hlowered.toWellFormed).1
  exact ⟨_, parse_text_renumbered hverify (by omega) hpayloads hlegible hlabels,
    renumbers_renumbered _⟩

/-! ## Names like labels -/

/-- A sigmoid-weighted unit beside an input that is named like a created value. -/
def Graph.shadowed : Graph where
  name := "g"
  values := #[⟨.tensor (.of .f32 [2]), some "x"⟩, ⟨.tensor (.of .f32 [2]), some "_3"⟩,
    ⟨.tensor .unknown, some "y"⟩]
  nodes := [⟨⟨0⟩, .silu, [⟨0⟩], [⟨2⟩], .empty, none⟩]
  inputs := [⟨0⟩, ⟨1⟩]
  outputs := [⟨2⟩]
  nextNode := 1

/-- After a step that finishes the further steps run. -/
theorem Step.runAll_cons {options : LoweringOptions} {step : Step} {g g' : Graph}
    {stats : PassStats} (h : step.run options g = (g', .ok stats)) (steps : List Step) :
    runAll options (step :: steps) g =
      ((runAll options steps g').1, (runAll options steps g').2.map stats.merge) := by
  rw [runAll, h]
  rfl

/-- The input and the gate are printed alike. -/
def Graph.ambiguous : Graph where
  name := "g"
  values := #[⟨.tensor (.of .f32 [2]), some "x"⟩, ⟨.tensor (.of .f32 [2]), some "_3"⟩,
    ⟨.tensor .unknown, some "y"⟩, ⟨.tensor (.of .f32 [2]), none⟩, ⟨.tensor .unknown, none⟩]
  nodes := [⟨⟨1⟩, .sigmoid, [⟨0⟩], [⟨3⟩], .empty, none⟩,
    ⟨⟨2⟩, .mul, [⟨0⟩, ⟨3⟩], [⟨4⟩], .empty, none⟩]
  inputs := [⟨0⟩, ⟨1⟩]
  outputs := [⟨4⟩]
  nextNode := 3

theorem Graph.wellFormed_shadowed : shadowed.WellFormed := by
  refine ⟨by decide, ?_, by decide⟩
  rintro node (_ | ⟨_, ⟨⟩⟩)
  rfl

theorem Graph.wellFormed_ambiguous : ambiguous.WellFormed := by
  refine ⟨by decide, ?_, by decide⟩
  rintro node (_ | ⟨_, _ | ⟨_, ⟨⟩⟩⟩) <;> rfl

theorem Graph.alive_ambiguous : ∀ node ∈ ambiguous.nodes, ambiguous.Alive node := by
  have hproduct : ambiguous.Alive ⟨⟨2⟩, .mul, [⟨0⟩, ⟨3⟩], [⟨4⟩], .empty, none⟩ :=
    .output (v := ⟨4⟩) (.tail _ (.head _)) (.head _) (.head _)
  have hsigmoid : ambiguous.Alive ⟨⟨1⟩, .sigmoid, [⟨0⟩], [⟨3⟩], .empty, none⟩ :=
    .read (.head _) (.head _) hproduct (.tail _ (.head _))
  rintro node (_ | ⟨_, _ | ⟨_, ⟨⟩⟩⟩)
  exacts [hsigmoid, hproduct]

/-- The unit is expanded, and nothing else happens. -/
theorem Graph.lower_shadowed :
    shadowed.lower Step.defaultCap {} = (ambiguous, .ok ⟨true, 2, 1, 0⟩) := by
  have hverify : ∀ {g : Graph}, g.WellFormed → Step.run {} (.pass .verify) g = (g, .ok {}) := by
    intro g hg
    rw [Step.run, Pass.run, (wellFormed_iff.mp hg).1]
    rfl
  have hbefore : ∀ pass ∈ [Pass.fold, .normalize, .identities, .linear],
      Step.run {} (.pass pass) shadowed = (shadowed, .ok {}) := by
    simp only [List.forall_mem_cons, Step.run]
    exact ⟨rfl, rfl, rfl, rfl, fun _ hpass => absurd hpass List.not_mem_nil⟩
  have hsilu : Step.run {} (.pass .silu) shadowed = (ambiguous, .ok (.ofModified 1)) := by
    rw [Step.run]
    rfl
  have hafter : ∀ pass ∈ [Pass.gelu, .identities, .deadCode],
      Step.run {} (.pass pass) ambiguous = (ambiguous, .ok {}) := by
    have hdead : Pass.deadCode.run {} ambiguous = (ambiguous, .ok {}) := by
      rw [Pass.run, DeadCode.run_of_alive wellFormed_ambiguous.form alive_ambiguous]
      rfl
    simp only [List.forall_mem_cons, Step.run]
    exact ⟨rfl, rfl, hdead, fun _ hpass => absurd hpass List.not_mem_nil⟩
  -- one round of each group changes nothing
  have hfirst : Step.run {} (.fixedPoint Step.defaultCap
      [.pass .fold, .pass .normalize, .pass .identities]) shadowed =
        (shadowed, .ok ⟨false, 1, 0, 0⟩) := by
    rw [Step.run, show max Step.defaultCap 1 = 3 + 1 from rfl, Lowered.iterate,
      Step.runAll_cons (hbefore .fold (by decide)),
      Step.runAll_cons (hbefore .normalize (by decide)),
      Step.runAll_cons (hbefore .identities (by decide)), Step.runAll]
    rfl
  have hsecond : Step.run {} (.fixedPoint Step.defaultCap
      [.pass .identities, .pass .deadCode]) ambiguous = (ambiguous, .ok ⟨false, 1, 0, 0⟩) := by
    rw [Step.run, show max Step.defaultCap 1 = 3 + 1 from rfl, Lowered.iterate,
      Step.runAll_cons (hafter .identities (by decide)),
      Step.runAll_cons (hafter .deadCode (by decide)), Step.runAll]
    rfl
  rw [lower, Step.standard, Step.runAll_cons (hverify wellFormed_shadowed),
    Step.runAll_cons hfirst, Step.runAll_cons (hbefore .linear (by decide)),
    Step.runAll_cons hsilu, Step.runAll_cons (hafter .gelu (by decide)),
    Step.runAll_cons hsecond, Step.runAll_cons (hverify wellFormed_ambiguous), Step.runAll]
  rfl

set_option maxRecDepth 20000 in
/-- The unit is read from a text. -/
theorem Graph.parse_shadowed :
    Graph.parse ("graph g(%x : Float(2), %_3 : Float(2)):\n  %y : Tensor = aten::silu(%x)\n" ++
      "  return (%y)\n") = .ok shadowed := by
  have hread : ParsedGraph.parse
      ("graph g(%x : Float(2), %_3 : Float(2)):\n  %y : Tensor = aten::silu(%x)\n" ++
        "  return (%y)\n") = (do
          shadowed.verify.mapError fun e => ⟨0, .structure e⟩
          return ⟨shadowed, [("y", ⟨2⟩), ("_3", ⟨1⟩), ("x", ⟨0⟩)]⟩) := rfl
  rw [Graph.parse, hread, (wellFormed_iff.mp wellFormed_shadowed).1]
  rfl

set_option maxRecDepth 20000 in
/-- A source may name a value as lowering labels one that it creates.  Two values of the lowered
graph then have one label, and its text is refused. -/
theorem Graph.exists_parse_text_lower_eq_error : ∃ text g g' stats,
    Graph.parse text = .ok g ∧ g.lower Step.defaultCap {} = (g', .ok stats) ∧
      ¬ Set.InjOn g'.label g'.defined ∧ Graph.parse g'.text = .error ⟨2, .redefined "_3"⟩ := by
  refine ⟨_, _, _, _, parse_shadowed, lower_shadowed, fun hlabels => ?_, ?_⟩
  · have hinput : (⟨1⟩ : ValueId) ∈ ambiguous.introduced := by decide
    have hgate : (⟨3⟩ : ValueId) ∈ ambiguous.introduced := by decide
    have hsame : (⟨1⟩ : ValueId) = ⟨3⟩ := hlabels hinput hgate (by decide +kernel)
    cases hsame
  · have htext : ambiguous.text =
        "graph g(%x : Float(2), %_3 : Float(2)):\n  %_3 : Float(2) = aten::sigmoid(%x)\n" ++
          "  %_4 : Tensor = aten::mul(%x, %_3)\n  return (%_4)\n" := by
      decide +kernel
    rw [htext]
    rfl

end HybridGraph
