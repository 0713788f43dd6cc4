import HybridGraph.Lowering.Pipeline
import HybridGraph.Proofs.Lowering.Fallbacks
import HybridGraph.Proofs.Lowering.Simplification
import HybridGraph.Proofs.Lowering.SameRun
/-!
# Passes that keep what a graph computes

Writing defaults out, removing identities and removing dead code keep every successful run of a
truthful graph: the graph that any sequence of these passes leaves gives the same tensors on the
same inputs, and its print nodes are given the same values in the same order:

    g.verify = .ok () → g.Truthful interpret → g.run interpret inputs = .ok outs →
      … → g'.run interpret inputs = .ok outs ∧
        g'.printed interpret inputs = g.printed interpret inputs           (Graph.run_runAll_exact)
-/

namespace HybridGraph

open Reference

variable {g : Graph} {bound : Bindings}

/-! ## Defaults -/

/-- Writing the defaults out keeps a run. -/
theorem Defaults.sameRun_run (h : g.SolvedBy interpret bound) (htypes : g.TypesHold bound) :
    g.SameRun interpret bound (Defaults.run g).1 := by
  refine .map h (fun node _ => ?_) (fun node hn => ?_) fun node _ => ?_
  · obtain ⟨attrs, hattrs⟩ := normalize_eq g node
    rw [hattrs]
    exact ⟨rfl, rfl, List.Subset.refl _⟩
  · obtain ⟨args, results, hargs, hresults, houtputs⟩ := h.nodes node hn
    have hsame : interpret (normalize g node) args = interpret node args := by
      refine interpret_normalize (Bindings.length_of_mapM_read hargs) fun rank t hrank ht => ?_
      obtain ⟨type, htype, hrank⟩ := Option.bind_eq_some_iff.mp hrank
      obtain ⟨v, hv, htype⟩ := Option.bind_eq_some_iff.mp htype
      exact (htypes v type t htype (Bindings.read_of_head? hargs hv ht)).rank rank hrank
    obtain ⟨attrs, hattrs⟩ := normalize_eq g node
    rw [hattrs] at hsame ⊢
    exact ⟨args, results, hargs, hsame.trans hresults, houtputs⟩
  · obtain ⟨attrs, hattrs⟩ := normalize_eq g node
    rw [hattrs]
    rfl

/-! ## Dead code -/

/-- Removing dead code keeps a run. -/
theorem DeadCode.sameRun_run (h : g.SolvedBy interpret bound) :
    g.SameRun interpret bound (DeadCode.run g).1 := by
  refine .filter h (contains_kept_of_reads h.form) (contains_kept_of_output h.form) ?_
  intro node hn hdropped
  refine if_neg fun hprint => ?_
  have hkept := (mem_kept_iff h.form hn).mpr (.inl (by rw [hprint]; rfl))
  rw [List.contains_iff_mem.mpr hkept] at hdropped
  cases hdropped

/-! ## Identities -/

namespace Identities

variable {node : Node} {x : ValueId}

/-- A node of a kind that can be an identity has one tensor as its result. -/
theorem exists_tensorResult {call : Call} {results : List Datum} (hkind : IsNeutral call.node.kind)
    (h : call.results = .ok results) :
    ∃ t, call.tensorResult = .ok t ∧ results = [.tensor t] := by
  refine (Call.results_eq_ok ?_ ?_ ?_).mp h <;> rcases hkind with h | h | h <;> rw [h] <;>
    exact OpKind.noConfusion

/-- An identity that runs answers its operand, if the element type declared for it is true. -/
theorem tensorResult_of_isIdentity {a : Datum} {t : Tensor} (hid : isIdentity g node = true)
    (hinputs : node.inputs = [x])
    (htypes : ∀ d t, g.dtype? x = some d → a = .tensor t → t.dtype = d)
    (h : (Call.mk node [a]).tensorResult = .ok t) : a = .tensor t := by
  have hoperand : ∀ {t}, (Call.mk node [a]).tensor 0 = .ok t → a = .tensor t :=
    fun ht => Option.some.inj (Call.head?_of_tensor ht)
  obtain ⟨y, _, hy, -, ⟨hkind, -⟩ | hkind | ⟨hkind, target, htarget, hdeclared⟩⟩ :=
    exists_of_isIdentity hid
  · unfold Call.tensorResult at h
    rw [hkind] at h
    dsimp only at h
    split at h
    · cases h
    · exact hoperand h
  · unfold Call.tensorResult at h
    rw [hkind] at h
    exact hoperand h
  · obtain rfl : x = y := by simpa using hinputs.symm.trans hy
    have hread : (Call.mk node [a]).dtype? "dtype" = .ok (some target) := by
      obtain ⟨held, hheld, ht⟩ := Option.bind_eq_some_iff.mp htarget
      cases held <;> cases ht
      unfold Call.dtype?
      rw [Call.attr?_of_node hheld]
    unfold Call.tensorResult at h
    rw [hkind] at h
    dsimp only at h
    rw [hread] at h
    obtain ⟨operand, hx, h⟩ := Outcome.bind_eq_ok.mp h
    have ha := hoperand hx
    have hcast : operand.cast target = t := Outcome.pure_eq_ok.mp h
    rw [ha, ← hcast, Tensor.cast, if_pos (htypes target operand hdeclared ha).symm]

/-- The remaining visits of a sweep retire nodes whose results equal their operands. -/
def Idle (g : Graph) (bound : Bindings) (ids : List NodeId) : Prop :=
  ∀ node ∈ g.nodes, node.id ∈ ids → IsNeutral node.kind ∧ ∃ x out, node.inputs = [x] ∧
    node.outputs = [out] ∧ bound.read x = bound.read out

theorem idle_found (h : g.SolvedBy interpret bound) (htypes : g.TypesHold bound) :
    Idle g bound (found g) := by
  intro node hn hfound
  obtain ⟨other, hother, hsame⟩ := List.mem_map.mp hfound
  obtain ⟨ho, hid⟩ := List.mem_filter.mp hother
  obtain rfl := h.form.nodes.eq_of_id ho hn hsame
  have hneutral := isNeutral_of_isIdentity hid
  obtain ⟨args, results, hargs, hresults, houtputs⟩ := h.nodes other ho
  obtain ⟨x, out, hx, hout, -⟩ := exists_of_isIdentity hid
  refine ⟨hneutral, x, out, hx, hout, ?_⟩
  rw [hx] at hargs
  rw [hout] at houtputs
  obtain ⟨a, _, ha, hnil, rfl⟩ := Outcome.mapM_cons_eq_ok.mp hargs
  obtain rfl := Outcome.pure_eq_ok.mp hnil
  obtain ⟨t, ht, rfl⟩ := exists_tensorResult hneutral hresults
  obtain ⟨_, _, hb, -, hlist⟩ := Outcome.mapM_cons_eq_ok.mp houtputs
  obtain rfl := (List.cons.inj hlist).1
  rw [ha, hb]
  refine congrArg Except.ok (tensorResult_of_isIdentity hid hx (fun d t hd hat => ?_) ht)
  obtain ⟨type, htype, hdtype⟩ := Option.bind_eq_some_iff.mp hd
  exact (htypes x type t htype (hat ▸ ha)).dtype d hdtype

/-- One visit keeps a run, and what the remaining visits rely on. -/
theorem sameRun_visit {state : Graph × Nat} {id : NodeId} {ids : List NodeId}
    (h : state.1.SolvedBy interpret bound) (hidle : Idle state.1 bound (id :: ids)) :
    state.1.SameRun interpret bound (visit state id).1 ∧ Idle (visit state id).1 bound ids := by
  have hrest : Idle state.1 bound ids := fun node hn hm => hidle node hn (List.mem_cons_of_mem _ hm)
  unfold visit
  cases hfind : state.1.node? id with
  | none => exact ⟨.refl h, hrest⟩
  | some node =>
    obtain ⟨hn, rfl⟩ := Graph.mem_of_node? hfind
    obtain ⟨hneutral, x, out, hinputs, houtputs, hsame⟩ := hidle node hn List.mem_cons_self
    obtain ⟨before, after, hsplit⟩ := List.append_of_mem hn
    dsimp only
    rw [hinputs, houtputs]
    dsimp only
    have hnew : x ∈ definedBy state.1.inputs before :=
      (h.form.nodes before node after hsplit).reads x (hinputs ▸ List.mem_cons_self)
    have hprinted : node.printed bound = [] := by
      refine if_neg fun hprint => ?_
      rw [hprint] at hneutral
      rcases hneutral with h | h | h <;> cases h
    refine ⟨.retire h hsplit houtputs hnew hsame hprinted, ?_⟩
    intro n hn' hid
    obtain ⟨m, hm, rfl⟩ := Graph.exists_of_mem_retire h.form hsplit houtputs hn'
    obtain ⟨hkind, y, out', hy, hout', hsame'⟩ := hrest m hm hid
    refine ⟨hkind, if y = out then x else y, out', ?_, hout', ?_⟩
    · unfold Node.replaceInput
      rw [hy]
      rfl
    · by_cases he : y = out
      · rw [if_pos he, hsame, ← he, hsame']
      · rw [if_neg he, hsame']

theorem sameRun_foldl_visit (ids : List NodeId) {state : Graph × Nat}
    (h : state.1.SolvedBy interpret bound) (hidle : Idle state.1 bound ids) :
    state.1.SameRun interpret bound (ids.foldl visit state).1 := by
  induction ids generalizing state with
  | nil => exact .refl h
  | cons id ids ih =>
    obtain ⟨hfirst, hrest⟩ := sameRun_visit h hidle
    exact hfirst.trans (ih hfirst.solved hrest)

/-- Removing identities keeps a run. -/
theorem sameRun_run (h : g.SolvedBy interpret bound) (htypes : g.TypesHold bound) :
    g.SameRun interpret bound (run g).1 :=
  @sameRun_foldl_visit bound (found g) (g, 0) h (idle_found h htypes)

end Identities

/-! ## Passes -/

/-- The passes that keep what a truthful graph computes. -/
def Pass.IsExact (pass : Pass) : Prop :=
  pass = .normalize ∨ pass = .identities ∨ pass = .deadCode

theorem Pass.sameRun_run (options : LoweringOptions) {pass : Pass} (hpass : pass.IsExact)
    (h : g.SolvedBy interpret bound) (htypes : g.TypesHold bound) :
    g.SameRun interpret bound (pass.run options g).1 ∧
      ∃ stats, (pass.run options g).2 = .ok stats := by
  rcases hpass with rfl | rfl | rfl
  · exact ⟨Defaults.sameRun_run h htypes, _, rfl⟩
  · exact ⟨Identities.sameRun_run h htypes, _, rfl⟩
  · exact ⟨DeadCode.sameRun_run h, _, rfl⟩

/-- A sequence of such passes keeps a run. -/
theorem Step.sameRun_runAll (options : LoweringOptions) (passes : List Pass)
    (hpasses : ∀ pass ∈ passes, pass.IsExact) (h : g.SolvedBy interpret bound)
    (htypes : g.TypesHold bound) :
    g.SameRun interpret bound (Step.runAll options (passes.map .pass) g).1 ∧
      ∃ stats, (Step.runAll options (passes.map .pass) g).2 = .ok stats := by
  induction passes generalizing g with
  | nil => exact ⟨.refl h, _, rfl⟩
  | cons pass passes ih =>
    obtain ⟨hfirst, stats, hstats⟩ :=
      pass.sameRun_run options (hpasses pass List.mem_cons_self) h htypes
    obtain ⟨hrest, stats', hstats'⟩ := ih (fun p hp => hpasses p (List.mem_cons_of_mem _ hp))
      hfirst.solved (hfirst.typesHold htypes)
    rw [List.map_cons, runAll, run]
    generalize pass.run options g = lowered at *
    obtain ⟨g', result⟩ := lowered
    dsimp only at hstats
    subst hstats
    refine ⟨hfirst.trans hrest, stats.merge stats', ?_⟩
    show ((runAll options (passes.map .pass) g').2.map stats.merge) = _
    rw [hstats']
    rfl

/-! ## Top theorem -/

/-- Any sequence of these passes succeeds on a truthful graph, and the graph that it leaves gives
the same tensors on the same inputs and prints the same values in the same order. -/
theorem Graph.run_runAll_exact (options : LoweringOptions) {passes : List Pass}
    (hpasses : ∀ pass ∈ passes, pass.IsExact) (hg : g.verify = .ok ())
    (htrue : g.Truthful interpret) {inputs outs : List Tensor}
    (hrun : g.run interpret inputs = .ok outs) :
    ∃ g' stats, Step.runAll options (passes.map .pass) g = (g', .ok stats) ∧
      g'.run interpret inputs = .ok outs ∧
      g'.printed interpret inputs = g.printed interpret inputs := by
  have hform := (verify_eq_ok.mp hg).1
  obtain ⟨start, bound, values, hstart, hagree, hsolved, htypes, hvalues, houts⟩ :=
    exists_solution hform htrue hrun
  obtain ⟨hsame, stats, hstats⟩ := Step.sameRun_runAll options passes hpasses hsolved htypes
  refine ⟨(Step.runAll options (passes.map .pass) g).1, stats, Prod.ext rfl hstats, ?_⟩
  exact hsame.run hsolved hstart hagree hvalues houts

/-- An input converted to its own element type, which is printed, transposed along an axis that
counts from the end, and flattened for nothing. -/
def Graph.converted : Graph where
  name := "converted"
  values := #[⟨.tensor (.of .i32 [1, 2]), none⟩, ⟨.tensor .unknown, none⟩, ⟨.tensor .unknown, none⟩,
    ⟨.tensor .unknown, none⟩]
  nodes := [⟨⟨0⟩, .to, [⟨0⟩], [⟨1⟩], .ofList [("dtype", .dtype .i32)], none⟩,
    ⟨⟨1⟩, .print, [⟨1⟩], [], .empty, none⟩,
    ⟨⟨2⟩, .flatten, [⟨1⟩], [⟨2⟩], .empty, none⟩,
    ⟨⟨3⟩, .transpose, [⟨1⟩], [⟨3⟩], .ofList [("dim0", .int (-1)), ("dim1", .int 0)], none⟩]
  inputs := [⟨0⟩]
  outputs := [⟨3⟩]
  nextNode := 4

/-- Two integers under given extents. -/
def Tensor.pair (dims : List Nat) : Tensor := ⟨.i32, dims, .i32 #[3, 5]⟩

theorem Kernel.permute_pair : permute (.pair [1, 2]) [1, 0] = .ok (.pair [2, 1]) := by
  have hrange : Array.range 2 = [0, 1].toArray := by decide
  have hdoubles : (Tensor.pair [1, 2]).doubles = #[3.0, 5.0] := by
    simp only [Tensor.pair, Tensor.doubles, List.map_toArray]
    rfl
  have hvalues : permuteValues #[(3.0 : Float), 5.0] [1, 2] [1, 0] = .ok #[3.0, 5.0] := by
    unfold permuteValues gather
    rw [show (#[(3.0 : Float), 5.0]).size = 2 from rfl, hrange, List.mapM_toArray]
    rfl
  have hstore : Tensor.store #[3.0, 5.0] .i32 = .i32 #[3, 5] := by
    simp only [Tensor.store, List.map_toArray]
    rfl
  unfold permute
  rw [hdoubles]
  show (permuteValues #[(3.0 : Float), 5.0] [1, 2] [1, 0] >>= build .i32 [2, 1]) = _
  rw [hvalues]
  show (Tensor.make .i32 [2, 1] (Tensor.store #[3.0, 5.0] .i32)).mapError _ = _
  rw [hstore]
  rfl

theorem Graph.truthful_converted : converted.Truthful interpret := by
  refine truthful_of_declared_inputs (by decide) fun v type htype => ?_
  obtain ⟨index⟩ := v
  match index with
  | 0 => exact .inl (by decide)
  | 1 | 2 | 3 => exact .inr (Option.some.inj htype).symm
  | _ + 4 => cases htype

theorem Graph.run_converted :
    converted.run interpret [.pair [1, 2]] = .ok [.pair [2, 1]] := by
  let bound : Bindings := [(⟨3⟩, .tensor (.pair [2, 1])), (⟨2⟩, .tensor (.pair [2])),
    (⟨1⟩, .tensor (.pair [1, 2])), (⟨0⟩, .tensor (.pair [1, 2]))]
  have hsolved : converted.SolvedBy interpret bound := by
    refine ⟨by decide, ?_⟩
    rintro node (_ | ⟨_, _ | ⟨_, _ | ⟨_, _ | ⟨_, ⟨⟩⟩⟩⟩⟩)
    · exact ⟨_, _, rfl, rfl, rfl⟩
    · exact ⟨_, _, rfl, rfl, rfl⟩
    · exact ⟨_, _, rfl, rfl, rfl⟩
    · refine ⟨[.tensor (.pair [1, 2])], [.tensor (.pair [2, 1])], rfl, ?_, rfl⟩
      show ((Kernel.permute (.pair [1, 2]) [1, 0]).mapError _ >>=
        fun t => pure [Datum.tensor t]) = _
      rw [Kernel.permute_pair]
      rfl
  have hstart : converted.bindInputs [.pair [1, 2]] = .ok [(⟨0⟩, .tensor (.pair [1, 2]))] := rfl
  refine (hsolved.run hstart ?_ rfl rfl).1
  intro v hv
  obtain rfl := List.mem_singleton.mp hv
  rfl

theorem Graph.run_runAll_exact_converted :
    (∀ pass ∈ [Pass.identities, .normalize, .deadCode], pass.IsExact) ∧
      converted.verify = .ok () ∧ converted.Truthful interpret ∧
      converted.run interpret [.pair [1, 2]] = .ok [.pair [2, 1]] ∧
      ∃ g' stats,
        Step.runAll {} ([Pass.identities, .normalize, .deadCode].map .pass) converted =
          (g', .ok stats) ∧
        g'.run interpret [.pair [1, 2]] = .ok [.pair [2, 1]] ∧
        g'.printed interpret [.pair [1, 2]] = converted.printed interpret [.pair [1, 2]] := by
  have hpasses : ∀ pass ∈ [Pass.identities, .normalize, .deadCode], pass.IsExact := by
    simp [Pass.IsExact]
  have hverify : converted.verify = .ok () := by
    refine verify_eq_ok.mpr ⟨by decide, ?_⟩
    rintro node (_ | ⟨_, _ | ⟨_, _ | ⟨_, _ | ⟨_, ⟨⟩⟩⟩⟩⟩) <;> rfl
  exact ⟨hpasses, hverify, truthful_converted, run_converted,
    Graph.run_runAll_exact {} hpasses hverify truthful_converted run_converted⟩

end HybridGraph
