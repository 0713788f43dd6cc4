import HybridGraph.Proofs.Build.Sharing
import HybridGraph.Proofs.Compilation.Exclusions
import HybridGraph.Proofs.Engine.Stored
import HybridGraph.Proofs.Partition.Cover
import HybridGraph.Proofs.Program.Calls
import HybridGraph.Proofs.Program.Counting
import HybridGraph.Proofs.Tensor.Casts
/-!
# The calls of compiled programs

A compiler makes one engine for each segment of its plan, and the segments have different numbers.
So in the program of a graph that has no calls of its own each call names the engine in its own
place of the table and reads and answers the values of its ports
(`Compiler.exists_engine_of_compile`).

A graph may hold calls before it is compiled.  They stay as they are, whatever they name: neither
lowering nor assembly looks at their engine.

An engine that is built under truncation reads and writes 32 bits where the graph has integers of
64, and a call of it casts on the way in and on the way out.  Integers that need no more than 32
bits pass through both casts unharmed (`SegmentBuilder.truncation_lossless`).
-/

namespace HybridGraph

variable {A : Accelerator}

/-! ## Engines and segments -/

namespace SegmentBuilder

variable {b : SegmentBuilder A} {cache : EngineCache A.Engine} {s : Segment}
  {made : SegmentEngine A}

theorem standsFor_of_ports {inputs : List BoundaryInput} {key : EngineKey} {engine : A.Engine}
    (hinputs : b.boundary s = .ok inputs) (h : b.ports s inputs key engine = .ok made) :
    made.StandsFor s := by
  obtain ⟨hlength, rfl⟩ := ports_eq_ok.mp h
  refine ⟨rfl, ?_, ?_⟩
  · rw [← values_of_boundary hinputs]
    exact List.map_map
  · show ((s.outputs.zip (A.outputs engine)).map _).map EnginePort.value = _
    rw [List.map_map]
    exact List.map_fst_zip (Nat.le_of_eq hlength.symm)

/-- Whatever was compiled before, the ports of an engine are those of its segment. -/
theorem exists_ports_of_compile (h : (b.compile cache s).1 = .ok made) : ∃ inputs key engine,
    b.boundary s = .ok inputs ∧ b.ports s inputs key engine = .ok made := by
  cases hresolve : b.resolve s with
  | error e =>
    rw [compile_of_resolve_error hresolve] at h
    cases h
  | ok resolved =>
    obtain ⟨inputs, key⟩ := resolved
    rw [compile_of_resolve hresolve] at h
    obtain ⟨engine, -, hports⟩ := Outcome.bind_eq_ok.mp h
    exact ⟨inputs, key, engine, (exists_fingerprint hresolve).1, hports⟩

theorem standsFor_of_compile (h : (b.compile cache s).1 = .ok made) : made.StandsFor s := by
  obtain ⟨inputs, key, engine, hinputs, hports⟩ := exists_ports_of_compile h
  exact standsFor_of_ports hinputs hports

theorem forall₂_standsFor {segments : List Segment} {engines : List (SegmentEngine A)}
    (h : b.compileAll cache segments = .ok engines) :
    List.Forall₂ (fun e s => e.StandsFor s) engines segments := by
  induction segments generalizing cache engines with
  | nil =>
    obtain rfl := Except.ok.inj h
    exact .nil
  | cons s rest ih =>
    obtain ⟨made, hmade, h⟩ := Outcome.bind_eq_ok.mp h
    obtain ⟨others, hothers, h⟩ := Outcome.bind_eq_ok.mp h
    obtain rfl := Outcome.pure_eq_ok.mp h
    exact .cons (standsFor_of_compile hmade) (ih hothers)

end SegmentBuilder

/-! ## Compiled programs -/

/-- No kind is decomposed into calls. -/
theorem OpKind.engineCall_notMem_parts (kind : OpKind) : .engineCall ∉ kind.parts := by
  cases kind <;> decide

/-- A graph whose nodes descend from nodes that are no calls has no calls. -/
theorem Graph.Descends.kind_ne_engineCall {g g' : Graph} (h : g.Descends g')
    (hcalls : ∀ node ∈ g.nodes, node.kind ≠ .engineCall) :
    ∀ node ∈ g'.nodes, node.kind ≠ .engineCall := by
  intro node hn hkind
  obtain ⟨old, hold, hdescends⟩ := h node hn
  rcases hdescends.kind with hsame | hpart
  · exact hcalls old hold (hsame.symm.trans hkind)
  · exact OpKind.engineCall_notMem_parts old.kind (hkind ▸ hpart)

namespace Compiler

variable {compiler : Compiler A} {g : Graph} {c : CompileConfig} {state : DeviceState}
  {compilation : Compilation A}

/-- In the program that a graph without calls is compiled into, calls and engines are as many, and
each call names the engine of its own place and has the values of its ports. -/
theorem exists_engine_of_compile (hg : g.Ready)
    (hcalls : ∀ node ∈ g.nodes, node.kind ≠ .engineCall)
    (h : (compiler.compile state g c).1 = .ok compilation) :
    compilation.program.engineCalls.length = compilation.program.engines.length ∧
      ∀ i call, compilation.program.engineCalls[i]? = some call →
        ∃ e, compilation.program.engineOf call = .ok (i, e) ∧
          call.inputs = e.inputs.map EnginePort.value ∧
            call.outputs = e.outputs.map EnginePort.value := by
  obtain ⟨p, hp, hlink, -, -⟩ := of_compile h
  obtain ⟨hnodes, hpartition, -⟩ := of_prepare hp
  obtain ⟨engines, hengines, hassemble⟩ := Outcome.bind_eq_ok.mp hlink
  rw [Outcome.mapError_eq_ok] at hengines hassemble
  have hlowered : ∀ node ∈ p.lowered.nodes, node.kind ≠ .engineCall := by
    rw [hnodes]
    have hkeeps := Step.keeps_runAll c.lowering (Step.standard compiler.cap) g hg
    exact hkeeps.descends.kind_ne_engineCall hcalls
  have hdistinct : (p.plan.segments.map Segment.id).Nodup := by
    rw [Plan.numbered_of_partition hpartition]
    exact List.nodup_range
  refine HybridProgram.exists_engine_of_call hlowered (fun e he => ?_) hdistinct hassemble
  exact Outcome.exists_of_forall₂ (SegmentBuilder.forall₂_standsFor hengines) he

end Compiler

/-! ## Truncation -/

/-- Under truncation an engine reads the 32-bit counterpart of any type. -/
theorem Graph.engineType_true (v : ValueId) (dtype : DType) :
    Graph.engineType true v dtype = .ok dtype.truncated := by
  cases dtype <;> rfl

namespace SegmentBuilder

variable {b : SegmentBuilder A} {cache : EngineCache A.Engine} {s : Segment}
  {e : SegmentEngine A} {dtype : DType} {i j : ℕ}

/-! ### Ports -/

/-- The value in a place of a boundary has the element type. -/
def HasTypeAt (b : SegmentBuilder A) (dtype : DType) (vs : List ValueId) (i : ℕ) : Prop :=
  ∃ v, vs[i]? = some v ∧ b.graph.knownType? b.shapes v = some dtype

/-- Under truncation an engine reads the 32-bit counterpart of what the graph has, -/
theorem exists_port_of_inputs (htruncate : b.config.truncateWide = true)
    (h : (b.compile cache s).1 = .ok e) (htype : b.HasTypeAt dtype s.inputs i) :
    ∃ port, e.inputs[i]? = some port ∧ port.engine = dtype.truncated := by
  obtain ⟨inputs, key, engine, hinputs, hports⟩ := exists_ports_of_compile h
  obtain ⟨-, rfl⟩ := ports_eq_ok.mp hports
  obtain ⟨v, hv, hknown⟩ := htype
  obtain ⟨input, hinput, hentered⟩ := Outcome.exists_getElem?_of_forall₂
    (Outcome.mapM_eq_ok.mp (Outcome.mapError_eq_ok.mp hinputs)) hv
  rw [htruncate] at hentered
  obtain ⟨declared, read, shape, hdeclared, hread, -, rfl⟩ :=
    Graph.boundaryInput_eq_ok.mp hentered
  obtain rfl := Option.some.inj (hknown.symm.trans hdeclared)
  rw [Graph.engineType_true] at hread
  refine ⟨_, List.getElem?_map.trans (congrArg (Option.map _) hinput), ?_⟩
  exact (Except.ok.inj hread).symm

/-- and what it answers is given the type that the graph has. -/
theorem exists_port_of_outputs (h : (b.compile cache s).1 = .ok e)
    (htype : b.HasTypeAt dtype s.outputs j) :
    ∃ port, e.outputs[j]? = some port ∧ port.declared = some dtype := by
  obtain ⟨inputs, key, engine, -, hports⟩ := exists_ports_of_compile h
  obtain ⟨hlength, rfl⟩ := ports_eq_ok.mp hports
  obtain ⟨v, hv, hknown⟩ := htype
  obtain ⟨hj, -⟩ := List.getElem?_eq_some_iff.mp hv
  have hplace := (List.getElem?_zip_eq_some (z := (v, _))).mpr
    ⟨hv, List.getElem?_eq_getElem (hj.trans_eq hlength.symm)⟩
  exact ⟨_, List.getElem?_map.trans (congrArg (Option.map _) hplace), hknown⟩

/-! ### Calls -/

/-- Calls of an engine cast integers of 64 bits without loss.  They accept any tensors and read
integers of 64 bits in 32, and whatever the engine gives for that is an answer of the call.  Where
the engine gives integers that were cast from 64 bits, and 32 are enough for them, the call gives
what they were cast from. -/
def KeepsLong (b : SegmentBuilder A) (s : Segment) (e : SegmentEngine A) (p : HybridProgram A)
    (call : Node) : Prop :=
  ∀ xs : List Tensor, xs.length = s.inputs.length →
    ∃ ts, HybridProgram.feeds e (xs.map .tensor) = .ok ts ∧
      (∀ i x, b.HasTypeAt .i64 s.inputs i → xs[i]? = some x → x.dtype = .i64 →
        ts[i]? = some (x.cast .i32)) ∧
      ∀ outs, A.execute e.engine ts = .ok outs → outs.length = s.outputs.length →
        ∃ results, p.callEngine call (xs.map .tensor) = .ok results ∧
          ∀ j x, b.HasTypeAt .i64 s.outputs j → outs[j]? = some (x.cast .i32) →
            x.WellFormed → x.dtype = .i64 → x.Narrow → results[j]? = some (.tensor x)

theorem keepsLong_of_compile (htruncate : b.config.truncateWide = true)
    (h : (b.compile cache s).1 = .ok e) {p : HybridProgram A} {call : Node} {number : ℕ}
    (hcall : p.engineOf call = .ok (number, e)) : b.KeepsLong s e p call := by
  intro xs hlen
  have hports := standsFor_of_compile h
  have hinputs : xs.length = e.inputs.length := by
    rw [hlen, ← hports.inputs, List.length_map]
  refine ⟨_, HybridProgram.feeds_tensors hinputs, ?_, fun outs houts hcount => ?_⟩
  · intro i x htype hx hdtype
    obtain ⟨port, hport, hread⟩ := exists_port_of_inputs htruncate h htype
    have hcast : x.castTo .i32 = x.cast .i32 := Tensor.castTo_of_ne (by simp [hdtype])
    rw [List.getElem?_zipWith, hx, hport]
    exact congrArg some ((congrArg x.castTo hread).trans hcast)
  have houtputs : outs.length = e.outputs.length := by
    rw [hcount, ← hports.outputs, List.length_map]
  refine ⟨_, HybridProgram.callEngine_eq_ok.mpr ⟨number, e, _, outs, hcall,
    HybridProgram.feeds_tensors hinputs, houts, houtputs, rfl⟩, ?_⟩
  intro j x htype hout hx hdtype hnarrow
  obtain ⟨port, hport, hdeclared⟩ := exists_port_of_outputs h htype
  have hcast : (x.cast .i32).dtype = .i32 := by simp [Tensor.cast_of_ne, hdtype]
  have hback : (x.cast .i32).castTo .i64 = x := by
    rw [Tensor.castTo_of_ne (by simp [hcast])]
    exact (Tensor.cast_i32_cast_eq_self_iff hx hdtype).mpr hnarrow
  have hplace := (List.getElem?_zip_eq_some (z := (x.cast .i32, port))).mpr ⟨hout, hport⟩
  refine List.getElem?_map.trans ((congrArg (Option.map _) hplace).trans ?_)
  rw [Option.map_some, EnginePort.result, hdeclared, Option.elim_some, hback]

/-! ### Top theorem -/

/-- A tensor of integers of 64 bits comes back from 32 bits exactly if these are enough, and one of
bytes, of integers of 32 bits or of truth values comes back from every wider type exactly if its
elements are in the range of its own.  So nothing is lost on the way through the engines that are
built under truncation. -/
theorem truncation_lossless :
    (∀ t : Tensor, t.WellFormed → t.dtype = .i64 →
      ((t.cast .i32).cast .i64 = t ↔ t.Narrow)) ∧
    (∀ (t : Tensor) (wide : DType), t.Counted → t.dtype.Widens wide →
      ((t.cast wide).cast t.dtype = t ↔ t.WellFormed)) ∧
    ∀ {A : Accelerator} (b : SegmentBuilder A) (cache : EngineCache A.Engine) (s : Segment)
      (e : SegmentEngine A), b.config.truncateWide = true → (b.compile cache s).1 = .ok e →
        ∀ (p : HybridProgram A) (call : Node) (number : ℕ),
          p.engineOf call = .ok (number, e) → b.KeepsLong s e p call :=
  ⟨fun _ ht hdtype => Tensor.cast_i32_cast_eq_self_iff ht hdtype,
    fun _ _ hcount hwide => Tensor.cast_cast_eq_self_iff hcount hwide,
    fun _ _ _ _ htruncate h _ _ _ hcall => keepsLong_of_compile htruncate h hcall⟩

/-- A copy of two integers of 64 bits, under truncation. -/
def copying : SegmentBuilder Reference.accelerator where
  registry := Registry.standard Reference.accelerator
  config := { truncateWide := true }
  graph := {
    name := "copy"
    values := .replicate 2 ⟨.tensor (.of .i64 [2]), none⟩
    nodes := [⟨⟨0⟩, .contiguous, [⟨0⟩], [⟨1⟩], .empty, none⟩]
    inputs := [⟨0⟩]
    outputs := [⟨1⟩]
    nextNode := 1 }
  shapes := []

/-- The least and the largest integer of 32 bits pass through the engine that copies, and the least
and the largest byte through doubles. -/
theorem truncation_lossless_ends :
    let x : Tensor := ⟨.i64, [2], .i64 #[-2147483648, 2147483647]⟩
    let y : Tensor := ⟨.i8, [2], .i32 #[-128, 127]⟩
    let s : Segment := ⟨0, [⟨0⟩], [⟨0⟩], [⟨1⟩]⟩
    (x.cast .i32).cast .i64 = x ∧ (y.cast .f64).cast .i8 = y ∧
      ∃ e results, (copying.compile [] s).1 = .ok e ∧
        HybridProgram.callEngine ⟨copying.graph, [e]⟩ (.engineCall 0 s.inputs s.outputs)
          [.tensor x] = .ok results ∧ results[0]? = some (.tensor x) := by
  intro x y s
  have hx : x.WellFormed := ⟨rfl, rfl, trivial⟩
  have hy : y.WellFormed := ⟨rfl, rfl, fun _ => by simp⟩
  have hnarrow : x.Narrow := by decide
  obtain ⟨hlong, hwide, hcalls⟩ := truncation_lossless
  obtain ⟨e, he, hfeeds, hexecute⟩ : ∃ e, (copying.compile [] s).1 = .ok e ∧
      (HybridProgram.feeds e [.tensor x]).toOption = some [x.cast .i32] ∧
        (e.engine.execute [x.cast .i32]).toOption = some [x.cast .i32] :=
    ⟨_, rfl, by decide +kernel, by decide +kernel⟩
  refine ⟨(hlong x hx rfl).mpr hnarrow, (hwide y .f64 hy.count (by decide)).mpr hy, e, ?_⟩
  obtain ⟨ts, hts, -, hcall⟩ := hcalls copying [] s e rfl he ⟨copying.graph, [e]⟩
    (.engineCall 0 s.inputs s.outputs) 0 rfl [x] rfl
  obtain rfl := Except.ok.inj (hts.symm.trans (Outcome.toOption_eq_some.mp hfeeds))
  obtain ⟨results, hresults, hkeeps⟩ := hcall _ (Outcome.toOption_eq_some.mp hexecute) rfl
  exact ⟨results, he, hresults, hkeeps 0 x ⟨⟨1⟩, rfl, rfl⟩ rfl hx rfl hnarrow⟩

end SegmentBuilder

end HybridGraph
