import HybridGraph.Build.Segment
import HybridGraph.Proofs.Outcome
import Mathlib.Data.List.Induction
/-!
# Compiling after other segments

A compiler remembers what it built for every key, so its answer for a segment is decided by the
first segment of its history with the same key, or by the segment itself if there is none.  A
remembered failure is reported for the segment that asks, but the node and the fault in it are those
of the first build.

    (b.cacheAfter history).get? key = b.firstBuild? history key                 (get?_cacheAfter)
    (b.compile (b.cacheAfter history) s).1 = .error e → …                (exists_of_compile_error)
    (∀ s' ∈ history, … b.resolve s' ≠ .ok (inputs', key)) →
      (b.compile (b.cacheAfter history) s).1 = (b.compile [] s).1               (compile_eq_fresh)
-/

namespace HybridGraph

namespace SegmentBuilder

variable {A : Accelerator} (b : SegmentBuilder A)

/-- What enters a segment, and its key. -/
def resolve (s : Segment) : Except BuildError (List BoundaryInput × EngineKey) := do
  let inputs ← b.boundary s
  return (inputs, ← b.key s inputs)

/-- The cache after segments have been compiled, one after the other. -/
def cacheAfter (history : List Segment) : EngineCache A.Engine :=
  history.foldl (fun cache s => (b.compile cache s).2) []

/-- What building a segment for a key answers; nothing if it has another key, or none. -/
def buildFor? (key : EngineKey) (s : Segment) : Option (Except BuildError A.Engine) :=
  match b.resolve s with
  | .error _ => none
  | .ok (inputs, other) => if other = key then some (b.build s inputs) else none

/-- What the first segment with a key was built to. -/
def firstBuild? (history : List Segment) (key : EngineKey) : Option (Except BuildError A.Engine) :=
  history.findSome? (b.buildFor? key)

variable {b} {cache : EngineCache A.Engine} {history : List Segment} {s : Segment}

theorem compile_of_resolve_error {e : BuildError} (h : b.resolve s = .error e) :
    b.compile cache s = (.error e, cache) := by
  show (match b.resolve s with
    | .error e => _
    | .ok (inputs, key) => _) = _
  rw [h]

theorem compile_of_resolve {inputs : List BoundaryInput} {key : EngineKey}
    (h : b.resolve s = .ok (inputs, key)) :
    b.compile cache s =
      ((cache.ensure key s.id fun _ => b.build s inputs).1 >>= b.ports s inputs key,
        (cache.ensure key s.id fun _ => b.build s inputs).2) := by
  show (match b.resolve s with
    | .error e => _
    | .ok (inputs, key) => _) = _
  rw [h]

theorem ensure_fst {key : EngineKey} {segment : Nat} {build : Unit → Except BuildError A.Engine} :
    (cache.ensure key segment build).1 =
      EngineCache.reportFor segment ((cache.get? key).getD (build ())) := by
  unfold EngineCache.ensure
  cases cache.get? key with
  | none => rfl
  | some held => rfl

theorem get?_ensure {key other : EngineKey} {segment : Nat}
    {build : Unit → Except BuildError A.Engine} :
    (cache.ensure key segment build).2.get? other =
      (cache.get? other).or (if key = other then some (build ()) else none) := by
  unfold EngineCache.ensure
  cases hheld : cache.get? key with
  | some held =>
    by_cases hkey : key = other
    · subst hkey
      simp [hheld]
    · simp [hkey]
  | none =>
    by_cases hkey : key = other
    · subst hkey
      rw [hheld, if_pos rfl, Option.none_or]
      exact List.lookup_cons_self
    · have hne : (other == key) = false := beq_eq_false_iff_ne.mpr (Ne.symm hkey)
      simp [hkey, EngineCache.get?, List.lookup_cons, hne]

theorem get?_compile (key : EngineKey) :
    (b.compile cache s).2.get? key = (cache.get? key).or (b.buildFor? key s) := by
  cases hresolve : b.resolve s with
  | error e => simp [compile_of_resolve_error hresolve, buildFor?, hresolve]
  | ok resolved =>
    obtain ⟨inputs, other⟩ := resolved
    rw [compile_of_resolve hresolve, get?_ensure, buildFor?, hresolve]

/-- A cache holds what the first segment with each key was built to. -/
theorem get?_cacheAfter (key : EngineKey) :
    (b.cacheAfter history).get? key = b.firstBuild? history key := by
  induction history using List.reverseRecOn with
  | nil => rfl
  | append_singleton history s ih =>
    rw [cacheAfter, List.foldl_append, List.foldl_cons, List.foldl_nil, get?_compile, firstBuild?,
      List.findSome?_append, List.findSome?_singleton]
    exact congrArg (Option.or · _) ih

/-- What a compiler answers for a segment: the first build with its key, reported for the segment,
with the ports of the segment. -/
theorem compile_cacheAfter : (b.compile (b.cacheAfter history) s).1 = (do
    let (inputs, key) ← b.resolve s
    let built := (b.firstBuild? history key).getD (b.build s inputs)
    let engine ← EngineCache.reportFor s.id built
    b.ports s inputs key engine) := by
  cases hresolve : b.resolve s with
  | error e => rw [compile_of_resolve_error hresolve]; rfl
  | ok resolved =>
    obtain ⟨inputs, key⟩ := resolved
    rw [compile_of_resolve hresolve, ensure_fst, get?_cacheAfter]
    rfl

/-- What was built first for a key was built for a segment of the history. -/
theorem exists_of_firstBuild? {key : EngineKey} {built : Except BuildError A.Engine}
    (h : b.firstBuild? history key = some built) :
    ∃ s ∈ history, ∃ inputs, b.resolve s = .ok (inputs, key) ∧ b.build s inputs = built := by
  obtain ⟨s, hs, hbuilt⟩ := List.exists_of_findSome?_eq_some h
  unfold buildFor? at hbuilt
  split at hbuilt
  · cases hbuilt
  · next inputs other hresolve =>
    split at hbuilt
    · next hkey =>
      subst hkey
      exact ⟨s, hs, inputs, hresolve, Option.some.inj hbuilt⟩
    · cases hbuilt

/-! ## Top theorems -/

/-- A segment fails because of itself, or of the first segment with its key. -/
theorem exists_of_compile_error {e : BuildError}
    (h : (b.compile (b.cacheAfter history) s).1 = .error e) :
    b.resolve s = .error e ∨ ∃ inputs key, b.resolve s = .ok (inputs, key) ∧
      ((∃ s' ∈ history ++ [s], ∃ inputs' cause, b.resolve s' = .ok (inputs', key) ∧
          b.build s' inputs' = .error cause ∧ e = { cause with segment := s.id }) ∨
        ∃ engine, b.ports s inputs key engine = .error e) := by
  rw [compile_cacheAfter] at h
  rcases Outcome.bind_eq_error.mp h with h | ⟨⟨inputs, key⟩, hresolve, h⟩
  · exact .inl h
  · refine .inr ⟨inputs, key, hresolve, ?_⟩
    rcases Outcome.bind_eq_error.mp h with hreport | ⟨engine, -, hports⟩
    · obtain ⟨cause, hcause, rfl⟩ := Outcome.mapError_eq_error.mp hreport
      refine .inl ?_
      cases hfirst : b.firstBuild? history key with
      | none =>
        rw [hfirst] at hcause
        exact ⟨s, by simp, inputs, cause, hresolve, hcause, rfl⟩
      | some built =>
        rw [hfirst] at hcause
        obtain ⟨s', hs', inputs', hresolve', hbuilt⟩ := exists_of_firstBuild? hfirst
        exact ⟨s', List.mem_append_left _ hs', inputs', cause, hresolve', hbuilt.trans hcause, rfl⟩
    · exact .inr ⟨engine, hports⟩

/-- Nothing but segments with the same key matters. -/
theorem compile_eq_fresh
    (h : ∀ s' ∈ history, ∀ key inputs inputs', b.resolve s = .ok (inputs, key) →
      b.resolve s' ≠ .ok (inputs', key)) :
    (b.compile (b.cacheAfter history) s).1 = (b.compile [] s).1 := by
  have hfresh : (b.compile [] s).1 = (b.compile (b.cacheAfter []) s).1 := rfl
  rw [hfresh, compile_cacheAfter, compile_cacheAfter]
  refine Outcome.bind_congr fun ⟨inputs, key⟩ hresolve => ?_
  have hnone : b.firstBuild? history key = none := by
    rw [Option.eq_none_iff_forall_ne_some]
    intro built hbuilt
    obtain ⟨s', hs', inputs', hresolve', -⟩ := exists_of_firstBuild? hbuilt
    exact h s' hs' key inputs inputs' hresolve hresolve'
  show (EngineCache.reportFor s.id ((b.firstBuild? history key).getD _) >>= _) = _
  rw [hnone]
  rfl

end SegmentBuilder

end HybridGraph
