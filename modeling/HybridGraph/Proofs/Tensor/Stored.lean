import HybridGraph.Proofs.Json.Records
import HybridGraph.Tensor.Stored
/-!
# Stored tensors and types

A type or a tensor is storable if its extents fit a machine word and its floats are finite; such a
one is recovered from its record under every faithful serializer:

    S.Faithful → t.Storable → S.Recovers ValueType.ofJson? t.toJson t           (ValueType.recovers)
    S.Faithful → t.Storable → S.Recovers Tensor.ofJson? t.toJson t                 (Tensor.recovers)
-/

namespace HybridGraph

open Json Json.Serializer

variable {S : Json.Serializer}

/-! ## Element types and extents -/

theorem DType.recovers (hS : S.Faithful) (t : DType) : S.Recovers DType.ofJson? t.toJson t :=
  recovers_unit hS (by cases t <;> rfl)

theorem ScalarKind.recovers (hS : S.Faithful) (kind : ScalarKind) :
    S.Recovers (unit? ScalarKind.ofTag?) (.string kind.tag) kind :=
  recovers_unit hS (by cases kind <;> rfl)

@[simp]
theorem DType.depth_toJson (t : DType) : t.toJson.depth = 0 := rfl

theorem recovers_extents (hS : S.Faithful) {dims : List Nat} (h : ∀ n ∈ dims, n ≤ Text.maxWord) :
    S.Recovers extents? (.nats dims) dims :=
  recovers_list fun n hn => recovers_size hS (h n hn)

/-- A known extent fits a machine word. -/
def Dimension.Storable : Dimension → Prop
  | .fixed n => n ≤ Text.maxWord
  | .dynamic => True

theorem Dimension.recovers (hS : S.Faithful) {d : Dimension} (h : d.Storable) :
    S.Recovers Dimension.ofJson? d.toJson d := by
  cases d with
  | fixed n =>
    exact (recovers_size hS h).tagged fun j hj => congrArg (Option.map Dimension.fixed) hj
  | dynamic => exact ⟨.string "Dynamic", reread?_string hS _, rfl⟩

theorem Dimension.depth_toJson_le (d : Dimension) : d.toJson.depth ≤ 1 := by
  cases d with
  | fixed n => exact Nat.le_refl 1
  | dynamic => exact Nat.zero_le 1

/-- All extents of a contract fit a machine word. -/
def ShapeSpec.Storable : ShapeSpec → Prop
  | .fixed dims => ∀ n ∈ dims, n ≤ Text.maxWord
  | .ranged lo mid hi =>
    (∀ n ∈ lo, n ≤ Text.maxWord) ∧ (∀ n ∈ mid, n ≤ Text.maxWord) ∧ ∀ n ∈ hi, n ≤ Text.maxWord

theorem ShapeSpec.recovers (hS : S.Faithful) {s : ShapeSpec} (h : s.Storable) :
    S.Recovers ShapeSpec.ofJson? s.toJson s := by
  cases s with
  | fixed dims =>
    exact (recovers_extents hS h).tagged fun j hj => by simp [ofJson?, hj]
  | ranged lo mid hi =>
    obtain ⟨jlo, hlo, hlo'⟩ := recovers_extents hS h.1
    obtain ⟨jmid, hmid, hmid'⟩ := recovers_extents hS h.2.1
    obtain ⟨jhi, hhi, hhi'⟩ := recovers_extents hS h.2.2
    refine ⟨.tagged "Dynamic" (.object [("min", jlo), ("opt", jmid), ("max", jhi)]),
      reread?_tagged (reread?_fields ?_), ?_⟩
    · simp [rereadFields?, hlo, hmid, hhi]
    · simp [ofJson?, hlo', hmid', hhi']

theorem ShapeSpec.depth_toJson_le (s : ShapeSpec) : s.toJson.depth ≤ 3 := by
  cases s with
  | fixed dims =>
    have hdims := depth_nats_le dims
    rw [toJson, depth_tagged]
    omega
  | ranged lo mid hi =>
    have hlo := depth_nats_le lo
    have hmid := depth_nats_le mid
    have hhi := depth_nats_le hi
    rw [toJson, depth_tagged]
    simp only [depth, fieldsDepth]
    omega

/-! ## Types of values -/

/-- All known extents of a tensor type fit a machine word. -/
def TensorType.Storable (t : TensorType) : Prop := ∀ dims ∈ t.shape, ∀ d ∈ dims, d.Storable

theorem TensorType.recovers (hS : S.Faithful) {t : TensorType} (h : t.Storable) :
    S.Recovers TensorType.ofJson? t.toJson t := by
  have hdtype : S.Recovers (option? DType.ofJson?) (.option DType.toJson t.dtype) t.dtype :=
    recovers_option hS rfl fun dtype _ => dtype.recovers hS
  have hshape : S.Recovers (option? (list? Dimension.ofJson?))
      (.option (.list Dimension.toJson) t.shape) t.shape :=
    recovers_option hS rfl fun dims hdims =>
      recovers_list fun d hd => Dimension.recovers hS (h dims hdims d hd)
  obtain ⟨jdtype, hdtype, hdtype'⟩ := hdtype
  obtain ⟨jshape, hshape, hshape'⟩ := hshape
  refine ⟨.object [("dtype", jdtype), ("shape", jshape)], reread?_fields ?_, ?_⟩
  · simp [rereadFields?, hdtype, hshape]
  · simp [ofJson?, hdtype', hshape']

theorem TensorType.depth_toJson_le (t : TensorType) : t.toJson.depth ≤ 3 := by
  have hdtype : (option DType.toJson t.dtype).depth ≤ 0 :=
    depth_option_le fun dtype _ => dtype.depth_toJson.le
  have hshape : (option (list Dimension.toJson) t.shape).depth ≤ 2 :=
    depth_option_le fun dims _ => depth_list_le fun d _ => d.depth_toJson_le
  simp only [toJson, depth, fieldsDepth]
  omega

/-- All known extents of a type fit a machine word. -/
def ValueType.Storable : ValueType → Prop
  | .tensor t => t.Storable
  | _ => True

theorem ValueType.recovers (hS : S.Faithful) {t : ValueType} (h : t.Storable) :
    S.Recovers ValueType.ofJson? t.toJson t := by
  cases t with
  | tensor t =>
    exact (TensorType.recovers hS h).tagged fun j hj => by
      simp [ofJson?, hj]
  | scalar kind =>
    exact (kind.recovers hS).tagged fun j hj => by simp [ofJson?, hj]
  | list kind =>
    exact (kind.recovers hS).tagged fun j hj => by simp [ofJson?, hj]

theorem ValueType.depth_toJson_le (t : ValueType) : t.toJson.depth ≤ 4 := by
  cases t with
  | tensor t =>
    have htensor := t.depth_toJson_le
    rw [toJson, depth_tagged]
    omega
  | scalar kind => exact (depth_tagged _ _).trans_le (Nat.succ_le_succ (Nat.zero_le 3))
  | list kind => exact (depth_tagged _ _).trans_le (Nat.succ_le_succ (Nat.zero_le 3))

/-! ## Tensors -/

/-- All floats are finite. -/
def Elements.Storable : Elements → Prop
  | .f32 v => ∀ x ∈ v, x.isFinite = true
  | .f64 v => ∀ x ∈ v, x.isFinite = true
  | _ => True

theorem Elements.recovers (hS : S.Faithful) {data : Elements} (h : data.Storable) :
    S.Recovers Elements.ofJson? data.toJson data := by
  cases data with
  | f32 v =>
    have hlist : S.Recovers (list? single?) (.list .single v.toList) v.toList :=
      recovers_list fun x hx => recovers_single hS (h x (Array.mem_toList_iff.mp hx))
    exact hlist.tagged fun j hj => by simp [ofJson?, hj]
  | f64 v =>
    have hlist : S.Recovers (list? double?) (.list .double v.toList) v.toList :=
      recovers_list fun x hx => recovers_double hS (h x (Array.mem_toList_iff.mp hx))
    exact hlist.tagged fun j hj => by simp [ofJson?, hj]
  | i32 v =>
    have hlist : S.Recovers (list? (int? 32)) (.list (fun n => .int n.toInt) v.toList)
        (v.toList.map Int32.toInt) :=
      recovers_list_map fun n _ => recovers_int hS (by decide) n.le_toInt n.toInt_lt
    have hsame : Int32.ofInt ∘ Int32.toInt = id := funext Int32.ofInt_toInt
    exact hlist.tagged fun j hj => by simp [ofJson?, hj, hsame]
  | i64 v =>
    have hlist : S.Recovers (list? (int? 64)) (.list (fun n => .int n.toInt) v.toList)
        (v.toList.map Int64.toInt) :=
      recovers_list_map fun n _ => recovers_int hS (by decide) n.le_toInt n.toInt_lt
    have hsame : Int64.ofInt ∘ Int64.toInt = id := funext Int64.ofInt_toInt
    exact hlist.tagged fun j hj => by simp [ofJson?, hj, hsame]
  | bool v =>
    have hlist : S.Recovers (list? byte?) (.list (fun b => .nat b.toNat) v.toList) v.toList :=
      recovers_list fun b _ => recovers_byte hS b
    exact hlist.tagged fun j hj => by simp [ofJson?, hj]

theorem Elements.depth_toJson_le (data : Elements) : data.toJson.depth ≤ 2 := by
  cases data <;> exact (depth_tagged _ _).trans_le
    (Nat.succ_le_succ (depth_list_le fun _ _ => Nat.le_refl 0))

/-- The extents fit a machine word and the floats are finite. -/
structure Tensor.Storable (t : Tensor) : Prop where
  dims : ∀ n ∈ t.dims, n ≤ Text.maxWord
  data : t.data.Storable

theorem Tensor.recovers (hS : S.Faithful) {t : Tensor} (h : t.Storable) :
    S.Recovers Tensor.ofJson? t.toJson t := by
  obtain ⟨jdtype, hdtype, hdtype'⟩ := t.dtype.recovers hS
  obtain ⟨jdims, hdims, hdims'⟩ := recovers_extents hS h.dims
  obtain ⟨jdata, hdata, hdata'⟩ := Elements.recovers hS h.data
  refine ⟨.object [("dtype", jdtype), ("dims", jdims), ("data", jdata)], reread?_fields ?_, ?_⟩
  · simp [rereadFields?, hdtype, hdims, hdata]
  · simp [ofJson?, hdtype', hdims', hdata']

theorem Tensor.depth_toJson_le (t : Tensor) : t.toJson.depth ≤ 3 := by
  have hdims := depth_nats_le t.dims
  have hdata := t.data.depth_toJson_le
  simp only [toJson, depth, fieldsDepth, DType.depth_toJson]
  omega

end HybridGraph
