import Moodist.Foundation.Chunks
import Moodist.Sharding.Defs

/-!
# What the range helpers compute

A list of ranges denotes the list of global positions it visits in local order.
-/

namespace Sharding

open Foundation List

def Range.elems (r : Range) : List ℕ := range' r.offset r.size

def positions (ranges : List Range) : List ℕ := ranges.flatMap Range.elems

@[simp] theorem positions_nil : positions [] = [] := rfl

@[simp] theorem positions_cons (r : Range) (rs : List Range) :
    positions (r :: rs) = r.elems ++ positions rs := by
  simp [positions]

@[simp] theorem positions_append (rs rs' : List Range) :
    positions (rs ++ rs') = positions rs ++ positions rs' := by
  simp [positions]

@[simp] theorem totalSize_cons (r : Range) (rs : List Range) :
    totalSize (r :: rs) = r.size + totalSize rs := by
  simp [totalSize]

theorem length_positions (ranges : List Range) : (positions ranges).length = totalSize ranges := by
  induction ranges with
  | nil => rfl
  | cons r rs ih => simp [ih, Range.elems]

/-! ## Composition is slicing -/

theorem take_range' (start n k : ℕ) :
    (range' start n).take k = range' start (min k n) := by
  rcases le_total n k with h | h
  · rw [take_range'_of_length_le h, min_eq_right h]
  · rw [take_range'_of_length_ge h, min_eq_left h]

theorem positions_composeEmpty (start : ℕ) (rs : List Range) (localPos last : ℕ) :
    positions (composeEmpty start rs localPos last) = [] := by
  induction rs generalizing localPos last with
  | nil => simp [composeEmpty, Range.elems]
  | cons r rs ih =>
    simp only [composeEmpty]
    split
    · simp [Range.elems]
    · exact ih _ _

/-- From local position `localPos` on, the loop yields what lies between `a` and `b`. -/
theorem positions_composeLoop (a b : ℕ) (rs : List Range) (localPos : ℕ) :
    positions (composeLoop a b rs localPos) =
      ((positions rs).drop (a - localPos)).take (b - max a localPos) := by
  induction rs generalizing localPos with
  | nil => simp [composeLoop]
  | cons r rs ih =>
    -- the overlap with the first range, empty or not
    have hhead : positions
        (if max localPos a < min (localPos + r.size) b then
          [⟨r.offset + (max localPos a - localPos), min (localPos + r.size) b - max localPos a⟩]
        else []) =
        (r.elems.drop (a - localPos)).take (b - max a localPos) := by
      have helems : (r.elems.drop (a - localPos)).take (b - max a localPos) =
          range' (r.offset + (max localPos a - localPos))
            (min (localPos + r.size) b - max localPos a) := by
        rw [Range.elems, drop_range', take_range']
        congr 1 <;> omega
      rw [helems]
      split
      · simp [Range.elems]
      · next hno =>
        have hzero : min (localPos + r.size) b - max localPos a = 0 := by omega
        simp [hzero]
    have hlen : r.elems.length = r.size := by simp [Range.elems]
    simp only [composeLoop, positions_cons, drop_append, take_append, hlen, length_drop]
    split
    · next hend =>
      rw [hhead]
      have hzero : b - max a localPos - (r.size - (a - localPos)) = 0 := by omega
      simp [hzero]
    · next hend =>
      have hdrop : a - localPos - r.size = a - (localPos + r.size) := by omega
      have htake : b - max a localPos - (r.size - (a - localPos)) =
          b - max a (localPos + r.size) := by omega
      rw [positions_append, hhead, ih, hdrop, htake]

/-- `composeRanges` slices the local view. -/
theorem positions_composeRanges (existing : List Range) (start size : ℕ) :
    positions (composeRanges existing start size) =
      ((positions existing).drop start).take size := by
  rw [composeRanges]
  split
  · next hzero => rw [positions_composeEmpty, hzero, take_zero]
  · rw [positions_composeLoop]
    simp

theorem composeEmpty_ne_nil (start : ℕ) (rs : List Range) (localPos last : ℕ) :
    composeEmpty start rs localPos last ≠ [] := by
  induction rs generalizing localPos last with
  | nil => simp [composeEmpty]
  | cons r rs ih =>
    simp only [composeEmpty]
    split
    · simp
    · exact ih _ _

/-- A slice that starts inside the local view, or is empty, has at least one range. -/
theorem composeRanges_ne_nil {existing : List Range} {start size : ℕ}
    (h : size ≠ 0 → start < totalSize existing) : composeRanges existing start size ≠ [] := by
  by_cases hsize : size = 0
  · rw [composeRanges, if_pos hsize]
    exact composeEmpty_ne_nil _ _ _ _
  · intro hnil
    have hlen := congrArg length (positions_composeRanges existing start size)
    rw [hnil, length_take, length_drop, length_positions, length_positions] at hlen
    have hlt := h hsize
    have hzero : totalSize [] = 0 := rfl
    omega

/-! ## Shards are parts of the local view -/

theorem ceilDiv_pos {n d : ℕ} (hn : 0 < n) (hd : 0 < d) : 0 < (n + d - 1) / d :=
  Nat.div_pos (by omega) hd

theorem le_mul_ceilDiv (n : ℕ) {d : ℕ} (hd : 0 < d) : n ≤ d * ((n + d - 1) / d) := by
  have h := Nat.lt_mul_div_succ (n + d - 1) hd
  have hr : d * ((n + d - 1) / d + 1) = d * ((n + d - 1) / d) + d := by ring
  omega

theorem take_min_drop (l : List ℕ) (k o : ℕ) :
    (l.drop o).take (min k (l.length - o)) = (l.drop o).take k := by
  rw [← length_drop, take_eq_take_iff]
  omega

variable {current : List Range} {groupSize : ℕ}

theorem applyShard_spec (hg : 0 < groupSize) (idx : ℕ) :
    ∃ ranges, applyShard current groupSize idx = .ok ranges ∧ ranges ≠ [] ∧
      positions ranges = chunk (positions current)
        ((totalSize current + groupSize - 1) / groupSize) idx := by
  have hinside : ∀ k o : ℕ, min k (totalSize current - min o (totalSize current)) ≠ 0 →
      min o (totalSize current) < totalSize current := by
    intro k o h
    omega
  refine ⟨_, by simp [applyShard, regularShardRanges, Nat.pos_iff_ne_zero.mp hg]; rfl,
    composeRanges_ne_nil (hinside _ _), ?_⟩
  rw [positions_composeRanges, chunk, ← length_positions]
  set k := ((positions current).length + groupSize - 1) / groupSize
  rw [take_min_drop, Nat.mul_comm k idx]
  rcases le_total (idx * k) (positions current).length with hle | hge
  · rw [min_eq_left hle]
  · rw [min_eq_right hge, drop_length, drop_eq_nil_of_le hge]

theorem stridedLoop_eq (dimSize chunkSize numChunks groupSize fuel idx : ℕ) :
    stridedLoop dimSize chunkSize numChunks groupSize fuel idx =
      (everyNth numChunks groupSize fuel idx).map fun c =>
        ⟨c * chunkSize, min chunkSize (dimSize - c * chunkSize)⟩ := by
  induction fuel generalizing idx with
  | zero => rfl
  | succ fuel ih =>
    simp only [stridedLoop, everyNth]
    split <;> simp [ih]

def stridedChunkSize (total splitFactor groupSize : ℕ) : ℕ :=
  (total + splitFactor * groupSize - 1) / (splitFactor * groupSize)

def stridedNumChunks (total splitFactor groupSize : ℕ) : ℕ :=
  (total + stridedChunkSize total splitFactor groupSize - 1) /
    stridedChunkSize total splitFactor groupSize

variable {splitFactor : ℕ}

theorem stridedShardRanges_eq {total : ℕ} (hv : splitFactor * groupSize ≠ 0)
    (hk : stridedChunkSize total splitFactor groupSize ≠ 0) (idx : ℕ) :
    stridedShardRanges total splitFactor groupSize idx =
      .ok (if stridedLoop total (stridedChunkSize total splitFactor groupSize)
            (stridedNumChunks total splitFactor groupSize) groupSize
            (stridedNumChunks total splitFactor groupSize) idx = [] then [⟨total, 0⟩]
        else stridedLoop total (stridedChunkSize total splitFactor groupSize)
            (stridedNumChunks total splitFactor groupSize) groupSize
            (stridedNumChunks total splitFactor groupSize) idx) := by
  rw [stridedShardRanges]
  refine (if_neg hv).trans ((if_neg hk).trans ?_)
  rw [stridedNumChunks, stridedChunkSize]
  dsimp only
  split
  next h => rw [if_pos h]
  next h => rw [if_neg h]

/-- The strided shard of a non-empty dimension is every `groupSize`-th chunk. -/
theorem applyStrided_spec (hs : 0 < splitFactor) (hg : 0 < groupSize)
    (hpos : 0 < totalSize current) (idx : ℕ) :
    ∃ ranges, applyStrided current splitFactor groupSize idx = .ok ranges ∧ ranges ≠ [] ∧
      positions ranges =
        (everyNth (stridedNumChunks (totalSize current) splitFactor groupSize) groupSize
          (stridedNumChunks (totalSize current) splitFactor groupSize) idx).flatMap
          (chunk (positions current)
            (stridedChunkSize (totalSize current) splitFactor groupSize)) := by
  have hv : splitFactor * groupSize ≠ 0 := Nat.mul_ne_zero (by omega) (by omega)
  have hk : stridedChunkSize (totalSize current) splitFactor groupSize ≠ 0 :=
    Nat.pos_iff_ne_zero.mp (ceilDiv_pos hpos (Nat.pos_of_ne_zero hv))
  set k := stridedChunkSize (totalSize current) splitFactor groupSize with hkdef
  set num := stridedNumChunks (totalSize current) splitFactor groupSize with hnum
  -- each strided range maps to its chunk of the local view
  have hmap : ∀ cs : List ℕ,
      positions ((cs.map fun c => (⟨c * k, min k (totalSize current - c * k)⟩ : Range)).flatMap
        fun r => composeRanges current r.offset r.size) =
      cs.flatMap (chunk (positions current) k) := by
    intro cs
    induction cs with
    | nil => rfl
    | cons c cs ih =>
      rw [map_cons, flatMap_cons, positions_append, ih, flatMap_cons,
        positions_composeRanges, ← length_positions, take_min_drop, chunk]
  have hloop := stridedLoop_eq (totalSize current) k num groupSize num idx
  have hresult := stridedShardRanges_eq hv hk idx
  cases hcs : everyNth num groupSize num idx with
  | nil =>
    rw [hcs] at hloop
    rw [hloop] at hresult
    refine ⟨_, by rw [applyStrided, hresult]; rfl, ?_, ?_⟩
    · simp [composeRanges_ne_nil]
    · simp [positions_composeRanges]
  | cons c cs =>
    rw [hcs] at hloop
    rw [hloop] at hresult
    refine ⟨_, by rw [applyStrided, hresult]; rfl, ?_, hmap (c :: cs)⟩
    have hhead : composeRanges current (c * k) (min k (totalSize current - c * k)) ≠ [] :=
      composeRanges_ne_nil (by omega)
    simp [hhead]

theorem splitsInto_applyShard (hg : 0 < groupSize) (hpos : 0 < totalSize current) :
    SplitsInto (positions current) groupSize
      (chunk (positions current) ((totalSize current + groupSize - 1) / groupSize)) := by
  refine splitsInto_chunk (ceilDiv_pos hpos hg) ?_
  rw [length_positions, Nat.mul_comm]
  exact le_mul_ceilDiv _ hg

theorem splitsInto_applyStrided (hs : 0 < splitFactor) (hg : 0 < groupSize)
    (hpos : 0 < totalSize current) : SplitsInto (positions current) groupSize fun idx =>
      (everyNth (stridedNumChunks (totalSize current) splitFactor groupSize) groupSize
        (stridedNumChunks (totalSize current) splitFactor groupSize) idx).flatMap
        (chunk (positions current)
          (stridedChunkSize (totalSize current) splitFactor groupSize)) := by
  have hk : 0 < stridedChunkSize (totalSize current) splitFactor groupSize :=
    ceilDiv_pos hpos (Nat.mul_pos hs hg)
  refine splitsInto_everyNth hk hg ?_ le_rfl
  rw [length_positions, Nat.mul_comm]
  exact le_mul_ceilDiv _ hk

end Sharding
