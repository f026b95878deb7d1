import Moodist.Foundation.Slices

/-!
# The pieces of a broadcast

The arithmetic of `WorkBroadcastRingCpu` of `core/cputhread.cc`: a tensor is cut into chunks, and
each chunk into a piece for every device. Sums and products of sizes are taken not to overflow.
-/

namespace Broadcast

open Foundation

def numChunks : ℕ := 8

def chunkSize (bytes : ℕ) : ℕ :=
  if bytes < 65536 * 96 then bytes else max ((bytes + numChunks - 1) / numChunks) (65536 * 72)

/-- `none` is a division by zero. -/
def numParallel (bytes : ℕ) : Option ℕ :=
  if chunkSize bytes = 0 then
    none
  else
    some (max (min ((bytes + chunkSize bytes - 1) / chunkSize bytes / 2) 2) 1)

def currentChunkSize (bytes chunkIndex : ℕ) : ℕ :=
  min (chunkSize bytes) (bytes - chunkSize bytes * chunkIndex)

def isLastChunk (bytes chunkIndex : ℕ) : Bool :=
  chunkSize bytes * chunkIndex + currentChunkSize bytes chunkIndex = bytes

/-- The number of chunks that a device goes through from `chunkIndex` on, if at most `fuel` of them
are allowed. `none` is a failed check. -/
def visitFrom (bytes : ℕ) : ℕ → ℕ → Option ℕ
  | 0, _ => none
  | fuel + 1, chunkIndex =>
    if isLastChunk bytes chunkIndex then
      some (chunkIndex + 1)
    else
      visitFrom bytes fuel (chunkIndex + 1)

def visited (bytes : ℕ) : Option ℕ := visitFrom bytes numChunks 0

def devChunkSize (bytes devices chunkIndex : ℕ) : ℕ :=
  currentChunkSize bytes chunkIndex / devices / 1024 * 1024

def pieceSize (bytes devices di chunkIndex : ℕ) : ℕ :=
  if di = devices - 1 then
    currentChunkSize bytes chunkIndex - devChunkSize bytes devices chunkIndex * di
  else
    devChunkSize bytes devices chunkIndex

def sendOffset (bytes devices di chunkIndex : ℕ) : ℕ :=
  chunkSize bytes * chunkIndex + devChunkSize bytes devices chunkIndex * di

def InPiece (bytes devices di chunkIndex j : ℕ) : Prop :=
  sendOffset bytes devices di chunkIndex ≤ j ∧
    j < sendOffset bytes devices di chunkIndex + pieceSize bytes devices di chunkIndex

/-! ## Chunks -/

variable {bytes devices di di' c c' j : ℕ}

theorem chunkSize_eq_zero : chunkSize bytes = 0 ↔ bytes = 0 := by
  unfold chunkSize
  split_ifs <;> omega

theorem numParallel_isSome : (numParallel bytes).isSome ↔ 0 < bytes := by
  unfold numParallel
  split_ifs with h
  · simpa using chunkSize_eq_zero.1 h
  · simpa [Nat.pos_iff_ne_zero] using fun hzero => h (chunkSize_eq_zero.2 hzero)

theorem chunkSize_pos (h : 0 < bytes) : 0 < chunkSize bytes :=
  Nat.pos_of_ne_zero fun hzero => h.ne' (chunkSize_eq_zero.1 hzero)

theorem le_numChunks_mul : bytes ≤ chunkSize bytes * numChunks := by
  unfold chunkSize numChunks
  split_ifs
  · omega
  · have hle := le_max_left ((bytes + 8 - 1) / 8) (65536 * 72)
    omega

theorem isLastChunk_iff (h : chunkSize bytes * c < bytes) :
    isLastChunk bytes c = true ↔ bytes ≤ chunkSize bytes * (c + 1) := by
  rw [isLastChunk, decide_eq_true_iff, currentChunkSize, Nat.mul_succ]
  omega

/-- The chunks cover the tensor, and each has a part in it. -/
structure Chunks (bytes m : ℕ) : Prop where
  pos : 0 < m
  le : m ≤ numChunks
  lt_of_lt : ∀ c < m, chunkSize bytes * c < bytes
  cover : bytes ≤ chunkSize bytes * m

theorem exists_visitFrom (fuel : ℕ) (hc : ∀ c' ≤ c, chunkSize bytes * c' < bytes)
    (hfuel : bytes ≤ chunkSize bytes * (c + fuel)) :
    ∃ m, visitFrom bytes fuel c = some m ∧ m ≤ c + fuel ∧ 0 < m ∧
      (∀ c < m, chunkSize bytes * c < bytes) ∧ bytes ≤ chunkSize bytes * m := by
  induction fuel generalizing c with
  | zero => exact absurd (hc c le_rfl) (not_lt.mpr hfuel)
  | succ fuel ih =>
    rw [visitFrom]
    by_cases hlast : isLastChunk bytes c = true
    · rw [if_pos hlast]
      refine ⟨c + 1, rfl, by omega, by omega, fun c' hc' => hc c' (by omega), ?_⟩
      exact (isLastChunk_iff (hc c le_rfl)).mp hlast
    · rw [if_neg hlast]
      have hnext : chunkSize bytes * (c + 1) < bytes :=
        not_le.mp fun hle => hlast ((isLastChunk_iff (hc c le_rfl)).mpr hle)
      have hall : ∀ c' ≤ c + 1, chunkSize bytes * c' < bytes := by
        intro c' hc'
        exact (Nat.mul_le_mul_left _ hc').trans_lt hnext
      obtain ⟨m, hm, hle, hrest⟩ := ih hall (by rwa [Nat.add_right_comm, Nat.add_assoc])
      exact ⟨m, hm, by omega, hrest⟩

theorem exists_visited (h : 0 < bytes) : ∃ m, visited bytes = some m ∧ Chunks bytes m := by
  have hzero : ∀ c' ≤ 0, chunkSize bytes * c' < bytes := by
    intro c' hc'
    rw [Nat.le_zero.mp hc', Nat.mul_zero]
    exact h
  obtain ⟨m, hm, hle, hpos, hlt, hcover⟩ :=
    exists_visitFrom numChunks hzero (by rw [Nat.zero_add]; exact le_numChunks_mul)
  exact ⟨m, hm, hpos, by omega, hlt, hcover⟩

/-! ## Pieces -/

theorem devChunkSize_mul_le (bytes devices c : ℕ) :
    devChunkSize bytes devices c * devices ≤ currentChunkSize bytes c := by
  calc devChunkSize bytes devices c * devices
      ≤ currentChunkSize bytes c / devices * devices :=
        Nat.mul_le_mul_right _ (Nat.div_mul_le_self _ _)
    _ ≤ currentChunkSize bytes c := Nat.div_mul_le_self _ _

theorem devChunkSize_mul_le_of_le (hdi : di ≤ devices) :
    devChunkSize bytes devices c * di ≤ currentChunkSize bytes c :=
  (Nat.mul_le_mul_left _ hdi).trans (devChunkSize_mul_le bytes devices c)

theorem offset_add_pieceSize (bytes c : ℕ) (hdi : di < devices) :
    devChunkSize bytes devices c * di + pieceSize bytes devices di c =
      if di + 1 = devices then currentChunkSize bytes c
      else devChunkSize bytes devices c * (di + 1) :=
  mul_add_sliceSize (devChunkSize_mul_le bytes devices c) hdi

/-- The pieces of a chunk are its slices. -/
theorem inPiece_iff : InPiece bytes devices di c j ↔ chunkSize bytes * c ≤ j ∧
    InSlice (currentChunkSize bytes c) (devChunkSize bytes devices c) devices di
      (j - chunkSize bytes * c) := by
  change _ ↔ _ ∧ _ ∧ _ < _ + pieceSize bytes devices di c
  unfold InPiece sendOffset
  omega

variable (h : InPiece bytes devices di c j) (hdi : di < devices)

include h hdi

theorem InPiece.bounds :
    chunkSize bytes * c ≤ j ∧ j < chunkSize bytes * c + currentChunkSize bytes c := by
  obtain ⟨hle, hlt⟩ := h
  have hend := offset_add_pieceSize bytes c hdi
  have hmul : devChunkSize bytes devices c * (di + 1) ≤ currentChunkSize bytes c :=
    devChunkSize_mul_le_of_le hdi
  unfold sendOffset at hle hlt
  split_ifs at hend <;> omega

theorem InPiece.lt_bytes : j < bytes := by
  have hbounds := h.bounds hdi
  unfold currentChunkSize at hbounds
  omega

omit h hdi

theorem chunk_unique (h : chunkSize bytes * c ≤ j)
    (h' : j < chunkSize bytes * c' + currentChunkSize bytes c') : c ≤ c' := by
  by_contra hlt
  have hmul : chunkSize bytes * (c' + 1) ≤ chunkSize bytes * c :=
    Nat.mul_le_mul_left _ (not_le.mp hlt)
  rw [Nat.mul_succ] at hmul
  unfold currentChunkSize at h'
  omega

theorem InPiece.unique (h : InPiece bytes devices di c j) (h' : InPiece bytes devices di' c' j)
    (hdi : di < devices) (hdi' : di' < devices) : di = di' ∧ c = c' := by
  obtain ⟨hlo, hhi⟩ := h.bounds hdi
  obtain ⟨hlo', hhi'⟩ := h'.bounds hdi'
  obtain rfl : c = c' := le_antisymm (chunk_unique hlo hhi') (chunk_unique hlo' hhi)
  have hslice := (inPiece_iff.1 h).2
  exact ⟨hslice.unique (devChunkSize_mul_le bytes devices c) (inPiece_iff.1 h').2 hdi hdi', rfl⟩

/-- Every byte is in a piece. -/
theorem exists_inPiece {m : ℕ} (hm : Chunks bytes m) (hdevices : 0 < devices) (hj : j < bytes) :
    ∃ di < devices, ∃ c < m, InPiece bytes devices di c j := by
  have hpos : 0 < chunkSize bytes := chunkSize_pos (by omega)
  have hc : j / chunkSize bytes < m := by
    rw [Nat.div_lt_iff_lt_mul hpos, Nat.mul_comm]
    exact hj.trans_le hm.cover
  have hlow : chunkSize bytes * (j / chunkSize bytes) ≤ j := Nat.mul_div_le _ _
  have hhigh : j < chunkSize bytes * (j / chunkSize bytes + 1) := Nat.lt_mul_div_succ j hpos
  rw [Nat.mul_succ] at hhigh
  have hcur : j - chunkSize bytes * (j / chunkSize bytes) <
      currentChunkSize bytes (j / chunkSize bytes) := by
    unfold currentChunkSize
    omega
  obtain ⟨di, hdi, hslice⟩ := exists_inSlice (devChunkSize_mul_le _ _ _) hdevices hcur
  exact ⟨di, hdi, j / chunkSize bytes, hc, inPiece_iff.2 ⟨hlow, hslice⟩⟩

theorem pieceSize_last_pos (hdevices : 0 < devices) (hc : chunkSize bytes * c < bytes) :
    0 < pieceSize bytes devices (devices - 1) c := by
  have hpos : 0 < chunkSize bytes := chunkSize_pos (by omega)
  have hcur : 0 < currentChunkSize bytes c := by
    unfold currentChunkSize
    omega
  have hmul := devChunkSize_mul_le bytes devices c
  have hend := offset_add_pieceSize bytes c (Nat.sub_one_lt_of_lt hdevices)
  rw [if_pos (by omega)] at hend
  obtain hzero | hdev := Nat.eq_zero_or_pos (devChunkSize bytes devices c)
  · rw [hzero, Nat.zero_mul, Nat.zero_add] at hend
    omega
  · have hlt : devChunkSize bytes devices c * (devices - 1) <
        devChunkSize bytes devices c * devices :=
      Nat.mul_lt_mul_of_pos_left (by omega) hdev
    omega

end Broadcast
