import Mathlib

/-!
# Splitting a transfer

Model of `readData`, `writeData`, `readDataDistributed` and `writeDataDistributed`, and of the
reference count of a callback. A transfer is split over the devices, and the part of a device into
pieces that one operation can carry. All operations of a transfer share a callback, which runs when
the last reference to it is gone.
-/

namespace CpuThread.Transfers

open List

/-- An operation that is posted to a device. -/
structure Post where
  device : ℕ
  localAddress : ℕ
  remoteAddress : ℕ
  bytes : ℕ
  deriving DecidableEq, Repr

/-! ## Splitting -/

def threshold : ℕ := 1024 * 1024 * 896

def chunkSize : ℕ := 1024 * 1024 * 768

/-- The loop of `readData` and `writeData`. -/
def split (device localAddress remoteAddress remaining : ℕ) : List Post :=
  if remaining = 0 then
    []
  else
    let bytes := if remaining < threshold then remaining else chunkSize
    ⟨device, localAddress, remoteAddress, bytes⟩ ::
      split device (localAddress + bytes) (remoteAddress + bytes) (remaining - bytes)
termination_by remaining
decreasing_by
  have hchunk : 0 < chunkSize := by decide
  split_ifs <;> omega

def readData (device localAddress remoteAddress bytes : ℕ) : List Post :=
  if threshold ≤ bytes then split device localAddress remoteAddress bytes
  else [⟨device, localAddress, remoteAddress, bytes⟩]

def writeData (device localAddress remoteAddress bytes : ℕ) : List Post :=
  readData device localAddress remoteAddress bytes

/-- The loop of `readDataDistributed` over the devices, of which some are left. -/
def readFrom (localAddress remoteAddress bytes chunkSize : ℕ) : ℕ → ℕ → List Post
  | 0, _ => []
  | left + 1, di =>
    let offset := chunkSize * di % 2 ^ 64
    let n := min ((bytes + 2 ^ 64 - offset) % 2 ^ 64) chunkSize
    readData di (localAddress + offset) (remoteAddress + offset) n ++
      if (offset + n) % 2 ^ 64 = bytes then []
      else readFrom localAddress remoteAddress bytes chunkSize left (di + 1)

/-- The operations, with the arithmetic of `size_t`. It is `none` if the code divides by zero. -/
def readDataDistributed (devices numTrueIbDevs localAddress remoteAddress bytes : ℕ) :
    Option (List Post) :=
  let numChunks := min (min ((bytes + 262143) % 2 ^ 64 / 262144) (max 4 numTrueIbDevs)) devices
  if numChunks = 0 then
    none
  else
    let chunkSize :=
      ((bytes + numChunks - 1) % 2 ^ 64 / numChunks + 4095) % 2 ^ 64 / 4096 * 4096
    some (readFrom localAddress remoteAddress bytes chunkSize devices 0)

/-- The loop of `writeDataDistributed`. -/
def writeFrom (localAddress remoteAddress bytes chunkSize : ℕ) : ℕ → ℕ → ℕ → List Post
  | 0, _, _ => []
  | left + 1, i, offset =>
    let n := if left = 0 then bytes - offset else chunkSize
    (if n ≠ 0 then writeData i (localAddress + offset) (remoteAddress + offset) n else []) ++
      writeFrom localAddress remoteAddress bytes chunkSize left (i + 1) (offset + n)

def writeDataDistributed (devices localAddress remoteAddress bytes : ℕ) : List Post :=
  writeFrom localAddress remoteAddress bytes (bytes / devices / 128 * 128) devices 0 0

/-! ## The callback -/

/-- The references to a callback, and how often `onComplete` has run. -/
structure RdmaCallback where
  refcount : ℕ
  completed : ℕ
  deriving DecidableEq, Repr

inductive CallbackEvent where
  /-- An operation is posted with the callback. -/
  | post
  /-- An operation is done. -/
  | complete
  /-- The `RdmaCallbackWrapper` of the caller goes away. -/
  | release
  deriving DecidableEq, Repr

namespace RdmaCallback

def decref (callback : RdmaCallback) : Option RdmaCallback :=
  if 1 ≤ callback.refcount then
    some ⟨callback.refcount - 1,
      if callback.refcount - 1 = 0 then callback.completed + 1 else callback.completed⟩
  else none

def step (callback : RdmaCallback) : CallbackEvent → Option RdmaCallback
  | .post => some { callback with refcount := callback.refcount + 1 }
  | .complete => callback.decref
  | .release =>
    if 1 < callback.refcount then some { callback with refcount := callback.refcount - 1 }
    else callback.decref

end RdmaCallback

/-- The events of a transfer: an operation is done after it has been posted, and the caller lets go
of the callback after the last post. -/
structure Transfer (posts : List Post) (events : List CallbackEvent) : Prop where
  posts_eq : events.count .post = posts.length
  complete_eq : events.count .complete = posts.length
  release_eq : events.count .release = 1
  complete_le : ∀ k, (events.take k).count .complete ≤ (events.take k).count .post
  release_last : ∀ k, .release ∈ events.take k → (events.take k).count .post = posts.length

/-- `onComplete` runs once, and it does so in the last event. -/
def CompletesLast (events : List CallbackEvent) : Prop :=
  ∀ k ≤ events.length, ∃ refcount, (events.take k).foldlM RdmaCallback.step ⟨1, 0⟩ =
    some ⟨refcount, if k = events.length then 1 else 0⟩

/-- The operations cover every byte once, at the same offset on both sides. -/
structure Exact (localAddress remoteAddress bytes : ℕ) (posts : List Post) : Prop where
  inside : ∀ post ∈ posts, 0 < post.bytes ∧ ∃ offset, post.localAddress = localAddress + offset ∧
    post.remoteAddress = remoteAddress + offset ∧ offset + post.bytes ≤ bytes
  once : ∀ x < bytes, posts.countP (fun post => decide (post.localAddress ≤ localAddress + x ∧
    localAddress + x < post.localAddress + post.bytes)) = 1

/-! ## Consecutive operations -/

def Follows (localAddress remoteAddress stop : ℕ) : ℕ → List Post → Prop
  | offset, [] => offset = stop
  | offset, post :: posts => 0 < post.bytes ∧ post.localAddress = localAddress + offset ∧
    post.remoteAddress = remoteAddress + offset ∧
      Follows localAddress remoteAddress stop (offset + post.bytes) posts

variable {localAddress remoteAddress start middle stop offset bytes devices : ℕ}
  {posts posts' : List Post} {events : List CallbackEvent}

namespace Follows

theorem append (h : Follows localAddress remoteAddress middle start posts)
    (h' : Follows localAddress remoteAddress stop middle posts') :
    Follows localAddress remoteAddress stop start (posts ++ posts') := by
  induction posts generalizing start with
  | nil =>
    obtain rfl : start = middle := h
    exact h'
  | cons post posts ih =>
    obtain ⟨hpos, hlocal, hremote, hrest⟩ := h
    exact ⟨hpos, hlocal, hremote, ih hrest⟩

theorem inside (h : Follows localAddress remoteAddress stop start posts) :
    start ≤ stop ∧ ∀ post ∈ posts, 0 < post.bytes ∧ ∃ offset, start ≤ offset ∧
      post.localAddress = localAddress + offset ∧ post.remoteAddress = remoteAddress + offset ∧
        offset + post.bytes ≤ stop := by
  induction posts generalizing start with
  | nil => exact ⟨le_of_eq h, fun post hpost => absurd hpost not_mem_nil⟩
  | cons post posts ih =>
    obtain ⟨hpos, hlocal, hremote, hrest⟩ := h
    obtain ⟨hle, hposts⟩ := ih hrest
    refine ⟨by omega, fun post' hpost' => ?_⟩
    rcases mem_cons.mp hpost' with rfl | hmem
    · exact ⟨hpos, start, le_rfl, hlocal, hremote, hle⟩
    · obtain ⟨hpos', offset, hoffset, hspec⟩ := hposts post' hmem
      exact ⟨hpos', offset, by omega, hspec⟩

theorem countP_eq (h : Follows localAddress remoteAddress stop start posts) {x : ℕ} :
    posts.countP (fun post => decide (post.localAddress ≤ localAddress + x ∧
      localAddress + x < post.localAddress + post.bytes)) =
        if start ≤ x ∧ x < stop then 1 else 0 := by
  induction posts generalizing start with
  | nil =>
    obtain rfl : start = stop := h
    rw [if_neg (by omega), countP_nil]
  | cons post posts ih =>
    obtain ⟨hpos, hlocal, -, hrest⟩ := h
    have hle := hrest.inside.1
    rw [countP_cons, ih hrest, hlocal]
    simp only [decide_eq_true_eq]
    split_ifs <;> omega

theorem exact (h : Follows localAddress remoteAddress bytes 0 posts) :
    Exact localAddress remoteAddress bytes posts where
  inside post hpost := by
    obtain ⟨hpos, offset, -, hspec⟩ := h.inside.2 post hpost
    exact ⟨hpos, offset, hspec⟩
  once x hx := by rw [h.countP_eq, if_pos ⟨Nat.zero_le x, hx⟩]

end Follows

theorem follows_split (device : ℕ) {remaining : ℕ} (h : offset + remaining = stop) :
    Follows localAddress remoteAddress stop offset
      (split device (localAddress + offset) (remoteAddress + offset) remaining) := by
  induction remaining using Nat.strong_induction_on generalizing offset with
  | _ remaining ih =>
    rw [split]
    by_cases hzero : remaining = 0
    · rw [if_pos hzero]
      exact (by omega : offset = stop)
    · have hchunk : 0 < chunkSize := by decide
      have hle : chunkSize ≤ threshold := by decide
      rw [if_neg hzero]
      obtain ⟨n, hn, hpos, hlt⟩ : ∃ n,
          (if remaining < threshold then remaining else chunkSize) = n ∧
          0 < n ∧ n ≤ remaining := ⟨_, rfl, by split_ifs <;> omega, by split_ifs <;> omega⟩
      simp only [hn]
      refine ⟨hpos, rfl, rfl, ?_⟩
      rw [Nat.add_assoc, Nat.add_assoc]
      exact ih (remaining - n) (by omega) (by dsimp only; omega)

theorem follows_readData (device : ℕ) (hpos : 0 < bytes) (h : offset + bytes = stop) :
    Follows localAddress remoteAddress stop offset
      (readData device (localAddress + offset) (remoteAddress + offset) bytes) := by
  unfold readData
  split_ifs
  · exact follows_split device h
  · exact ⟨hpos, rfl, rfl, h⟩

theorem follows_readFrom {chunkSize left di : ℕ} (hbytes : bytes < 2 ^ 64)
    (hdi : chunkSize * di < bytes) (hleft : bytes ≤ chunkSize * (di + left)) :
    Follows localAddress remoteAddress bytes (chunkSize * di)
      (readFrom localAddress remoteAddress bytes chunkSize left di) := by
  induction left generalizing di with
  | zero => exact absurd hleft (not_le.mpr hdi)
  | succ left ih =>
    have hsucc : chunkSize * (di + 1) = chunkSize * di + chunkSize := Nat.mul_succ _ _
    have hpos : 0 < chunkSize := by
      by_contra hzero
      obtain rfl : chunkSize = 0 := by omega
      simp at hleft
      omega
    have hoffset : chunkSize * di % 2 ^ 64 = chunkSize * di := Nat.mod_eq_of_lt (by omega)
    have hrest : (bytes + 2 ^ 64 - chunkSize * di) % 2 ^ 64 = bytes - chunkSize * di := by
      rw [show bytes + 2 ^ 64 - chunkSize * di = bytes - chunkSize * di + 2 ^ 64 by omega,
        Nat.add_mod_right, Nat.mod_eq_of_lt (by omega)]
    obtain ⟨n, hn⟩ : ∃ n, min (bytes - chunkSize * di) chunkSize = n := ⟨_, rfl⟩
    have hend : (chunkSize * di + n) % 2 ^ 64 = chunkSize * di + n := Nat.mod_eq_of_lt (by omega)
    simp only [readFrom, hoffset, hrest, hn, hend]
    by_cases hlast : chunkSize * di + n = bytes
    · rw [if_pos hlast, append_nil]
      exact follows_readData di (by omega) hlast
    · rw [if_neg hlast]
      refine (follows_readData di (by omega) rfl).append ?_
      rw [show chunkSize * di + n = chunkSize * (di + 1) by omega]
      refine ih (by omega) ?_
      rwa [Nat.add_assoc, Nat.add_comm 1]

theorem le_mul_chunks {numChunks : ℕ} (hpos : 0 < numChunks) (hle : numChunks ≤ devices) :
    bytes ≤ ((bytes + numChunks - 1) / numChunks + 4095) / 4096 * 4096 * devices := by
  have hround : ∀ n, n ≤ (n + 4095) / 4096 * 4096 := by omega
  have hceil : bytes ≤ (bytes + numChunks - 1) / numChunks * numChunks := by
    have hlt : bytes + numChunks - 1 <
        (bytes + numChunks - 1) / numChunks * numChunks + numChunks :=
      Nat.lt_div_mul_add hpos
    omega
  refine hceil.trans (Nat.mul_le_mul (hround _) hle)

theorem follows_readDataDistributed (numTrueIbDevs : ℕ) (hpos : 0 < bytes) (hdevices : 0 < devices)
    (hbytes : bytes + 262143 < 2 ^ 64) (hwrap : bytes + devices - 1 < 2 ^ 64) :
    ∃ posts, readDataDistributed devices numTrueIbDevs localAddress remoteAddress bytes =
      some posts ∧ Follows localAddress remoteAddress bytes 0 posts := by
  obtain ⟨numChunks, hnum⟩ : ∃ numChunks,
      min (min ((bytes + 262143) % 2 ^ 64 / 262144) (max 4 numTrueIbDevs)) devices = numChunks :=
    ⟨_, rfl⟩
  have hchunks : 0 < numChunks := by omega
  have hle : numChunks ≤ devices := by omega
  have hdiv : (bytes + numChunks - 1) / numChunks ≤ bytes := by
    refine Nat.div_le_of_le_mul ?_
    have hmul : numChunks + bytes ≤ numChunks * bytes + 1 := by nlinarith
    omega
  have hsum : (bytes + numChunks - 1) % 2 ^ 64 = bytes + numChunks - 1 :=
    Nat.mod_eq_of_lt (by omega)
  have hround : ((bytes + numChunks - 1) / numChunks + 4095) % 2 ^ 64 =
      (bytes + numChunks - 1) / numChunks + 4095 := Nat.mod_eq_of_lt (by omega)
  obtain ⟨size, hsize⟩ : ∃ size,
      ((bytes + numChunks - 1) / numChunks + 4095) / 4096 * 4096 = size := ⟨_, rfl⟩
  have hcover : bytes ≤ size * (0 + devices) := by
    rw [Nat.zero_add, ← hsize]
    exact le_mul_chunks hchunks hle
  have hfollows : Follows localAddress remoteAddress bytes (size * 0)
      (readFrom localAddress remoteAddress bytes size devices 0) :=
    follows_readFrom (by omega) hpos hcover
  simp only [readDataDistributed, hnum, if_neg hchunks.ne', hsum, hround, hsize]
  exact ⟨_, rfl, hfollows⟩

theorem follows_part (i : ℕ) {n : ℕ} :
    Follows localAddress remoteAddress (offset + n) offset
      (if n ≠ 0 then writeData i (localAddress + offset) (remoteAddress + offset) n else []) := by
  split_ifs with hn
  · exact follows_readData i (Nat.pos_of_ne_zero hn) rfl
  · obtain rfl : n = 0 := not_not.mp hn
    exact (Nat.add_zero offset).symm

theorem follows_writeFrom {chunkSize left i : ℕ} (hle : offset + chunkSize * (left + 1) ≤ bytes) :
    Follows localAddress remoteAddress bytes offset
      (writeFrom localAddress remoteAddress bytes chunkSize (left + 1) i offset) := by
  induction left generalizing i offset with
  | zero =>
    have hend : offset + (bytes - offset) = bytes := by omega
    have hpart : Follows localAddress remoteAddress (offset + (bytes - offset)) offset _ :=
      follows_part i
    simp only [writeFrom, if_pos, append_nil]
    rwa [hend] at hpart
  | succ left ih =>
    rw [writeFrom, if_neg (Nat.succ_ne_zero left)]
    refine (follows_part i).append (ih ?_)
    rw [Nat.mul_succ] at hle
    omega

theorem follows_writeDataDistributed (hdevices : 0 < devices) :
    Follows localAddress remoteAddress bytes 0
      (writeDataDistributed devices localAddress remoteAddress bytes) := by
  obtain ⟨left, rfl⟩ := Nat.exists_eq_succ_of_ne_zero hdevices.ne'
  rw [Nat.succ_eq_add_one]
  refine follows_writeFrom ?_
  have hround : bytes / (left + 1) / 128 * 128 ≤ bytes / (left + 1) := Nat.div_mul_le_self _ _
  have hmul := (Nat.mul_le_mul_right (left + 1) hround).trans (Nat.div_mul_le_self bytes (left + 1))
  omega

/-! ## The reference count -/

def references (events : List CallbackEvent) : ℕ :=
  1 + events.count .post - events.count .complete - events.count .release

theorem length_eq_counts (events : List CallbackEvent) :
    events.length = events.count .post + events.count .complete + events.count .release := by
  induction events with
  | nil => rfl
  | cons event events ih => cases event <;> simp [ih] <;> omega

namespace Transfer

variable (h : Transfer posts events)

include h

theorem references_eq_zero_iff {k : ℕ} (hk : k ≤ events.length) :
    references (events.take k) = 0 ↔ k = events.length := by
  have hlength := length_eq_counts (events.take k)
  have hall := length_eq_counts events
  have hcomplete := h.complete_le k
  have hrelease : (events.take k).count .release ≤ events.count .release :=
    (take_sublist k events).count_le _
  have hlast : 0 < (events.take k).count .release →
      (events.take k).count .post = posts.length := fun hpos =>
    h.release_last k (count_pos_iff.mp hpos)
  rw [length_take, min_eq_left hk] at hlength
  rw [h.posts_eq, h.complete_eq, h.release_eq] at hall
  rw [h.release_eq] at hrelease
  constructor
  · intro hzero
    unfold references at hzero
    omega
  · intro heq
    rw [heq, take_length, references, h.posts_eq, h.complete_eq, h.release_eq]
    omega

/-- One event takes away the reference that it should, and the callback runs with the last one. -/
theorem step {k : ℕ} (hk : k < events.length) :
    (RdmaCallback.mk (references (events.take k)) 0).step events[k] =
      some ⟨references (events.take (k + 1)), if k + 1 = events.length then 1 else 0⟩ := by
  have hnow : references (events.take k) ≠ 0 := fun hzero =>
    hk.ne ((h.references_eq_zero_iff hk.le).mp hzero)
  have hnext : references (events.take (k + 1)) = 0 ↔ k + 1 = events.length :=
    h.references_eq_zero_iff hk
  have htake : events.take (k + 1) = events.take k ++ [events[k]] := by
    rw [take_add_one, List.getElem?_eq_getElem hk]
    rfl
  have hcomplete := h.complete_le (k + 1)
  simp only [← hnext]
  unfold references at hnow ⊢
  rw [htake] at hcomplete ⊢
  simp only [count_append] at hcomplete ⊢
  cases events[k] <;>
    simp only [RdmaCallback.step, RdmaCallback.decref, count_singleton_self,
      count_singleton] at hcomplete ⊢ <;>
    grind

theorem completesLast : CompletesLast events := by
  have hrun : ∀ k ≤ events.length, (events.take k).foldlM RdmaCallback.step ⟨1, 0⟩ =
      some ⟨references (events.take k), if k = events.length then 1 else 0⟩ := by
    intro k hk
    induction k with
    | zero =>
      have hne : 0 ≠ events.length := by
        have hall := length_eq_counts events
        rw [h.release_eq] at hall
        omega
      rw [if_neg hne]
      rfl
    | succ k ih =>
      have hstep := h.step hk
      rw [take_add_one, List.getElem?_eq_getElem hk] at hstep ⊢
      rw [foldlM_append, ih (by omega), if_neg (by omega)]
      exact (Option.bind_some _ _).trans ((bind_pure _).trans hstep)
  exact fun k hk => ⟨_, hrun k hk⟩

end Transfer

/-- The operations of a transfer are exact, and the callback runs once, at the end. -/
theorem transfers_exact (numTrueIbDevs localAddress remoteAddress : ℕ) (hpos : 0 < bytes)
    (hdevices : 1 ≤ devices) :
    (bytes + 262143 < 2 ^ 64 → bytes + devices - 1 < 2 ^ 64 →
      ∃ posts, readDataDistributed devices numTrueIbDevs localAddress remoteAddress bytes =
        some posts ∧ Exact localAddress remoteAddress bytes posts ∧
          ∀ events, Transfer posts events → CompletesLast events) ∧
    Exact localAddress remoteAddress bytes
        (writeDataDistributed devices localAddress remoteAddress bytes) ∧
      ∀ events, Transfer (writeDataDistributed devices localAddress remoteAddress bytes) events →
        CompletesLast events := by
  refine ⟨fun hbytes hwrap => ?_, ?_⟩
  · obtain ⟨posts, hread, hfollows⟩ :=
      follows_readDataDistributed numTrueIbDevs hpos hdevices hbytes hwrap
    exact ⟨posts, hread, hfollows.exact, fun events h => h.completesLast⟩
  · exact ⟨(follows_writeDataDistributed hdevices).exact, fun events h => h.completesLast⟩

/-- The order in which three operations are posted and done. -/
def threeEvents : List CallbackEvent :=
  [.post, .post, .complete, .post, .release, .complete, .complete]

theorem transfer_threeEvents {posts : List Post} (h : posts.length = 3) :
    Transfer posts threeEvents := by
  have htake : ∀ k, threeEvents.take k = threeEvents.take (min k 7) := fun k => take_eq_take_min
  have hle : ∀ k, min k 7 < 8 := fun k => by omega
  have hcomplete : ∀ k < 8, (threeEvents.take k).count .complete ≤
      (threeEvents.take k).count .post := by decide
  have hrelease : ∀ k < 8, .release ∈ threeEvents.take k →
      (threeEvents.take k).count .post = 3 := by
    decide
  refine ⟨by rw [h]; rfl, by rw [h]; rfl, rfl, fun k => ?_, fun k hk => ?_⟩
  · rw [htake]
    exact hcomplete _ (hle k)
  · rw [htake] at hk ⊢
    rw [h]
    exact hrelease _ (hle k) hk

/-- A megabyte is read and written on three devices. -/
theorem transfers_exact_three :
    (∃ posts, readDataDistributed 3 1 0 4096 1000000 = some posts ∧
      posts.map Post.bytes = [335872, 335872, 328256] ∧ Exact 0 4096 1000000 posts ∧
        CompletesLast threeEvents) ∧
    (writeDataDistributed 3 0 4096 1000000).map Post.bytes = [333312, 333312, 333376] ∧
      Exact 0 4096 1000000 (writeDataDistributed 3 0 4096 1000000) ∧ CompletesLast threeEvents := by
  obtain ⟨hread, hexact, hwrite⟩ :=
    transfers_exact 1 0 4096 (by norm_num : 0 < 1000000) (by norm_num : 1 ≤ 3)
  obtain ⟨posts, hposts, hread, hlast⟩ := hread (by norm_num) (by norm_num)
  have hbytes : posts.map Post.bytes = [335872, 335872, 328256] := by
    have heq : (readDataDistributed 3 1 0 4096 1000000).map (map Post.bytes) =
      some [335872, 335872, 328256] := by decide
    rw [hposts] at heq
    exact Option.some.inj heq
  have hlength : posts.length = 3 := by rw [← length_map, hbytes]; rfl
  exact ⟨⟨posts, hposts, hbytes, hread, hlast _ (transfer_threeEvents hlength)⟩, by decide, hexact,
    hwrite _ (transfer_threeEvents (by decide))⟩

end CpuThread.Transfers
