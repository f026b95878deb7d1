import Moodist.Foundation.Tensor
import Moodist.Sharding.Cuts

/-!
# Resharding without communication

Model of `compute_local_reshard` and `apply_local_reshard`: a member of the mesh turns its local
tensor under the current placements into the one under the target placements, by cutting it once
more wherever a replicated mesh dimension becomes sharded.
-/

namespace Sharding

open Foundation List Option Tensor Placement
open Prod (fst snd)

variable {α : Type}

/-! ## The two functions -/

def Placement.typeName : Placement → String
  | .replicate => "Replicate"
  | .shard _ => "Shard"
  | .stridedShard _ _ => "_StridedShard"

/-- The placement is a `Shard` or a `_StridedShard`. -/
def Placement.isShardLike : Placement → Bool
  | .replicate => false
  | .shard _ => true
  | .stridedShard _ _ => true

/-- The tuples by which shard-like placements are compared. -/
inductive ShardKey where
  | strided (dim splitFactor : ℕ)
  | shard (dim : ℕ)
  deriving DecidableEq

def Placement.shardKey : Placement → Option ShardKey
  | .replicate => none
  | .shard dim => some (.shard dim)
  | .stridedShard dim splitFactor => some (.strided dim splitFactor)

/-- The text of the first `ValueError` of `compute_local_reshard`. -/
def placementsMismatch (numCurrent numTarget : ℕ) : String :=
  "current_placements and target_placements must have same length, got " ++
    s!"{numCurrent} and {numTarget}"

def requiresCommunication (curr tgt : String) : String :=
  s!"Cannot locally reshard {curr} -> {tgt}, requires communication"

/-- The loop that validates the conversions and collects those from `Replicate`. `str` is how
torch prints a placement. -/
def reshardPlacements (str : Placement → String) :
    List (Placement × Placement × (ℕ × ℕ)) →
      Except ShardingError (List (Placement × (ℕ × ℕ)))
  | [] => .ok []
  | (curr, tgt, idxSize) :: rest =>
    if curr.typeName = tgt.typeName then
      if curr.isShardLike && decide (curr.shardKey ≠ tgt.shardKey) then
        .error (.valueError (requiresCommunication (str curr) (str tgt)))
      else
        reshardPlacements str rest
    else if decide (curr = .replicate) && tgt.isShardLike then do
      let resharded ← reshardPlacements str rest
      return (tgt, idxSize) :: resharded
    else
      .error (.valueError (requiresCommunication curr.typeName tgt.typeName))

/-- The chunks to extract from a local tensor of shape `localShape`. -/
def computeLocalReshard (str : Placement → String) (localShape : List ℕ)
    (currentPlacements targetPlacements : List Placement) (indicesAndSizes : List (ℕ × ℕ)) :
    Except ShardingError (List ShardInfo) :=
  if currentPlacements.length ≠ targetPlacements.length then
    .error (.valueError (placementsMismatch currentPlacements.length targetPlacements.length))
  else if currentPlacements.length ≠ indicesAndSizes.length then
    .error (.valueError (lengthMismatch currentPlacements.length indicesAndSizes.length))
  else do
    let resharded ←
      reshardPlacements str (currentPlacements.zip (targetPlacements.zip indicesAndSizes))
    if resharded.isEmpty then
      return [⟨localShape.map fun _ => 0, localShape.map fun _ => 0, localShape⟩]
    else
      computeShards localShape (resharded.map Prod.fst) (resharded.map Prod.snd)

/-- What `apply_local_reshard` can raise, by itself or from torch. -/
inductive ReshardError where
  | valueError (message : String)
  | indexError
  | runtimeError
  deriving DecidableEq, Repr

/-- `tensor[slices]`. -/
def indexTensor (t : Tensor α) (slices : List (ℕ × ℕ)) : Except ReshardError (Tensor α) :=
  if t.shape.length < slices.length then .error .indexError else .ok (t.slice slices)

/-- `output[slices].copy_(src)`, for a source of the shape of that part. -/
def copyTensor (output : Tensor α) (slices : List (ℕ × ℕ)) (src : Tensor α) :
    Except ReshardError (Tensor α) := do
  let view ← indexTensor output slices
  if view.shape = src.shape then .ok (output.copySlice slices src) else .error .runtimeError

def copyChunk (t output : Tensor α) (chunk : ShardInfo) : Except ReshardError (Tensor α) :=
  if chunk.shape.any (· = 0) then
    .ok output
  else do
    let src ← indexTensor t (chunk.globalOffset.zip chunk.shape)
    copyTensor output (chunk.localOffset.zip chunk.shape) src

/-- The resharded tensor. `uninitialized` is what the memory of the output holds when it is
allocated. -/
def applyLocalReshard (uninitialized : List ℕ → α) (t : Tensor α) :
    List ShardInfo → Except ReshardError (Tensor α)
  | [] => .error (.valueError "chunks cannot be empty")
  | [chunk] => indexTensor t (chunk.globalOffset.zip chunk.shape)
  | chunks => chunks.foldlM (copyChunk t) (Tensor.ofFn (outputShape chunks) uninitialized)

/-- The local tensor that the chunks of `compute_shards` make of the global one. -/
def localTensor (t : Tensor α) (chunks : List ShardInfo) : Tensor α where
  shape := outputShape chunks
  get y := (chunks.find? fun c => inBox c.localOffset c.shape y).bind fun c => t.get (c.globalOf y)

/-! ## Chunks select positions -/

theorem globalAt_eq (R : List (List Range)) (y : List ℕ) :
    globalAt R y = lookup (R.map positions) y := by
  rw [globalAt, Foundation.lookup, zipWith_map_left]

theorem map_length_positions (R : List (List Range)) :
    (R.map positions).map length = R.map totalSize := by
  simp only [List.map_map, Function.comp_def, length_positions]

variable {R : List (List Range)}

/-- The chunks cover the indices of the local tensor, and no others. -/
theorem exists_chunk_iff {y : List ℕ} : (∃ c ∈ chunksOf R, inBox c.localOffset c.shape y = true) ↔
      inShape (R.map totalSize) y = true := by
  constructor
  · rintro ⟨c, hc, hy⟩
    exact forall₂_lt_totalSize_iff.mpr (chunk_local_spec hc hy).1
  · intro hy
    have hcount := localCount_eq_one (forall₂_lt_totalSize_iff.mp hy)
    rw [localCount] at hcount
    exact countP_pos_iff.mp (by omega)

theorem localTensor_chunksOf (t : Tensor α) (hR : ∀ rs ∈ R, Ranges rs) :
    localTensor t (chunksOf R) = t.pick (R.map positions) := by
  apply Tensor.ext
  · show outputShape (chunksOf R) = (R.map positions).map length
    rw [outputShape_chunksOf hR, map_length_positions]
  · funext y
    simp only [localTensor, pick, map_length_positions]
    cases hfind : (chunksOf R).find? fun c => inBox c.localOffset c.shape y with
    | none =>
      rw [if_neg, bind_none]
      intro hy
      obtain ⟨c, hc, hin⟩ := exists_chunk_iff.2 hy
      exact List.find?_eq_none.mp hfind c hc hin
    | some c =>
      have hc : c ∈ chunksOf R := mem_of_find?_eq_some hfind
      have hin : inBox c.localOffset c.shape y = true := by simpa using List.find?_some hfind
      rw [if_pos (exists_chunk_iff.1 ⟨c, hc, hin⟩), bind_some, ← globalAt_eq,
        (chunk_local_spec hc hin).2]

def Bounded (R : List (List Range)) (shape : List ℕ) : Prop :=
  Forall₂ (fun rs n => ∀ i ∈ positions rs, i < n) R shape

theorem range_bounded {rs : List Range} {lo n : ℕ} {r : Range}
    (hr : (lo, r) ∈ withLocalOffsets 0 rs)
    (hrs : ∀ i ∈ positions rs, i < n) (hpos : 0 < r.size) : r.offset + r.size ≤ n := by
  obtain ⟨-, -, hget⟩ := withLocalOffsets_spec lo r hr
  have hlast := hrs _ (mem_of_getElem? (hget (r.size - 1) (by omega)))
  omega

variable {shape : List ℕ} {c : ShardInfo}

variable (hc : c ∈ chunksOf R)

include hc

theorem chunk_slices (hR : Bounded R shape) :
    Forall₂ (fun s n => 0 < s.2 → s.1 + s.2 ≤ n) (c.globalOffset.zip c.shape) shape := by
  obtain ⟨combo, rfl, hcombo⟩ := mem_chunksOf.mp hc
  clear hc
  unfold Bounded at hR
  induction hcombo generalizing shape with
  | nil =>
    cases hR
    exact .nil
  | cons hr _ ih =>
    cases hR with
    | cons hrs hR => exact .cons (range_bounded hr hrs) (ih hR)

theorem chunk_local_slices :
    Forall₂ (fun s n => s.1 + s.2 ≤ n) (c.localOffset.zip c.shape) (R.map totalSize) := by
  obtain ⟨combo, rfl, hcombo⟩ := mem_chunksOf.mp hc
  clear hc
  induction hcombo with
  | nil => exact .nil
  | @cons r rs combo R hr _ ih =>
    have hend := (withLocalOffsets_spec r.1 r.2 hr).2.1
    exact .cons (by simpa using hend) ih

theorem chunk_lengths :
    c.globalOffset.length = R.length ∧ c.localOffset.length = R.length ∧
      c.shape.length = R.length := by
  obtain ⟨combo, rfl, hcombo⟩ := mem_chunksOf.mp hc
  simp [chunkOf, Forall₂.length_eq hcombo]

omit hc

/-- Copying to the local offset what stands at the global offset. -/
theorem globalOf_eq {lo go y : List ℕ} (hlo : lo.length = shape.length)
    (hgo : go.length = shape.length) (hy : inBox lo shape y = true) :
    inShape shape (zipWith (fun b i => i - b.1) (lo.zip shape) y) = true ∧
      zipWith (fun b i => b.1 + i) (go.zip shape)
        (zipWith (fun b i => i - b.1) (lo.zip shape) y) =
        ShardInfo.globalOf ⟨go, lo, shape⟩ y := by
  rw [inShape_iff]
  induction shape generalizing lo go y with
  | nil =>
    obtain rfl := length_eq_zero_iff.mp hlo
    obtain rfl := length_eq_zero_iff.mp hgo
    simp [ShardInfo.globalOf]
  | cons s shape ih =>
    cases lo with
    | nil => simp at hlo
    | cons l lo =>
      cases go with
      | nil => simp at hgo
      | cons g go =>
        obtain ⟨i, y, rfl, ⟨hle, hlt⟩, hrest⟩ := exists_of_inBox_cons hy
        obtain ⟨hin, heq⟩ := ih (by simpa using hlo) (by simpa using hgo) hrest
        have hhead : i - l < s := by omega
        refine ⟨.cons hhead hin, ?_⟩
        simp only [ShardInfo.globalOf] at heq
        simp only [ShardInfo.globalOf, zip_cons_cons, zipWith_cons_cons, heq]

theorem sub_origin {y : List ℕ} (hy : inShape shape y = true) :
    zipWith (fun b i => i - b.1) ((shape.map fun _ => 0).zip shape) y = y := by
  rw [inShape_iff] at hy
  induction hy with
  | nil => rfl
  | cons _ _ ih => simp only [map_cons, zip_cons_cons, zipWith_cons_cons, ih,
      Nat.sub_zero]

/-- What is left of the output after a chunk has been copied into it. -/
def overwrite (t : Tensor α) (ls : List (List ℕ)) (output : Tensor α) (written : List ℕ → Bool) :
    Tensor α where
  shape := output.shape
  get y := if written y then t.get (lookup ls y) else output.get y

variable {t output : Tensor α}

theorem copyChunk_eq (hc : c ∈ chunksOf R) (hR : Bounded R t.shape)
    (hout : output.shape = R.map totalSize) : copyChunk t output c =
      .ok (overwrite t (R.map positions) output fun y => inBox c.localOffset c.shape y) := by
  obtain ⟨hgo, hlo, hshape⟩ := chunk_lengths hc
  rw [copyChunk]
  split
  · next hempty =>
    -- an empty chunk holds no index
    congr 1
    apply Tensor.ext
    · rfl
    · funext y
      show output.get y = if inBox c.localOffset c.shape y = true then _ else output.get y
      rw [if_neg]
      intro hy
      obtain ⟨s, hs, hzero⟩ := any_eq_true.mp hempty
      exact absurd (of_decide_eq_true hzero) (inBox_pos hy s hs).ne'
  · have hlen : R.length = t.shape.length := Forall₂.length_eq hR
    have hdst := sliceBounds_of_le (chunk_local_slices hc)
    have hsnd : ∀ l : List ℕ, l.length = R.length → (l.zip c.shape).map snd = c.shape := by
      intro l hl
      exact map_snd_zip (by omega)
    have hfst : (c.localOffset.zip c.shape).map fst = c.localOffset := map_fst_zip (by omega)
    rw [indexTensor, if_neg (by simp [hgo, hshape, hlen]), t.slice_eq (chunk_slices hc hR),
      hsnd _ hgo]
    show copyTensor output _ _ = _
    rw [copyTensor, indexTensor, if_neg (by simp [hlo, hshape, hout])]
    show (if (sliceBounds output.shape (c.localOffset.zip c.shape)).map snd = c.shape
      then _ else _) = _
    rw [hout, hdst, hsnd _ hlo, if_pos rfl]
    congr 1
    apply Tensor.ext
    · rfl
    · funext y
      simp only [Tensor.copySlice, overwrite, hout, hdst, hsnd _ hlo, hfst]
      split
      · next hy =>
        obtain ⟨hin, heq⟩ := globalOf_eq (hlo.trans hshape.symm) (hgo.trans hshape.symm) hy
        rw [if_pos hin, heq, ← globalAt_eq, ← (chunk_local_spec hc hy).2]
      · rfl

/-- The copy loop writes the indices of the chunks it has gone through. -/
theorem foldlM_copyChunk {cs : List ShardInfo}
    (hcs : ∀ c ∈ cs, c ∈ chunksOf R) (hR : Bounded R t.shape)
    (hout : output.shape = R.map totalSize) : cs.foldlM (copyChunk t) output =
      .ok (overwrite t (R.map positions) output fun y =>
        cs.any fun c => inBox c.localOffset c.shape y) := by
  induction cs generalizing output with
  | nil => rfl
  | cons c cs ih =>
    have hshape : (overwrite t (R.map positions) output fun y =>
        inBox c.localOffset c.shape y).shape = R.map totalSize := hout
    rw [foldlM_cons, copyChunk_eq (hcs c mem_cons_self) hR hout]
    refine (ih (fun c hc => hcs c (mem_cons_of_mem _ hc)) hshape).trans ?_
    congr 1
    apply Tensor.ext
    · rfl
    · funext y
      simp only [overwrite, any_cons]
      by_cases hhead : inBox c.localOffset c.shape y = true
      · simp [hhead]
      · simp [hhead]

theorem chunk_of_single (hR : ∀ rs ∈ R, Ranges rs) (h : chunksOf R = [c]) :
    c.localOffset = (R.map totalSize).map (fun _ => 0) ∧ c.shape = R.map totalSize := by
  obtain ⟨first, hfirst, hzero⟩ : ∃ combo,
      Forall₂ (fun r rs => r ∈ withLocalOffsets 0 rs) combo R ∧
        Forall₂ (fun r _ => r.1 = 0) combo R := by
    clear h
    induction R with
    | nil => exact ⟨[], .nil, .nil⟩
    | cons rs R ih =>
      obtain ⟨combo, hmem, hzero⟩ := ih fun q hq => hR q (mem_cons_of_mem _ hq)
      obtain ⟨hne, -⟩ := hR rs mem_cons_self
      cases rs with
      | nil => exact absurd rfl hne
      | cons r rs => exact ⟨(0, r) :: combo, .cons mem_cons_self hmem, .cons rfl hzero⟩
  obtain ⟨last, hlast, hends⟩ := exists_last_combo hR
  have hsingle : ∀ combo, Forall₂ (fun r rs => r ∈ withLocalOffsets 0 rs) combo R →
      chunkOf combo = c := by
    intro combo hcombo
    have hmem : chunkOf combo ∈ chunksOf R := mem_chunksOf.mpr ⟨combo, rfl, hcombo⟩
    rw [h] at hmem
    exact mem_singleton.mp hmem
  have horigin : c.localOffset = (R.map totalSize).map (fun _ => 0) := by
    rw [← hsingle first hfirst]
    clear h hsingle hfirst hlast hends hR
    induction hzero with
    | nil => rfl
    | cons hr _ ih =>
      simp only [chunkOf, map_cons] at ih ⊢
      rw [ih, hr]
  refine ⟨horigin, ?_⟩
  rw [← hsingle last hlast] at horigin ⊢
  clear h hsingle hfirst hlast hR hzero
  induction hends with
  | nil => rfl
  | cons hr _ ih =>
    simp only [chunkOf, map_cons, List.cons.injEq] at horigin ih ⊢
    exact ⟨by omega, ih horigin.2⟩

/-- `apply_local_reshard` selects the positions of the ranges. -/
theorem applyLocalReshard_chunksOf (uninitialized : List ℕ → α) (hR : ∀ rs ∈ R, Ranges rs)
    (hbound : Bounded R t.shape) :
    applyLocalReshard uninitialized t (chunksOf R) = .ok (t.pick (R.map positions)) := by
  have hlen : R.length = t.shape.length := Forall₂.length_eq hbound
  -- every position of the output is in one of the chunks
  have hloop : (chunksOf R).foldlM (copyChunk t)
      (Tensor.ofFn (outputShape (chunksOf R)) uninitialized) = .ok (t.pick (R.map positions)) := by
    rw [foldlM_copyChunk (fun _ hc => hc) hbound (outputShape_chunksOf hR)]
    congr 1
    apply Tensor.ext
    · rw [Tensor.pick, map_length_positions]
      exact outputShape_chunksOf hR
    · funext y
      have hiff : ((chunksOf R).any fun c => inBox c.localOffset c.shape y) =
          inShape (R.map totalSize) y := by
        rw [Bool.eq_iff_iff, List.any_eq_true, exists_chunk_iff]
      simp only [overwrite, Tensor.ofFn, Tensor.pick, map_length_positions, hiff,
        outputShape_chunksOf hR]
      split <;> rfl
  cases hchunks : chunksOf R with
  | nil =>
    obtain ⟨last, hlast, -⟩ := exists_last_combo hR
    have hmem : chunkOf last ∈ chunksOf R := mem_chunksOf.mpr ⟨last, rfl, hlast⟩
    rw [hchunks] at hmem
    cases hmem
  | cons c cs =>
    cases cs with
    -- a single chunk is a view of the tensor and not a copy
    | nil =>
      obtain ⟨horigin, hshape⟩ := chunk_of_single hR hchunks
      have hc : c ∈ chunksOf R := by simp [hchunks]
      obtain ⟨hgo, hlo, hlen'⟩ := chunk_lengths hc
      have hsnd : (c.globalOffset.zip c.shape).map snd = R.map totalSize := by
        rw [map_snd_zip (by omega), hshape]
      rw [applyLocalReshard, indexTensor, if_neg (by simp [hgo, hlen', hlen]),
        t.slice_eq (chunk_slices hc hbound), hsnd]
      congr 1
      apply Tensor.ext
      · rw [Tensor.pick, map_length_positions]
      · funext y
        simp only [Tensor.pick, map_length_positions]
        split
        · next hy =>
          have hin : inBox c.localOffset c.shape y = true := by
            rw [horigin, hshape]
            exact hy
          have heq := (globalOf_eq (hlo.trans hlen'.symm) (hgo.trans hlen'.symm) hin).2
          have hback : zipWith (fun b i => i - b.1) (c.localOffset.zip c.shape) y = y := by
            rw [horigin, hshape]
            exact sub_origin hy
          rw [hback] at heq
          rw [heq, ← globalAt_eq, ← (chunk_local_spec hc hin).2]
        · rfl
    | cons c' cs =>
      rw [hchunks] at hloop
      exact hloop

/-! ## The conversions -/

/-- A conversion from the first to the second placement that needs no communication. -/
def IsLocal (conversion : Placement × Placement) : Prop :=
  conversion.1 = conversion.2 ∨ conversion.1 = .replicate

/-- The placements that are new in the target, with the coordinates there. -/
def resharded (qs : List (Placement × Placement × (ℕ × ℕ))) : List (Placement × (ℕ × ℕ)) :=
  (qs.filter fun q => decide (q.1 ≠ q.2.1)).map Prod.snd

theorem IsLocal.dim {c : Placement × Placement} (h : IsLocal c) {dim : ℕ}
    (hdim : c.1.dim? = some dim) : c.2.dim? = some dim := by
  rcases h with heq | hrep
  · rwa [← heq]
  · rw [hrep] at hdim
    cases hdim

theorem IsLocal.splits {c : Placement × Placement} (h : IsLocal c) (hsplit : c.2.Splits) :
    c.1.Splits := by
  rcases h with heq | hrep
  · rwa [heq]
  · rw [hrep]
    trivial

variable {tgt : Placement}

variable (str : Placement → String)

theorem reshardPlacements_refuse {curr : Placement}
    (h : ¬ IsLocal (curr, tgt)) (idxSize : ℕ × ℕ) (rest : List (Placement × Placement × (ℕ × ℕ))) :
    ∃ message,
      reshardPlacements str ((curr, tgt, idxSize) :: rest) = .error (.valueError message) := by
  have hne : curr ≠ tgt := fun heq => h (.inl heq)
  have hsharded : curr ≠ .replicate := fun heq => h (.inr heq)
  rw [reshardPlacements]
  split
  · rw [if_pos]
    · exact ⟨_, rfl⟩
    · cases curr <;> cases tgt <;>
        simp_all [isShardLike, shardKey, typeName]
  · simp [hsharded]

theorem reshardPlacements_keep (p : Placement) (idxSize : ℕ × ℕ)
    (rest : List (Placement × Placement × (ℕ × ℕ))) :
    reshardPlacements str ((p, p, idxSize) :: rest) = reshardPlacements str rest := by
  rw [reshardPlacements, if_pos rfl, if_neg]
  simp

theorem reshardPlacements_change (h : .replicate ≠ tgt)
    (idxSize : ℕ × ℕ) (rest : List (Placement × Placement × (ℕ × ℕ))) :
    reshardPlacements str ((.replicate, tgt, idxSize) :: rest) = (do
      let resharded ← reshardPlacements str rest
      return (tgt, idxSize) :: resharded) := by
  cases tgt with
  | replicate => exact absurd rfl h
  | shard dim => rfl
  | stridedShard dim splitFactor => rfl

/-- The loop refuses a list with a conversion that is not local, and collects the new placements
of any other. -/
theorem reshardPlacements_spec (qs : List (Placement × Placement × (ℕ × ℕ))) :
    ((∃ q ∈ qs, ¬ IsLocal (q.1, q.2.1)) ∧
      ∃ message, reshardPlacements str qs = .error (.valueError message)) ∨
    ((∀ q ∈ qs, IsLocal (q.1, q.2.1)) ∧ reshardPlacements str qs = .ok (resharded qs)) := by
  induction qs with
  | nil => exact Or.inr ⟨by simp, rfl⟩
  | cons q rest ih =>
    obtain ⟨curr, tgt, idxSize⟩ := q
    by_cases hlocal : IsLocal (curr, tgt)
    · by_cases hkeep : curr = tgt
      · subst hkeep
        rw [reshardPlacements_keep, resharded, filter_cons_of_neg (by simp)]
        refine ih.imp (And.imp_left ?_) (And.imp_left fun hall => ?_)
        · rintro ⟨q, hq, hno⟩
          exact ⟨q, mem_cons_of_mem _ hq, hno⟩
        · exact forall_mem_cons.mpr ⟨hlocal, hall⟩
      · obtain rfl : curr = .replicate := hlocal.resolve_left hkeep
        rw [reshardPlacements_change str hkeep, resharded, filter_cons_of_pos (by simpa)]
        rcases ih with ⟨⟨q, hq, hno⟩, message, herr⟩ | ⟨hall, hok⟩
        · left
          refine ⟨⟨q, mem_cons_of_mem _ hq, hno⟩, message, ?_⟩
          rw [herr]
          rfl
        · right
          refine ⟨forall_mem_cons.mpr ⟨hlocal, hall⟩, ?_⟩
          rw [hok]
          rfl
    · left
      exact ⟨⟨_, mem_cons_self, hlocal⟩, reshardPlacements_refuse str hlocal idxSize rest⟩

variable {β : Type*}

theorem computeShards_map (shape : List ℕ) (qs : List β) (p : β → Placement) (idxSize : β → ℕ × ℕ) :
    computeShards shape (qs.map p) (qs.map idxSize) = (do
      let dimRanges ← applyPlacements (initialRanges shape) (qs.map fun q => (p q, idxSize q))
      return chunksOf dimRanges) := by
  rw [computeShards, if_neg (by simp), zip_map']

theorem chunksOf_initialRanges (shape : List ℕ) :
    chunksOf (initialRanges shape) =
      [⟨shape.map fun _ => 0, shape.map fun _ => 0, shape⟩] := by
  have hproduct : Foundation.product ((initialRanges shape).map (withLocalOffsets 0)) =
      [shape.map fun s => (0, ⟨0, s⟩)] := by
    induction shape with
    | nil => rfl
    | cons s shape ih =>
      simp only [initialRanges, map_cons, withLocalOffsets, Foundation.product] at ih ⊢
      rw [ih]
      rfl
  rw [chunksOf, hproduct]
  simp [chunkOf, Function.comp_def]

theorem computeLocalReshard_map (localShape : List ℕ)
    (qs : List (Placement × Placement × (ℕ × ℕ))) :
    computeLocalReshard str localShape (qs.map fst) (qs.map fun q => q.2.1)
        (qs.map fun q => q.2.2) = (do
      let new ← reshardPlacements str qs
      let dimRanges ← applyPlacements (initialRanges localShape) new
      return chunksOf dimRanges) := by
  have hzip : (qs.map fst).zip ((qs.map fun q => q.2.1).zip (qs.map fun q => q.2.2)) = qs := by
    rw [zip_map', zip_map']
    simp
  rw [computeLocalReshard, if_neg (by simp), if_neg (by simp), hzip]
  congr
  funext new
  split
  · next hempty =>
    rw [isEmpty_iff.mp hempty, applyPlacements, ← chunksOf_initialRanges]
    rfl
  · rw [computeShards_map, show new.map (fun q => (q.1, q.2)) = new by simp]

variable {qs : List (Placement × Placement × (ℕ × ℕ))} {A B C : List (Placement × Placement)}
  {indicesAndSizes : List (ℕ × ℕ)}

/-- A reshard that is not refused computes the shards of the new placements. -/
theorem computeLocalReshard_eq (localShape : List ℕ) (hlocal : ∀ q ∈ qs, IsLocal (q.1, q.2.1)) :
    computeLocalReshard str localShape (qs.map fst) (qs.map fun q => q.2.1)
        (qs.map fun q => q.2.2) = (do
      let dimRanges ← applyPlacements (initialRanges localShape) (resharded qs)
      return chunksOf dimRanges) := by
  rw [computeLocalReshard_map]
  rcases reshardPlacements_spec str qs with ⟨⟨q, hq, hno⟩, -⟩ | ⟨-, hok⟩
  · exact absurd (hlocal q hq) hno
  · rw [hok]
    rfl

theorem computeLocalReshard_refuse (localShape : List ℕ) (h : ¬ ∀ q ∈ qs, IsLocal (q.1, q.2.1)) :
    ∃ message, computeLocalReshard str localShape (qs.map fst) (qs.map fun q => q.2.1)
        (qs.map fun q => q.2.2) = .error (.valueError message) := by
  rw [computeLocalReshard_map]
  rcases reshardPlacements_spec str qs with ⟨-, message, herr⟩ | ⟨hlocal, -⟩
  · rw [herr]
    exact ⟨message, rfl⟩
  · exact absurd hlocal h

/-! ## The order of the cuts -/

/-- No new placement of a tensor dimension stands before a kept placement of that dimension. -/
def KeptFirst (conversions : List (Placement × Placement)) : Prop :=
  conversions.Pairwise fun new kept =>
    new.1 ≠ new.2 → kept.1 = kept.2 → new.2.dim? ≠ kept.2.dim?

/-- In that order the target cuts what is left of the current cuts. -/
theorem cutDim_resharded (hlocal : ∀ q ∈ qs, IsLocal (q.1, q.2.1))
    (hkept : KeptFirst (qs.map fun q => (q.1, q.2.1))) (d : ℕ) (l : List β) :
    cutDim d (qs.map snd) l =
      (cutDim d (qs.map fun q => (q.1, q.2.2)) l).bind (cutDim d (resharded qs)) := by
  induction qs generalizing l with
  | nil => rfl
  | cons q qs ih =>
    obtain ⟨curr, tgt, idx, groupSize⟩ := q
    obtain ⟨hhead, htail⟩ := forall_mem_cons.mp hlocal
    obtain ⟨hbefore, hkept⟩ := pairwise_cons.mp hkept
    have ih := ih htail hkept
    by_cases hkeep : curr = tgt
    · subst hkeep
      have hnew : resharded ((curr, curr, idx, groupSize) :: qs) = resharded qs := by
        simp [resharded]
      rw [hnew, map_cons, map_cons]
      by_cases hd : curr.dim? = some d
      · rw [cutDim_cons_self hd, cutDim_cons_self hd, bind_assoc]
        congr
        funext l'
        exact ih l'
      · rw [cutDim_cons_ne hd, cutDim_cons_ne hd]
        exact ih l
    · obtain rfl : curr = .replicate := hhead.resolve_left hkeep
      have hnew : resharded ((.replicate, tgt, idx, groupSize) :: qs) =
          (tgt, idx, groupSize) :: resharded qs := by
        simp [resharded, hkeep]
      have hrep : replicate.dim? ≠ some d := by simp [dim?]
      rw [hnew, map_cons, map_cons, cutDim_cons_ne hrep]
      by_cases hd : tgt.dim? = some d
      · -- the current placements after this one leave the dimension alone
        have hnone : ∀ l' : List β, cutDim d (qs.map fun q => (q.1, q.2.2)) l' = some l' := by
          refine cutDim_of_ne fun q hq => ?_
          obtain ⟨q, hmem, rfl⟩ := mem_map.mp hq
          rcases htail q hmem with heq | hrep
          · have hne := hbefore (q.1, q.2.1) (mem_map_of_mem hmem) hkeep heq
            have heq : q.1 = q.2.1 := heq
            rw [heq, ← hd]
            exact hne.symm
          · have hrep : q.1 = .replicate := hrep
            simp [hrep, dim?]
        have hrest : cutDim d (qs.map snd) = cutDim (β := β) d (resharded qs) := by
          funext l'
          rw [ih l', hnone, bind_some]
        rw [hnone, bind_some, cutDim_cons_self hd, cutDim_cons_self hd, hrest]
      · have hrest : cutDim d ((tgt, idx, groupSize) :: resharded qs) =
            cutDim (β := β) d (resharded qs) := by
          funext l'
          exact cutDim_cons_ne hd ..
        rw [cutDim_cons_ne hd, ih l, hrest]

theorem cutDim_range (d : ℕ) (ps : List (Placement × (ℕ × ℕ))) (l : List β) (b : β) :
    cutDim d ps l = (cutDim d ps (range l.length)).map (map fun i => l.getD i b) := by
  have hl : l = (range l.length).map fun i => l.getD i b := by
    apply ext_getElem
    · simp
    · intro i h₁ h₂
      simp [getD_eq_getElem?_getD, h₁]
  rw [← cutDim_map, ← hl]

theorem bounded_of_initial {ps : List (Placement × (ℕ × ℕ))}
    (h : applyPlacements (initialRanges shape) ps = .ok R) : Bounded R shape := by
  obtain ⟨hlen, -, -, hcut⟩ := applyPlacements_initial h
  rw [Bounded, forall₂_iff_get]
  refine ⟨hlen, fun d hd hn i hi => ?_⟩
  obtain ⟨rs, hrs, hrun⟩ := hcut d _ (List.getElem?_eq_getElem hn)
  rw [List.getElem?_eq_getElem hd] at hrs
  cases hrs
  exact mem_range.mp ((cutDim_sublist hrun).subset hi)

theorem applyLocalReshard_local (uninitialized : List ℕ → α)
    {cur new : List (Placement × (ℕ × ℕ))} {R' : List (List Range)}
    (hcur : applyPlacements (initialRanges t.shape) cur = .ok R)
    (hnew : applyPlacements (initialRanges (R.map totalSize)) new = .ok R') :
    applyLocalReshard uninitialized (localTensor t (chunksOf R)) (chunksOf R') =
      .ok (t.pick (zipWith (fun l l' => l'.map fun i => l.getD i 0)
        (R.map positions) (R'.map positions))) := by
  obtain ⟨-, hR, -, -⟩ := applyPlacements_initial hcur
  obtain ⟨-, hR', -, -⟩ := applyPlacements_initial hnew
  have hbound := bounded_of_initial hnew
  rw [localTensor_chunksOf t hR]
  have hshape : (t.pick (R.map positions)).shape = R.map totalSize := map_length_positions R
  rw [applyLocalReshard_chunksOf uninitialized hR' (hshape ▸ hbound), pick_pick]
  refine forall₂_map_left_iff.mpr (forall₂_map_right_iff.mpr ?_)
  refine (forall₂_map_right_iff.mp hbound).imp fun rs' rs h => ?_
  rwa [length_positions]

theorem reshard_of_keptFirst (uninitialized : List ℕ → α) {T : List (List Range)}
    (hlocal : ∀ q ∈ qs, IsLocal (q.1, q.2.1)) (hkept : KeptFirst (qs.map fun q => (q.1, q.2.1)))
    (hcur : applyPlacements (initialRanges t.shape) (qs.map fun q => (q.1, q.2.2)) = .ok R)
    (htgt : applyPlacements (initialRanges t.shape) (qs.map snd) = .ok T) :
    ∃ R', applyPlacements (initialRanges (R.map totalSize)) (resharded qs) = .ok R' ∧
      applyLocalReshard uninitialized (localTensor t (chunksOf R)) (chunksOf R') =
        .ok (localTensor t (chunksOf T)) := by
  obtain ⟨hlen, -, -, hcut⟩ := applyPlacements_initial hcur
  obtain ⟨hlenT, hT, hdim, hcutT⟩ := applyPlacements_initial htgt
  -- in every dimension the new cuts of the local positions give the target's
  have hcuts : ∀ d (hd : d < R.length) (hdT : d < T.length),
      (cutDim d (resharded qs) (range (totalSize R[d]))).map
        (map fun i => (positions R[d]).getD i 0) = some (positions T[d]) := by
    intro d hd hdT
    have hn : t.shape[d]? = some t.shape[d] := List.getElem?_eq_getElem _
    obtain ⟨rs, hrs, hrun⟩ := hcut d _ hn
    obtain ⟨ts, hts, hrunT⟩ := hcutT d _ hn
    rw [List.getElem?_eq_getElem hd] at hrs
    rw [List.getElem?_eq_getElem hdT] at hts
    rw [some.inj hrs, some.inj hts, ← length_positions, ← cutDim_range, ← hrunT,
      cutDim_resharded hlocal hkept, hrun, bind_some]
  obtain ⟨R', hnew⟩ : ∃ R',
      applyPlacements (initialRanges (R.map totalSize)) (resharded qs) = .ok R' := by
    have hinit : (initialRanges (R.map totalSize)).length = R.length := by simp [initialRanges]
    refine exists_applyPlacements (fun q hq dim hd => ?_) (fun d rs hrs hnone => ?_)
    · rw [hinit, hlen]
      obtain ⟨q, hmem, rfl⟩ := mem_map.mp hq
      exact hdim q.2 (mem_map_of_mem (mem_of_mem_filter hmem)) dim hd
    · have hd : d < R.length := hinit ▸ (List.getElem?_eq_some_iff.mp hrs).1
      have hrs' : (initialRanges (R.map totalSize))[d]? =
          some ([⟨0, totalSize R[d]⟩] : List Range) := by
        simp [initialRanges, hd]
      have hpos : positions [⟨0, totalSize R[d]⟩] = range (totalSize R[d]) := by
        simp [Range.elems, range_eq_range']
      obtain rfl := some.inj (hrs.symm.trans hrs')
      have hd' := hcuts d hd (by omega)
      rw [← hpos, hnone] at hd'
      cases hd'
  refine ⟨R', hnew, ?_⟩
  obtain ⟨hlen', -, -, hcut'⟩ := applyPlacements_initial hnew
  rw [applyLocalReshard_local uninitialized hcur hnew, localTensor_chunksOf t hT]
  congr 2
  apply ext_getElem
  · simp only [length_zipWith, length_map] at hlen' ⊢
    omega
  · intro d h₁ h₂
    simp only [length_zipWith, length_map] at h₁ h₂ hlen'
    rw [getElem_zipWith, getElem_map, getElem_map, getElem_map]
    have hn : (R.map totalSize)[d]? = some (totalSize R[d]) := by
      simp [show d < R.length by omega]
    obtain ⟨rs', hrs', hrun'⟩ := hcut' d _ hn
    rw [List.getElem?_eq_getElem (by omega)] at hrs'
    have hd := hcuts d (by omega) h₂
    rw [hrun', ← some.inj hrs', map_some] at hd
    exact some.inj hd

/-! ## Main theorem -/

/-- For every shape, mesh and coordinate: the reshard raises a `ValueError`, or it turns the
local tensor under the current placements into the one under the target placements. -/
def ReshardsExactly (str : Placement → String) (current target : List Placement) : Prop :=
  ∀ (α : Type) (uninitialized f : List ℕ → α) (shape coord sizes : List ℕ)
    (currentChunks targetChunks : List ShardInfo), ValidCoord coord sizes →
    computeShards shape current (coord.zip sizes) = .ok currentChunks →
    computeShards shape target (coord.zip sizes) = .ok targetChunks →
    (∃ message, computeLocalReshard str (outputShape currentChunks) current target
      (coord.zip sizes) = .error (.valueError message)) ∨
    ∃ chunks, computeLocalReshard str (outputShape currentChunks) current target
        (coord.zip sizes) = .ok chunks ∧
      applyLocalReshard uninitialized (localTensor (Tensor.ofFn shape f) currentChunks) chunks =
        .ok (localTensor (Tensor.ofFn shape f) targetChunks)

theorem computeShards_ok {placements : List Placement}
    {chunks : List ShardInfo} (h : computeShards shape placements indicesAndSizes = .ok chunks) :
    placements.length = indicesAndSizes.length ∧ ∃ R,
      applyPlacements (initialRanges shape) (placements.zip indicesAndSizes) = .ok R ∧
        chunksOf R = chunks := by
  rw [computeShards] at h
  split at h
  · cases h
  · next hlen =>
    refine ⟨not_not.mp hlen, ?_⟩
    cases hrun : applyPlacements (initialRanges shape) (placements.zip indicesAndSizes) with
    | error err =>
      rw [hrun] at h
      cases h
    | ok R =>
      rw [hrun] at h
      exact ⟨R, rfl, Except.ok.inj h⟩

theorem exists_conversions {current target : List Placement}
    (hcur : current.length = indicesAndSizes.length)
    (htgt : target.length = indicesAndSizes.length) :
    ∃ qs : List (Placement × Placement × (ℕ × ℕ)), current = qs.map fst ∧
      target = qs.map (fun q => q.2.1) ∧ indicesAndSizes = qs.map (fun q => q.2.2) := by
  have hle : (target.zip indicesAndSizes).length ≤ current.length := by simp [hcur, htgt]
  have hsnd : (current.zip (target.zip indicesAndSizes)).map snd = target.zip indicesAndSizes :=
    map_snd_zip hle
  refine ⟨current.zip (target.zip indicesAndSizes), ?_, ?_, ?_⟩
  · rw [map_fst_zip]
    simp [hcur, htgt]
  · have hmap : (current.zip (target.zip indicesAndSizes)).map (fun q => q.2.1) =
        ((current.zip (target.zip indicesAndSizes)).map snd).map fst := by simp
    rw [hmap, hsnd, map_fst_zip htgt.le]
  · have hmap : (current.zip (target.zip indicesAndSizes)).map (fun q => q.2.2) =
        ((current.zip (target.zip indicesAndSizes)).map snd).map snd := by simp
    rw [hmap, hsnd, map_snd_zip htgt.ge]

theorem exists_new_before_kept {conversions : List (Placement × Placement)}
    (h : ¬ KeptFirst conversions) :
    ∃ A new B kept C, conversions = A ++ new :: (B ++ kept :: C) ∧ new.1 ≠ new.2 ∧
      kept.1 = kept.2 ∧ new.2.dim? = kept.2.dim? := by
  rw [KeptFirst, pairwise_iff_forall_sublist] at h
  push Not at h
  obtain ⟨new, kept, hsub, hnew, hkept, hdim⟩ := h
  obtain ⟨r₁, r₂, rfl, hmem, hrest⟩ := cons_sublist_iff.mp hsub
  obtain ⟨A, B₁, rfl⟩ := append_of_mem hmem
  obtain ⟨B₂, C, rfl⟩ := append_of_mem (singleton_sublist.mp hrest)
  exact ⟨A, new, B₁ ++ B₂, kept, C, by simp, hnew, hkept, hdim⟩

def ones (conversions : List (Placement × Placement)) : List (Placement × Placement × (ℕ × ℕ)) :=
  conversions.map fun c => (c.1, c.2, (0, 1))

theorem cutDim_ones {X : List (Placement × Placement)} (hlocal : ∀ c ∈ X, IsLocal c)
    (hsplit : ∀ c ∈ X, c.2.Splits) (d : ℕ) (ps : List (Placement × (ℕ × ℕ))) (l : List β) :
    cutDim d ((ones X).map (fun q => (q.1, q.2.2)) ++ ps) l = cutDim d ps l ∧
      cutDim d ((ones X).map snd ++ ps) l = cutDim d ps l ∧
      cutDim d (resharded (ones X) ++ ps) l = cutDim d ps l := by
  refine ⟨cutDim_ones_append ?_ d ps l, cutDim_ones_append ?_ d ps l, cutDim_ones_append ?_ d ps l⟩
  · simp only [ones, List.map_map, List.mem_map, Function.comp_apply]
    rintro q ⟨c, hc, rfl⟩
    exact ⟨(hlocal c hc).splits (hsplit c hc), rfl⟩
  · simp only [ones, List.map_map, List.mem_map, Function.comp_apply]
    rintro q ⟨c, hc, rfl⟩
    exact ⟨hsplit c hc, rfl⟩
  · simp only [resharded, ones, List.mem_map, mem_filter]
    rintro q ⟨_, ⟨⟨c, hc, rfl⟩, -⟩, rfl⟩
    exact ⟨hsplit c hc, rfl⟩

theorem exists_dim_bound (placements : List Placement) :
    ∃ N, ∀ p ∈ placements, ∀ dim, p.dim? = some dim → dim < N := by
  induction placements with
  | nil => exact ⟨0, by simp⟩
  | cons p placements ih =>
    obtain ⟨N, hN⟩ := ih
    refine ⟨max N (p.dim?.getD 0 + 1), forall_mem_cons.mpr ⟨fun dim hdim => ?_, ?_⟩⟩
    · rw [hdim, getD_some]
      omega
    · intro q hq dim hdim
      have := hN q hq dim hdim
      omega

/-- The placement loops of a reshard run through, if the placements are inside the tensor and the
mesh dimensions have members. -/
theorem exists_runs (hlocal : ∀ q ∈ qs, IsLocal (q.1, q.2.1)) (hsplit : ∀ q ∈ qs, q.2.1.Splits)
    (hcoord : ∀ q ∈ qs, q.2.2.1 < q.2.2.2)
    (hdim : ∀ q ∈ qs, ∀ dim, q.2.1.dim? = some dim → dim < shape.length) :
    (∃ R, applyPlacements (initialRanges shape) (qs.map fun q => (q.1, q.2.2)) = .ok R) ∧
      (∃ T, applyPlacements (initialRanges shape) (qs.map snd) = .ok T) ∧
      ∃ R', applyPlacements (initialRanges shape) (resharded qs) = .ok R' := by
  have hpos : ∀ q ∈ qs, 0 < q.2.2.2 := fun q hq => Nat.zero_lt_of_lt (hcoord q hq)
  refine ⟨exists_applyPlacements_initial ?_ ?_, exists_applyPlacements_initial ?_ ?_,
    exists_applyPlacements_initial ?_ ?_⟩
  · simp only [List.mem_map]
    rintro _ ⟨q, hq, rfl⟩ dim hd
    exact hdim q hq dim ((hlocal q hq).dim hd)
  · simp only [List.mem_map]
    rintro _ ⟨q, hq, rfl⟩
    exact ⟨(hlocal q hq).splits (hsplit q hq), hpos q hq⟩
  · simp only [List.mem_map]
    rintro _ ⟨q, hq, rfl⟩
    exact hdim q hq
  · simp only [List.mem_map]
    rintro _ ⟨q, hq, rfl⟩
    exact ⟨hsplit q hq, hpos q hq⟩
  · simp only [resharded, List.mem_map, mem_filter]
    rintro _ ⟨q, ⟨hq, -⟩, rfl⟩
    exact hdim q hq
  · simp only [resharded, List.mem_map, mem_filter]
    rintro _ ⟨q, ⟨hq, -⟩, rfl⟩
    exact ⟨hsplit q hq, hpos q hq⟩

/-- A mesh with two members where `tgt` is new and where `kept` is kept, and one elsewhere. -/
def twoMembers (A : List (Placement × Placement)) (tgt : Placement)
    (B : List (Placement × Placement)) (kept : Placement) (C : List (Placement × Placement)) :
    List (Placement × Placement × (ℕ × ℕ)) :=
  ones A ++ (.replicate, tgt, (0, 2)) :: (ones B ++ (kept, kept, (1, 2)) :: ones C)

/-- The second member at the kept placement has nothing left under the target. It holds an
element under the current placements, and keeps it in a reshard. -/
theorem cutDim_twoMembers {kept : Placement}
    (hlocal : ∀ X ∈ [A, B, C], ∀ c ∈ X, IsLocal c) (hsplit : ∀ X ∈ [A, B, C], ∀ c ∈ X, c.2.Splits)
    (htgt : tgt.Splits) (hkept : kept.Splits) {d : ℕ} (hd : tgt.dim? = some d)
    (hd' : kept.dim? = some d) :
    cutDim d ((twoMembers A tgt B kept C).map fun q => (q.1, q.2.2)) [0, 1] = some [1] ∧
      cutDim d ((twoMembers A tgt B kept C).map snd) [0, 1] = some [] ∧
      cutDim d (resharded (twoMembers A tgt B kept C)) [0] = some [0] := by
  have hrep : replicate.dim? ≠ some d := by simp [dim?]
  have hA := cutDim_ones (β := ℕ) (hlocal A (by simp)) (hsplit A (by simp)) d
  have hB := cutDim_ones (β := ℕ) (hlocal B (by simp)) (hsplit B (by simp)) d
  have hC := cutDim_ones (β := ℕ) (hlocal C (by simp)) (hsplit C (by simp)) d
  obtain ⟨hnew₁, -, hnew₂, -⟩ := cut_two htgt hd 0 1
  obtain ⟨-, hkept₁, -, hkept₂⟩ := cut_two hkept hd' 0 1
  rw [twoMembers]
  refine ⟨?_, ?_, ?_⟩
  · rw [map_append, (hA _ _).1, map_cons, cutDim_cons_ne hrep, map_append,
      (hB _ _).1, map_cons, cutDim_cons_self hd', hkept₂, bind_some,
      ← append_nil ((ones C).map fun q => (q.1, q.2.2)), (hC _ _).1]
    rfl
  · rw [map_append, (hA _ _).2.1, map_cons, cutDim_cons_self hd, hnew₂,
      bind_some, map_append, (hB _ _).2.1, map_cons, cutDim_cons_self hd', hkept₁,
      bind_some, ← append_nil ((ones C).map snd), (hC _ _).2.1]
    rfl
  · have hresharded : resharded
        (ones A ++ (.replicate, tgt, (0, 2)) :: (ones B ++ (kept, kept, (1, 2)) :: ones C)) =
        resharded (ones A) ++ (tgt, (0, 2)) :: (resharded (ones B) ++ resharded (ones C)) := by
      have hne : .replicate ≠ tgt := by
        rintro rfl
        cases hd
      simp [resharded, hne]
    rw [hresharded, (hA _ _).2.2, cutDim_cons_self hd, hnew₁, bind_some, (hB _ _).2.2,
      ← append_nil (resharded (ones C)), (hC _ _).2.2]
    rfl

theorem not_reshardsExactly
    {new kept : Placement × Placement} (hlocal : ∀ c ∈ A ++ new :: (B ++ kept :: C), IsLocal c)
    (hsplit : ∀ c ∈ A ++ new :: (B ++ kept :: C), c.2.Splits) (hnew : new.1 ≠ new.2)
    (hkept : kept.1 = kept.2) (hdim : new.2.dim? = kept.2.dim?) :
    ¬ ReshardsExactly str ((A ++ new :: (B ++ kept :: C)).map fst)
      ((A ++ new :: (B ++ kept :: C)).map snd) := by
  intro hexact
  obtain ⟨new, tgt⟩ := new
  obtain ⟨kept, kept'⟩ := kept
  obtain rfl : kept = kept' := hkept
  obtain rfl : new = .replicate := (hlocal (new, tgt) (by simp)).resolve_left hnew
  obtain ⟨d, hd⟩ : ∃ d, tgt.dim? = some d := by
    cases tgt with
    | replicate => exact absurd rfl hnew
    | shard dim | stridedShard dim splitFactor => exact ⟨dim, rfl⟩
  set conversions := A ++ (.replicate, tgt) :: (B ++ (kept, kept) :: C) with hconv
  have hsub : ∀ X ∈ [A, B, C], ∀ c ∈ X, c ∈ conversions := by
    intro X hX c hc
    simp only [mem_cons, not_mem_nil, or_false] at hX
    rcases hX with rfl | rfl | rfl <;> simp [hconv, hc]
  obtain ⟨hcur, htgt, hres⟩ := cutDim_twoMembers
    (fun X hX c hc => hlocal c (hsub X hX c hc)) (fun X hX c hc => hsplit c (hsub X hX c hc))
    (hsplit (.replicate, tgt) (by simp [hconv])) (hsplit (kept, kept) (by simp [hconv])) hd
    (hdim.symm.trans hd)
  set qs := twoMembers A tgt B kept C with hqs
  rw [twoMembers] at hqs
  -- the runs at a tensor with two elements in every dimension
  have hmem : ∀ q ∈ qs, (q.1, q.2.1) ∈ conversions ∧ q.2.2.1 < q.2.2.2 := by
    simp only [hqs, ones, mem_append, mem_cons, List.mem_map]
    rintro q (⟨c, hc, rfl⟩ | rfl | ⟨c, hc, rfl⟩ | rfl | ⟨c, hc, rfl⟩) <;> simp [conversions, *]
  have hlocal' : ∀ q ∈ qs, IsLocal (q.1, q.2.1) := fun q hq => hlocal _ (hmem q hq).1
  have hsplit' : ∀ q ∈ qs, q.2.1.Splits := fun q hq => hsplit _ (hmem q hq).1
  have hcoord : ∀ q ∈ qs, q.2.2.1 < q.2.2.2 := fun q hq => (hmem q hq).2
  obtain ⟨N, hN⟩ := exists_dim_bound (qs.map fun q => q.2.1)
  have hdims : ∀ (shape : List ℕ), shape.length = N → ∀ q ∈ qs, ∀ dim, q.2.1.dim? = some dim →
      dim < shape.length := by
    intro shape hshape q hq dim hdim
    rw [hshape]
    exact hN q.2.1 (mem_map_of_mem hq) dim hdim
  have hdN : d < N := hN tgt (by simp [hqs]) d hd
  obtain ⟨⟨R, hR⟩, ⟨T, hT⟩, -⟩ :=
    exists_runs hlocal' hsplit' hcoord (hdims (replicate N 2) (by simp))
  obtain ⟨hlenR, hranges, -, hcutR⟩ := applyPlacements_initial hR
  obtain ⟨hlenT, hrangesT, -, hcutT⟩ := applyPlacements_initial hT
  obtain ⟨-, -, R', hR'⟩ :=
    exists_runs hlocal' hsplit' hcoord (hdims (R.map totalSize) (by simpa using hlenR))
  obtain ⟨hlenR', -, -, hcutR'⟩ := applyPlacements_initial hR'
  have htwo : (replicate N 2)[d]? = some 2 := by simp [hdN]
  obtain ⟨rs, hrs, hrun⟩ := hcutR d 2 htwo
  obtain ⟨ts, hts, hrunT⟩ := hcutT d 2 htwo
  have hpos : positions rs = [1] := some.inj (hrun.symm.trans hcur)
  have hposT : positions ts = [] := some.inj (hrunT.symm.trans htgt)
  have hone : (R.map totalSize)[d]? = some 1 := by
    rw [List.getElem?_map, hrs, map_some, ← length_positions, hpos]
    rfl
  obtain ⟨rs', hrs', hrun'⟩ := hcutR' d 1 hone
  have hpos' : positions rs' = [0] := some.inj (hrun'.symm.trans hres)
  -- what the reshard and the target say about that dimension
  have hfst : conversions.map fst = qs.map fst := by
    simp [conversions, hqs, ones, Function.comp_def]
  have hsnd : conversions.map snd = qs.map fun q => q.2.1 := by
    simp [conversions, hqs, ones, Function.comp_def]
  have hzip : (qs.map fun q => q.2.2.1).zip (qs.map fun q => q.2.2.2) = qs.map fun q => q.2.2 := by
    rw [zip_map']
  have hvalid : ValidCoord (qs.map fun q => q.2.2.1) (qs.map fun q => q.2.2.2) :=
    forall₂_map_left_iff.mpr (forall₂_map_right_iff.mpr (forall₂_same.mpr hcoord))
  have hresult := hexact Unit (fun _ => ()) (fun _ => ()) (replicate N 2)
    (qs.map fun q => q.2.2.1) (qs.map fun q => q.2.2.2) (chunksOf R) (chunksOf T) hvalid
    (by rw [hfst, hzip, computeShards_map, hR]; rfl)
    (by rw [hsnd, hzip, computeShards_map]; exact congrArg (Except.map chunksOf) hT)
  rw [hfst, hsnd, hzip, computeLocalReshard_eq str _ hlocal', outputShape_chunksOf hranges, hR']
    at hresult
  rcases hresult with ⟨message, herr⟩ | ⟨chunks, hchunks, happly⟩
  · cases herr
  · cases hchunks
    rw [applyLocalReshard_local _ hR hR', localTensor_chunksOf _ hrangesT] at happly
    have hshape := congrArg shape (Except.ok.inj happly)
    have hlength := congrArg (fun shape => shape[d]?) hshape
    simp [pick, List.getElem?_zipWith, hrs, hrs', hts, hpos', hposT] at hlength

/-- **When a local reshard is exact.** Whatever the shape, the mesh and the coordinate, the
reshard refuses or gives the target's local tensor, if and only if a conversion needs
communication or no new placement of a tensor dimension stands before a kept one. -/
theorem localReshard_exact_iff (str : Placement → String) (current target : List Placement)
    (hlen : current.length = target.length) (hsplit : ∀ p ∈ target, p.Splits) :
    ReshardsExactly str current target ↔
      (∃ c ∈ current.zip target, ¬ IsLocal c) ∨ KeptFirst (current.zip target) := by
  constructor
  · intro hexact
    by_contra! hnot
    obtain ⟨hlocal, hkept⟩ := hnot
    obtain ⟨A, new, B, kept, C, heq, hnew, hkept, hdim⟩ := exists_new_before_kept hkept
    have hfst : current = (A ++ new :: (B ++ kept :: C)).map fst := by
      rw [← heq, map_fst_zip hlen.le]
    have hsnd : target = (A ++ new :: (B ++ kept :: C)).map snd := by
      rw [← heq, map_snd_zip hlen.ge]
    rw [hfst, hsnd] at hexact
    refine not_reshardsExactly str (heq ▸ hlocal) (fun c hc => hsplit c.2 ?_) hnew hkept hdim hexact
    rw [hsnd]
    exact mem_map_of_mem hc
  · intro hcond α uninitialized f shape coord sizes currentChunks targetChunks _ hcur htgt
    obtain ⟨hlenCur, R, hR, rfl⟩ := computeShards_ok hcur
    obtain ⟨hlenTgt, T, hT, rfl⟩ := computeShards_ok htgt
    obtain ⟨qs, hfst, hsnd, hidx⟩ := exists_conversions hlenCur hlenTgt
    have hzip : current.zip target = qs.map fun q => (q.1, q.2.1) := by
      rw [hfst, hsnd, zip_map']
    rw [hfst, hidx, zip_map'] at hR
    rw [hsnd, hidx, zip_map'] at hT
    obtain ⟨-, hranges, -, -⟩ := applyPlacements_initial hR
    rw [hzip] at hcond
    rw [hfst, hsnd, hidx]
    by_cases hlocal : ∀ q ∈ qs, IsLocal (q.1, q.2.1)
    · right
      have hkept : KeptFirst (qs.map fun q => (q.1, q.2.1)) := by
        refine hcond.resolve_left ?_
        rintro ⟨c, hc, hno⟩
        obtain ⟨q, hq, rfl⟩ := mem_map.mp hc
        exact hno (hlocal q hq)
      obtain ⟨R', hR', happly⟩ := reshard_of_keptFirst uninitialized (t := ofFn shape f)
        hlocal hkept hR hT
      refine ⟨chunksOf R', ?_, happly⟩
      rw [computeLocalReshard_eq str _ hlocal, outputShape_chunksOf hranges, hR']
      rfl
    · exact Or.inl (computeLocalReshard_refuse str _ hlocal)

/-- A strided placement may be added after a kept one of its dimension. -/
theorem localReshard_exact_strided :
    ReshardsExactly typeName [.shard 0, .replicate] [.shard 0, .stridedShard 0 2] := by
  refine (localReshard_exact_iff typeName _ _ (by decide) ?_).mpr (Or.inr ?_)
  · simp [Splits]
  · simp [KeptFirst]

/-- On a mesh of two by two, a tensor `[0, 1, 2, 3]` sharded over the second mesh dimension, to be
sharded over both: the member at `(0, 1)` gets the element `2` and not `1`. -/
theorem localReshard_new_before_kept :
    computeShards [4] [.replicate, .shard 0] [(0, 2), (1, 2)] = .ok [⟨[2], [0], [2]⟩] ∧
      computeShards [4] [.shard 0, .shard 0] [(0, 2), (1, 2)] = .ok [⟨[1], [0], [1]⟩] ∧
      computeLocalReshard typeName [2] [.replicate, .shard 0] [.shard 0, .shard 0]
        [(0, 2), (1, 2)] = .ok [⟨[0], [0], [1]⟩] ∧
      (applyLocalReshard (fun _ => [0])
          (localTensor (ofFn [4] id) [⟨[2], [0], [2]⟩]) [⟨[0], [0], [1]⟩]).toOption.bind
        (fun t => t.get [0]) = some [2] ∧
      (localTensor (ofFn [4] id) [⟨[1], [0], [1]⟩]).get [0] = some [1] := by
  decide

end Sharding
