import Moodist.Foundation.Product

/-!
# Shards of a distributed tensor

Model of `py/moodist/sharding.py`: which chunks of a global tensor the owner at
given mesh coordinates holds. A dimension is described by a list of ranges, each a
global offset with a size; the local tensor along that dimension is the
concatenation of the ranges. Placements refine the ranges of one dimension at a
time, and the chunks are the Cartesian product of the ranges.

Python integers are unbounded, and every quantity of this module is non-negative on
the inputs it accepts, so sizes and offsets are natural numbers here.
-/

namespace Sharding

open Foundation

/-- A `(global_offset, size)` tuple. -/
structure Range where
  offset : ℕ
  size : ℕ
  deriving DecidableEq, Repr

/-- The placements of one mesh dimension. -/
inductive Placement where
  | replicate
  | shard (dim : ℕ)
  | stridedShard (dim splitFactor : ℕ)
  deriving DecidableEq, Repr

/-- Information about a single chunk of a tensor. -/
structure ShardInfo where
  globalOffset : List ℕ
  localOffset : List ℕ
  shape : List ℕ
  deriving DecidableEq, Repr

/-- The exceptions these functions can raise. -/
inductive ShardingError where
  | valueError (message : String)
  | keyError (dim : ℕ)
  | zeroDivisionError
  deriving DecidableEq, Repr

/-! ## Ranges -/

/-- The sum of the range sizes: the local extent of the dimension. -/
def totalSize (ranges : List Range) : ℕ := (ranges.map Range.size).sum

/-- The loop of `_compose_ranges` for an empty slice: the global offset at
`localStart`. `last` is the offset just after the last range seen. -/
def composeEmpty (localStart : ℕ) : List Range → ℕ → ℕ → List Range
  | [], _, last => [⟨last, 0⟩]
  | r :: rs, localPos, _ =>
    if localStart < localPos + r.size then
      [⟨r.offset + (localStart - localPos), 0⟩]
    else
      composeEmpty localStart rs (localPos + r.size) (r.offset + r.size)

/-- The loop of `_compose_ranges` for a non-empty slice. -/
def composeLoop (localStart localEnd : ℕ) : List Range → ℕ → List Range
  | [], _ => []
  | r :: rs, localPos =>
    let overlapStart := max localPos localStart
    let overlapEnd := min (localPos + r.size) localEnd
    let head :=
      if overlapStart < overlapEnd then
        [⟨r.offset + (overlapStart - localPos), overlapEnd - overlapStart⟩]
      else
        []
    if localPos + r.size ≥ localEnd then
      head
    else
      head ++ composeLoop localStart localEnd rs (localPos + r.size)

/-- The global ranges of `local[localStart : localStart + localSize]`. -/
def composeRanges (existing : List Range) (localStart localSize : ℕ) : List Range :=
  if localSize = 0 then
    composeEmpty localStart existing 0 0
  else
    composeLoop localStart (localStart + localSize) existing 0

/-- The `while` loop of `_strided_shard_ranges`. The caller's fuel is the number of
chunks, which bounds the number of iterations. -/
def stridedLoop (dimSize chunkSize numChunks groupSize : ℕ) : ℕ → ℕ → List Range
  | 0, _ => []
  | fuel + 1, chunkIdx =>
    if chunkIdx < numChunks then
      ⟨chunkIdx * chunkSize, min chunkSize (dimSize - chunkIdx * chunkSize)⟩ ::
        stridedLoop dimSize chunkSize numChunks groupSize fuel (chunkIdx + groupSize)
    else
      []

/-- The ranges of a strided shard before composition. -/
def stridedShardRanges (dimSize splitFactor groupSize rankIndex : ℕ) :
    Except ShardingError (List Range) :=
  let virtualSize := splitFactor * groupSize
  if virtualSize = 0 then
    .error .zeroDivisionError
  else
    let chunkSize := (dimSize + virtualSize - 1) / virtualSize
    if chunkSize = 0 then
      .error .zeroDivisionError
    else
      let numChunks := (dimSize + chunkSize - 1) / chunkSize
      match stridedLoop dimSize chunkSize numChunks groupSize numChunks rankIndex with
      | [] => .ok [⟨dimSize, 0⟩]
      | ranges => .ok ranges

def regularShardRanges (dimSize groupSize rankIndex : ℕ) :
    Except ShardingError Range :=
  if groupSize = 0 then
    .error .zeroDivisionError
  else
    let chunkSize := (dimSize + groupSize - 1) / groupSize
    let offset := min (chunkSize * rankIndex) dimSize
    .ok ⟨offset, min chunkSize (dimSize - offset)⟩

/-! ## Placements -/

/-- The ranges of a strided placement's dimension after it. -/
def applyStrided (current : List Range) (splitFactor groupSize rankIndex : ℕ) :
    Except ShardingError (List Range) := do
  let strided ← stridedShardRanges (totalSize current) splitFactor groupSize rankIndex
  return strided.flatMap fun r => composeRanges current r.offset r.size

/-- The ranges of a regular placement's dimension after it. -/
def applyShard (current : List Range) (groupSize rankIndex : ℕ) :
    Except ShardingError (List Range) := do
  let shard ← regularShardRanges (totalSize current) groupSize rankIndex
  return composeRanges current shard.offset shard.size

/-- Replace the ranges of dimension `dim` by `f` of them. A dimension without any
local extent keeps its ranges; a dimension the tensor lacks is a `KeyError`. -/
def shardDim (dimRanges : List (List Range)) (dim : ℕ)
    (f : List Range → Except ShardingError (List Range)) :
    Except ShardingError (List (List Range)) :=
  match dimRanges[dim]? with
  | none => .error (.keyError dim)
  | some current =>
    if totalSize current = 0 then
      .ok dimRanges
    else do
      let ranges ← f current
      return dimRanges.set dim ranges

/-- One iteration of the placement loop of `compute_shards`. -/
def applyPlacement (dimRanges : List (List Range)) (p : Placement)
    (rankIndex groupSize : ℕ) : Except ShardingError (List (List Range)) :=
  match p with
  | .replicate => .ok dimRanges
  | .stridedShard dim splitFactor =>
    shardDim dimRanges dim fun current => applyStrided current splitFactor groupSize rankIndex
  | .shard dim =>
    shardDim dimRanges dim fun current => applyShard current groupSize rankIndex

/-- The placement loop of `compute_shards`. -/
def applyPlacements (dimRanges : List (List Range)) :
    List (Placement × (ℕ × ℕ)) → Except ShardingError (List (List Range))
  | [] => .ok dimRanges
  | (p, rankIndex, groupSize) :: rest => do
    let next ← applyPlacement dimRanges p rankIndex groupSize
    applyPlacements next rest

/-! ## Chunks -/

/-- The ranges of one dimension, each with its local offset: the sizes before it,
summed from `cumsum`. -/
def withLocalOffsets : ℕ → List Range → List (ℕ × Range)
  | _, [] => []
  | cumsum, r :: rs => (cumsum, r) :: withLocalOffsets (cumsum + r.size) rs

/-- The chunk of one choice of ranges, one per dimension. -/
def chunkOf (combo : List (ℕ × Range)) : ShardInfo where
  globalOffset := combo.map fun r => r.2.offset
  localOffset := combo.map fun r => r.1
  shape := combo.map fun r => r.2.size

def chunksOf (dimRanges : List (List Range)) : List ShardInfo :=
  (product (dimRanges.map (withLocalOffsets 0))).map chunkOf

/-- The ranges every dimension starts with: the whole extent. -/
def initialRanges (shape : List ℕ) : List (List Range) :=
  shape.map fun s => [⟨0, s⟩]

/-- The text of the only `ValueError` of `compute_shards`. -/
def lengthMismatch (numPlacements numIndices : ℕ) : String :=
  s!"placements and indices_and_sizes must have same length, got {numPlacements} and {numIndices}"

/-- The chunks an owner has, given the tensor shape, the placements and the owner's
`(index, group_size)` in each mesh dimension. -/
def computeShards (shape : List ℕ) (placements : List Placement)
    (indicesAndSizes : List (ℕ × ℕ)) : Except ShardingError (List ShardInfo) :=
  if placements.length ≠ indicesAndSizes.length then
    .error (.valueError (lengthMismatch placements.length indicesAndSizes.length))
  else do
    let dimRanges ← applyPlacements (initialRanges shape) (placements.zip indicesAndSizes)
    return chunksOf dimRanges

/-- The output shape `apply_local_reshard` derives from the chunks: in each dimension
the largest local end. -/
def outputShape : List ShardInfo → List ℕ
  | [] => []
  | c :: cs =>
    (List.range c.shape.length).map fun d =>
      ((c :: cs).map fun c => c.localOffset.getD d 0 + c.shape.getD d 0).foldr max 0

end Sharding
