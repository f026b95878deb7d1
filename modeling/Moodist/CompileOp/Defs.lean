import Mathlib

/-!
# Compiling a tensor redistribution

Model of `core/compile_op.cc`: every rank is given the same lists of input and output regions and
works out, in five phases, which parts of which inputs it has to read into its outputs. The
phases are functions here; what the ranks exchange between them is put together elsewhere.

Coordinates are integers without a bound: the sums of an offset and an extent are taken not to
overflow. The number of elements is a `size_t`, as in the code.
-/

namespace CompileOp

/-! ## Regions -/

/-- How overlapping inputs are handled. -/
inductive ReduceOp where
  | none
  | any
  deriving DecidableEq, Repr

inductive DeviceType where
  | cpu
  | cuda
  deriving DecidableEq, Repr

/-- A region of a tensor that a rank contributes or receives. -/
structure TensorRegion where
  rank : ℕ
  offset : List ℤ
  shape : List ℤ
  tensorId : String
  device : String
  deriving DecidableEq, Repr

/-- A region as the phases use it: `index` counts the regions of its rank. -/
structure TensorDescr where
  rank : ℕ
  index : ℕ
  offset : List ℤ
  shape : List ℤ
  numel : ℕ
  tensorId : String
  device : DeviceType
  deriving DecidableEq, Repr

/-- The part of an input that lies in an output. -/
structure LogicalInput where
  offset : List ℤ
  shape : List ℤ
  inputRank : ℕ
  inputIndex : ℕ
  outputRank : ℕ
  outputIndex : ℕ
  deriving DecidableEq, Repr

/-- A box of the cell decomposition. -/
structure Cell where
  offset : List ℤ
  shape : List ℤ
  deriving DecidableEq, Repr

/-- The errors that `compile` throws. -/
inductive CompileError where
  | mismatchedSizes (kind : String) (idx offsetSize shapeSize : ℕ)
  | wrongDimensions (kind : String) (idx : ℕ) (tensorId : String) (got expected : ℕ)
  | invalidDevice (device : String)
  | wrongDevice (device : String) (expected : ℤ)
  | missingCoverage (outIdx count : ℕ) (regions : List Cell)
  | overlappingInputs (outIdx count : ℕ) (regions : List (Cell × ℕ × ℕ))
  | checkFailed
  deriving DecidableEq, Repr

def maxReportedRegions : ℕ := 5

def fmtCoord (c : List ℤ) : String := ",".intercalate (c.map toString)

/-- The number of regions, if not all of them are listed. -/
def fmtCount (count : ℕ) : String :=
  if count > maxReportedRegions then
    s!" ({count} regions, showing first {maxReportedRegions}):"
  else
    ":"

def CompileError.message : CompileError → String
  | .mismatchedSizes kind idx offsetSize shapeSize =>
    s!"moodist.compile_op: {kind} {idx} has mismatched offset/shape sizes (" ++
      s!"{offsetSize} vs {shapeSize})"
  | .wrongDimensions kind idx tensorId got expected =>
    s!"moodist.compile_op: {kind} {idx} has wrong dimensions for tensorId '{tensorId}' (got " ++
      s!"{got}, expected {expected})"
  | .invalidDevice device => s!"Invalid device string: {device}"
  | .wrongDevice device expected =>
    s!"Device {device} does not match process group's CUDA device {expected}"
  | .missingCoverage outIdx count regions =>
    "moodist.compile_op: missing input coverage" ++ fmtCount count ++
      String.join (regions.map fun c =>
        let offset := fmtCoord c.offset
        let shape := fmtCoord c.shape
        s!"\n  output[{outIdx}]: missing region at [{offset}] shape [{shape}]")
  | .overlappingInputs outIdx count regions =>
    "moodist.compile_op: overlapping inputs detected" ++ fmtCount count ++
      String.join (regions.map fun r =>
        let offset := fmtCoord r.1.offset
        let shape := fmtCoord r.1.shape
        let a := r.2.1
        let b := r.2.2
        s!"\n  output[{outIdx}]: overlap at [{offset}] shape [{shape}] between rank " ++
          s!"{a} and rank {b}")
  | .checkFailed => "CHECK failed"

/-! ## Validation -/

def validateAndRecordNdim (kind : String) (idx : ℕ) (region : TensorRegion)
    (tensorIdNdim : List (String × ℕ)) : Except CompileError (List (String × ℕ)) :=
  if region.offset.length ≠ region.shape.length then
    .error (.mismatchedSizes kind idx region.offset.length region.shape.length)
  else
    match tensorIdNdim.lookup region.tensorId with
    | some ndim =>
      if ndim ≠ region.offset.length then
        .error (.wrongDimensions kind idx region.tensorId region.offset.length ndim)
      else
        .ok tensorIdNdim
    | none => .ok ((region.tensorId, region.offset.length) :: tensorIdNdim)

/-- The loop over the regions of one kind, from number `idx` on. -/
def validateNdims (kind : String) :
    ℕ → List TensorRegion → List (String × ℕ) → Except CompileError (List (String × ℕ))
  | _, [], tensorIdNdim => .ok tensorIdNdim
  | idx, region :: regions, tensorIdNdim => do
    let recorded ← validateAndRecordNdim kind idx region tensorIdNdim
    validateNdims kind (idx + 1) regions recorded

/-- The device a string names, whatever its index. -/
def parseDevice (device : String) : Except CompileError DeviceType :=
  if device = "cpu" then .ok .cpu
  else if device = "cuda" ∨ "cuda:".toList <+: device.toList then .ok .cuda
  else .error (.invalidDevice device)

/-- The index is an `int`. -/
def parseIndex (device : String) : List Char → ℤ → Except CompileError ℤ
  | [], index => .ok index
  | c :: cs, index =>
    if c < '0' ∨ c > '9' then
      .error (.invalidDevice device)
    else
      parseIndex device cs ((index * 10 + (c.toNat - '0'.toNat)).bmod (2 ^ 32))

def parseAndValidateDevice (device : String) (expectedCudaIndex : ℤ) :
    Except CompileError DeviceType :=
  if device = "cpu" then .ok .cpu
  else if device = "cuda" then .ok .cuda
  else if "cuda:".toList <+: device.toList then do
    let index ← parseIndex device (device.toList.drop 5) 0
    if index ≠ expectedCudaIndex then .error (.wrongDevice device expectedCudaIndex) else .ok .cuda
  else .error (.invalidDevice device)

def validateDevices (rank : ℕ) (deviceIndex : ℤ) : List TensorRegion → Except CompileError Unit
  | [] => .ok ()
  | region :: regions => do
    if region.rank = rank then
      let _ ← parseAndValidateDevice region.device deviceIndex
    validateDevices rank deviceIndex regions

/-- The number of elements, as a `size_t`. -/
def numel (shape : List ℤ) : ℕ :=
  shape.foldl (fun n x => n * (x % 2 ^ 64).toNat % 2 ^ 64) 1

/-- The loop that parses the regions. `counter` holds the number of regions of each rank so far. -/
def describeFrom (counter : ℕ → ℕ) : List TensorRegion → Except CompileError (List TensorDescr)
  | [] => .ok []
  | region :: regions => do
    let device ← parseDevice region.device
    let descr : TensorDescr :=
      { rank := region.rank, index := counter region.rank, offset := region.offset
        shape := region.shape, numel := numel region.shape, tensorId := region.tensorId, device }
    let descrs ← describeFrom
      (Function.update counter region.rank (counter region.rank + 1)) regions
    return descr :: descrs

def describe (regions : List TensorRegion) : Except CompileError (List TensorDescr) :=
  describeFrom (fun _ => 0) regions

/-- Everything a rank does before the first exchange, up to the descriptors. -/
def validate (rank : ℕ) (deviceIndex : ℤ) (inputs outputs : List TensorRegion) :
    Except CompileError (List TensorDescr × List TensorDescr) := do
  let tensorIdNdim ← validateNdims "input" 0 inputs []
  let _ ← validateNdims "output" 0 outputs tensorIdNdim
  validateDevices rank deviceIndex inputs
  validateDevices rank deviceIndex outputs
  let inputDescrs ← describe inputs
  let outputDescrs ← describe outputs
  return (inputDescrs, outputDescrs)

/-- The regions of one rank, in their order. -/
def ofRank (rank : ℕ) (descrs : List TensorDescr) : List TensorDescr :=
  descrs.filter fun d => d.rank = rank

/-! ## Phase 1: intersections -/

/-- The first position and the extent in every dimension. -/
abbrev Box := List (ℤ × ℤ)

/-- The two boxes have a position in common, or one without extent lies strictly inside. -/
def intersects (inp out : Box) : Bool :=
  (inp.zip out).all fun p => !(decide (p.1.1 ≥ p.2.1 + p.2.2) || decide (p.2.1 ≥ p.1.1 + p.1.2))

def intersection (inp out : Box) : Box :=
  List.zipWith (fun i o =>
    let lo := max i.1 o.1
    let hi := min (i.1 + i.2) (o.1 + o.2)
    (lo, hi - lo)) inp out

def TensorDescr.box (d : TensorDescr) : Box := d.offset.zip d.shape

def LogicalInput.box (li : LogicalInput) : Box := li.offset.zip li.shape

/-- The part of an input in an output, if they intersect. -/
def logicalInput (inp out : TensorDescr) : Option LogicalInput :=
  if inp.tensorId = out.tensorId ∧ intersects inp.box out.box = true then
    let region := intersection inp.box out.box
    some
      { offset := region.map Prod.fst, shape := region.map Prod.snd
        inputRank := inp.rank, inputIndex := inp.index
        outputRank := out.rank, outputIndex := out.index }
  else
    none

/-- What a rank sends to `destRank` in phase 1. -/
def logicalInputsToSend (inputs outputs : List TensorDescr) (rank destRank : ℕ) :
    List LogicalInput :=
  (ofRank destRank outputs).flatMap fun out =>
    if out.numel = 0 then [] else (ofRank rank inputs).filterMap fun inp => logicalInput inp out

/-! ## Phase 2: cells -/

/-- The batches a rank receives in phase 1, put together. -/
def collectInputs (rank : ℕ) (batches : List (List LogicalInput)) :
    Except CompileError (List LogicalInput) :=
  if batches.flatten.all fun li => li.outputRank = rank then
    .ok batches.flatten
  else
    .error .checkFailed

/-- A cell and the input it is read from. -/
structure CellSource where
  cell : Cell
  source : LogicalInput
  deriving DecidableEq, Repr

/-- Sorted, each value once. -/
def sortUnique (l : List ℤ) : List ℤ := (l.insertionSort (· ≤ ·)).dedup

/-- The boundaries of the cells in dimension `d`. -/
def boundariesAt (out : Box) (inputs : List LogicalInput) (d : ℕ) : List ℤ :=
  let o := out.getD d (0, 0)
  sortUnique (o.1 :: (o.1 + o.2) :: inputs.flatMap fun inp =>
    let i := inp.box.getD d (0, 0)
    [i.1, i.1 + i.2])

def boundaries (out : Box) (inputs : List LogicalInput) : List (List ℤ) :=
  (List.range out.length).map (boundariesAt out inputs)

/-- The number of cells, as a `size_t`. -/
def totalCells (boundaries : List (List ℤ)) : ℕ :=
  boundaries.foldl (fun n b => n * (b.length - 1) % 2 ^ 64) 1

/-- The cell number `cellIdx`, with what remains of the number. The last dimension is the
first to take its interval. -/
def decodeCell : List (List ℤ) → ℕ → Box × ℕ
  | [], cellIdx => ([], cellIdx)
  | b :: bs, cellIdx =>
    let (box, remaining) := decodeCell bs cellIdx
    let numIntervals := b.length - 1
    let i := remaining % numIntervals
    ((b.getD i 0, b.getD (i + 1) 0 - b.getD i 0) :: box, remaining / numIntervals)

def within (cell box : Box) : Bool :=
  (cell.zip box).all fun p => !(decide (p.1.1 < p.2.1) || decide (p.1.1 + p.1.2 > p.2.1 + p.2.2))

def cellOf (box : Box) : Cell := ⟨box.map Prod.fst, box.map Prod.snd⟩

/-- What the loop over the cells of one output keeps. -/
structure Scan where
  gapCount : ℕ := 0
  gapDetails : List Cell := []
  overlapCount : ℕ := 0
  overlapDetails : List (Cell × ℕ × ℕ) := []
  cells : List CellSource := []

/-- One iteration of that loop. `pick` is the number drawn for this cell. -/
def scanCell (reduce : ReduceOp) (pick : ℕ) (out : Box) (inputs : List LogicalInput) (box : Box)
    (s : Scan) : Scan :=
  let cell := cellOf box
  if within box out then
    match inputs.filter fun inp => within box inp.box with
    | [] =>
      { s with
        gapCount := s.gapCount + 1
        gapDetails :=
          if s.gapCount + 1 ≤ maxReportedRegions then s.gapDetails ++ [cell] else s.gapDetails }
    | [a] => { s with cells := s.cells ++ [⟨cell, a⟩] }
    | a :: b :: rest =>
      if reduce = .none then
        { s with
          overlapCount := s.overlapCount + 1
          overlapDetails :=
            if s.overlapCount + 1 ≤ maxReportedRegions then
              s.overlapDetails ++ [(cell, a.inputRank, b.inputRank)]
            else
              s.overlapDetails }
      else
        let covering := a :: b :: rest
        { s with cells := s.cells ++ [⟨cell, covering.getD (pick % covering.length) a⟩] }
  else
    s

/-- The loop over the cells. -/
def scanCells (reduce : ReduceOp) (pick : ℕ → ℕ) (out : Box) (inputs : List LogicalInput) : Scan :=
  let bounds := boundaries out inputs
  (List.range (totalCells bounds)).foldl
    (fun s cellIdx => scanCell reduce (pick cellIdx) out inputs (decodeCell bounds cellIdx).1 s) {}

def resolveOutput (reduce : ReduceOp) (pick : ℕ → ℕ) (outIdx : ℕ) (out : TensorDescr)
    (inputs : List LogicalInput) : Except CompileError (List CellSource) :=
  if out.numel = 0 then
    .ok []
  else
    let s := scanCells reduce pick out.box inputs
    if s.gapCount > 0 then
      .error (.missingCoverage outIdx s.gapCount s.gapDetails)
    else if s.overlapCount > 0 then
      .error (.overlappingInputs outIdx s.overlapCount s.overlapDetails)
    else
      .ok s.cells

/-- Phase 2 for the outputs of a rank, from number `outIdx` on. -/
def resolveFrom (reduce : ReduceOp) (pick : ℕ → ℕ → ℕ) (received : List LogicalInput) :
    ℕ → List TensorDescr → Except CompileError (List (List CellSource))
  | _, [] => .ok []
  | outIdx, out :: outs => do
    let cells ← resolveOutput reduce (pick outIdx) outIdx out
      (received.filter fun li => li.outputIndex = outIdx)
    let rest ← resolveFrom reduce pick received (outIdx + 1) outs
    return cells :: rest

def resolveOverlaps (reduce : ReduceOp) (pick : ℕ → ℕ → ℕ) (myOutputs : List TensorDescr)
    (received : List LogicalInput) : Except CompileError (List (List CellSource)) :=
  resolveFrom reduce pick received 0 myOutputs

/-! ## Phases 3, 4 and 5 -/

/-- A request of a receiver for a region. -/
structure ReadRequest where
  offset : List ℤ
  shape : List ℤ
  requesterRank : ℕ
  inputIndex : ℕ
  outputIndex : ℕ
  deriving DecidableEq, Repr

/-- Where the sender has the region. -/
structure ReadResponse where
  requesterRank : ℕ
  outputIndex : ℕ
  requestOffset : List ℤ
  requestShape : List ℤ
  senderRank : ℕ
  tensorIndex : ℕ
  inputOffset : ℕ
  tensorShape : List ℤ
  isCopy : Bool
  deriving DecidableEq, Repr

/-- A region that is copied into a buffer of its own. -/
structure Copy where
  index : ℕ
  offset : List ℤ
  shape : List ℤ
  deriving DecidableEq, Repr

/-- A transfer, with offsets and sizes in bytes. -/
structure Read where
  rank : ℕ
  inputIndex : ℕ
  outputIndex : ℕ
  inputOffset : ℕ
  outputOffset : ℕ
  bytes : ℕ
  deriving DecidableEq, Repr

/-- The compiled plan of one rank. -/
structure CustomOp where
  inputs : List ℕ
  inputShapes : List (List ℤ)
  inputDevices : List DeviceType
  outputs : List ℕ
  outputShapes : List (List ℤ)
  outputDevices : List DeviceType
  inputCopies : List Copy
  outputCopies : List Copy
  reads : List Read
  deriving DecidableEq, Repr

/-- The linear offset in a shape, as a `size_t`, and the stride beyond the first dimension. -/
def linearOffsetStride : List ℤ → List ℤ → ℤ × ℤ
  | o :: os, s :: ss =>
    let (result, stride) := linearOffsetStride os ss
    ((result + o * stride) % 2 ^ 64, stride * s % 2 ^ 64)
  | _, _ => (0, 1)

def linearOffset (offset shape : List ℤ) : ℕ := (linearOffsetStride offset shape).1.toNat

/-- The last dimension in which the shapes differ. -/
def lastMismatch (inner outer : List ℤ) : Option ℕ :=
  ((List.range inner.length).filter fun i => inner.getD i 0 ≠ outer.getD i 0).getLast?

/-- A box of the inner shape is contiguous in the outer shape: it has size one in every dimension
before the last that differs. -/
def contiguous (inner outer : List ℤ) : Bool :=
  match lastMismatch inner outer with
  | none => true
  | some i => (inner.take i).all fun x => x = 1

/-- What a rank asks `destRank` for in phase 3. -/
def requestsToSend (rank : ℕ) (cellsPerOutput : List (List CellSource)) (destRank : ℕ) :
    List ReadRequest :=
  cellsPerOutput.zipIdx.flatMap fun p =>
    (p.1.filter fun c => c.source.inputRank = destRank).map fun c =>
      { offset := c.cell.offset, shape := c.cell.shape, requesterRank := rank
        inputIndex := c.source.inputIndex, outputIndex := p.2 }

/-- The answers and the copies of phase 4 so far. -/
structure Responses where
  inputCopies : List Copy := []
  responses : List ReadResponse := []

/-- The answer to one request. A region that is not contiguous in its input is copied, once. -/
def respondTo (rank : ℕ) (myInputs : List TensorDescr) (s : Responses) (req : ReadRequest) :
    Except CompileError Responses :=
  match myInputs[req.inputIndex]? with
  | none => .error .checkFailed
  | some inp =>
    let relOffset := List.zipWith (· - ·) req.offset inp.offset
    if contiguous req.shape inp.shape then
      .ok { s with responses := s.responses ++ [
        { requesterRank := req.requesterRank, outputIndex := req.outputIndex
          requestOffset := req.offset, requestShape := req.shape, senderRank := rank
          tensorIndex := req.inputIndex, inputOffset := linearOffset relOffset inp.shape
          tensorShape := inp.shape, isCopy := false }] }
    else
      let copy : Copy := ⟨req.inputIndex, relOffset, req.shape⟩
      let found := s.inputCopies.idxOf copy
      .ok
        { inputCopies :=
            if found < s.inputCopies.length then s.inputCopies else s.inputCopies ++ [copy]
          responses := s.responses ++ [
            { requesterRank := req.requesterRank, outputIndex := req.outputIndex
              requestOffset := req.offset, requestShape := req.shape, senderRank := rank
              tensorIndex := myInputs.length + found, inputOffset := 0
              tensorShape := req.shape, isCopy := true }] }

/-- Phase 4. -/
def respond (rank : ℕ) (myInputs : List TensorDescr) (received : List ReadRequest) :
    Except CompileError Responses :=
  received.foldlM (respondTo rank myInputs) {}

def responsesToSend (s : Responses) (destRank : ℕ) : List ReadResponse :=
  s.responses.filter fun resp => resp.requesterRank = destRank

/-- The reads and the copies of phase 5 so far. -/
structure Reads where
  reads : List Read := []
  outputCopies : List Copy := []

/-- The read of one answer. A region that is not contiguous in its output is read into a buffer
and copied from there. -/
def finalizeRead (itemsize : ℕ) (myOutputs : List TensorDescr) (s : Reads) (resp : ReadResponse) :
    Except CompileError Reads :=
  match myOutputs[resp.outputIndex]? with
  | none => .error .checkFailed
  | some out =>
    let relOutOffset := List.zipWith (· - ·) resp.requestOffset out.offset
    let bytes := itemsize * numel resp.requestShape % 2 ^ 64
    let inputOffset := itemsize * resp.inputOffset % 2 ^ 64
    if contiguous resp.requestShape out.shape then
      .ok { s with reads := s.reads ++ [
        { rank := resp.senderRank, inputIndex := resp.tensorIndex, outputIndex := resp.outputIndex
          inputOffset, outputOffset := itemsize * linearOffset relOutOffset out.shape % 2 ^ 64
          bytes }] }
    else
      .ok
        { outputCopies := s.outputCopies ++ [⟨resp.outputIndex, relOutOffset, resp.requestShape⟩]
          reads := s.reads ++ [
            { rank := resp.senderRank, inputIndex := resp.tensorIndex
              outputIndex := myOutputs.length + s.outputCopies.length
              inputOffset, outputOffset := 0, bytes }] }

/-- Phase 5. -/
def finalize (itemsize : ℕ) (myInputs myOutputs : List TensorDescr) (inputCopies : List Copy)
    (received : List ReadResponse) : Except CompileError CustomOp := do
  let s ← received.foldlM (finalizeRead itemsize myOutputs) {}
  return {
    inputs := myInputs.map fun d => itemsize * d.numel % 2 ^ 64
    inputShapes := myInputs.map TensorDescr.shape
    inputDevices := myInputs.map TensorDescr.device
    outputs := myOutputs.map fun d => itemsize * d.numel % 2 ^ 64
    outputShapes := myOutputs.map TensorDescr.shape
    outputDevices := myOutputs.map TensorDescr.device
    inputCopies
    outputCopies := s.outputCopies
    reads := s.reads }

end CompileOp
