import Mathlib

/-!
# The CUDA allocator

Model of `CudaAllocatorImpl` in `core/allocator.cc`. Memory that was mapped once is kept in maps of
free regions: one for memory that belongs to no stream, and one for each stream. A region carries
events, recorded when parts of it were freed, and whoever takes it waits for them.

A region is identified by its first byte, as in the set that holds it; an entry of the index by
size refers to its region that way. The results of the driver are given by a `Driver`, which also
logs what is put into the streams.
-/

namespace CudaAllocator

/-! ## Regions -/

structure Span where
  start : ℕ
  stop : ℕ
  deriving DecidableEq, Repr

def Span.bytes (s : Span) : ℕ := s.stop - s.start

/-- The byte at `b` is in the span. -/
def Span.has (s : Span) (b : ℕ) : Bool := decide (s.start ≤ b) && decide (b < s.stop)

abbrev Stream := ℕ

/-- An event that the users of a span have to wait for. `event` is its place in the log. -/
structure EventRegion where
  span : Span
  event : ℕ
  eventStream : Stream
  deriving DecidableEq, Repr

structure Region where
  span : Span
  events : List EventRegion
  deriving DecidableEq, Repr

/-- The entry of a region in the index by size. -/
def Region.key (r : Region) : ℕ × ℕ := (r.span.bytes, r.span.start)

/-- Regions by address, and their sizes and first bytes by size. -/
structure Regions where
  map : List Region := []
  sizes : List (ℕ × ℕ) := []
  deriving DecidableEq, Repr

/-- The order of the index by size. -/
def keyLe (a b : ℕ × ℕ) : Prop := a.1 < b.1 ∨ a.1 = b.1 ∧ a.2 ≤ b.2

instance : DecidableRel keyLe := fun a b =>
  inferInstanceAs (Decidable (a.1 < b.1 ∨ a.1 = b.1 ∧ a.2 ≤ b.2))

def before (map : List Region) (span : Span) : List Region :=
  map.takeWhile fun r => r.span.start ≤ span.start

def after (map : List Region) (span : Span) : List Region :=
  map.dropWhile fun r => r.span.start ≤ span.start

def leftOf (map : List Region) (span : Span) : Option Region :=
  (before map span).getLast?.filter fun p => p.span.stop = span.start

def rightOf (map : List Region) (span : Span) : Option Region :=
  (after map span).head?.filter fun i => i.span.start = span.stop

def eventsOf (r : Option Region) : List EventRegion := (r.map Region.events).getD []

def joined (map : List Region) (span : Span) (events : List EventRegion) : Region where
  span :=
    { start := ((leftOf map span).map fun p => p.span.start).getD span.start
      stop := ((rightOf map span).map fun i => i.span.stop).getD span.stop }
  events := eventsOf (leftOf map span) ++ events ++ eventsOf (rightOf map span)

def keptBefore (map : List Region) (span : Span) : List Region :=
  if (leftOf map span).isSome then (before map span).dropLast else before map span

def keptAfter (map : List Region) (span : Span) : List Region :=
  if (rightOf map span).isSome then (after map span).tail else after map span

def insertSpan (map : List Region) (span : Span) (events : List EventRegion) : List Region :=
  keptBefore map span ++ joined map span events :: keptAfter map span

/-- Take the entry of a region out of the index by size. -/
def dropSize (sizes : List (ℕ × ℕ)) (r : Option Region) : List (ℕ × ℕ) :=
  match r with
  | none => sizes
  | some r => sizes.filter fun e => e.2 ≠ r.span.start

def Regions.insertRegion (rs : Regions) (span : Span) (events : List EventRegion) : Regions where
  map := insertSpan rs.map span events
  sizes := (dropSize (dropSize rs.sizes (leftOf rs.map span)) (rightOf rs.map span)).orderedInsert
    keyLe (joined rs.map span events).key

def Regions.insertAll (rs : Regions) (regions : List Region) : Regions :=
  regions.foldl (fun rs r => rs.insertRegion r.span r.events) rs

/-- Take a region out. -/
def Regions.remove (rs : Regions) (start : ℕ) : Regions where
  map := rs.map.filter fun r => r.span.start ≠ start
  sizes := rs.sizes.filter fun e => e.2 ≠ start

def Regions.shrink (rs : Regions) (r : Region) (bytes : ℕ) (events : List EventRegion) : Regions :=
  let r' : Region := ⟨⟨r.span.start + bytes, r.span.stop⟩, events⟩
  { map := rs.map.map fun x => if x.span.start = r.span.start then r' else x
    sizes := (rs.sizes.filter fun e => e.2 ≠ r.span.start).orderedInsert keyLe r'.key }

def Regions.setEvents (rs : Regions) (start : ℕ) (events : List EventRegion) : Regions :=
  { rs with map := rs.map.map fun x => if x.span.start = start then { x with events } else x }

/-- The mapped memory with a span added, in the way regions are. -/
def addSpan (spans : List Span) (span : Span) : List Span :=
  (insertSpan (spans.map fun s => ⟨s, []⟩) span []).map Region.span

/-! ## The driver -/

/-- What is put into the streams, in the order of the calls. -/
inductive Op where
  | work (stream : Stream)
  | record (stream : Stream)
  | wait (stream : Stream) (event : ℕ)
  deriving DecidableEq, Repr

/-- The log and the answers to the calls to come, by their number. New memory does not overlap
what is mapped. `order` is the order of a hash map, `verbose` the level of the messages. -/
structure Driver where
  log : List Op
  calls : ℕ
  verbose : Bool
  eventOk : ℕ → Bool
  completed : ℕ → ℕ → Bool
  memFree : ℕ → ℕ
  memAlloc : ℕ → List Span → ℕ → Option ℕ
  order : List Stream → List Stream
  memAlloc_fresh : ∀ n mapped bytes addr, memAlloc n mapped bytes = some addr →
    0 < addr ∧ ∀ s ∈ mapped, addr + bytes ≤ s.start ∨ s.stop ≤ addr
  order_perm : ∀ l, (order l).Perm l

/-! ## The allocator -/

/-- The maps of regions. -/
inductive Place where
  | free
  | pending
  | stream (s : Stream)
  | streamPending (s : Stream)
  deriving DecidableEq, Repr

/-- An allocation that is in use. -/
structure Allocation where
  span : Span
  stream : Stream
  deriving DecidableEq, Repr

/-- A free: the stream of the allocation and those recorded for it, and the length of the log at
that time. -/
structure Freed where
  span : Span
  users : List Stream
  time : ℕ
  deriving DecidableEq, Repr

/-- `live`, `recorded` and `freed` are what the callers know: the allocations in use, the streams
recorded for them, and the frees so far. -/
structure State where
  mapped : List Span
  regions : Place → Regions
  streams : List Stream
  nextStream : ℕ
  pendingStreams : List Stream
  pendingDeallocations : List (Span × List Stream)
  streamUses : List (ℕ × List Stream)
  live : List Allocation
  recorded : List (Allocation × Stream)
  freed : List Freed
  driver : Driver

inductive Error where
  | check
  | cuda
  | outOfMemory (bytes nMapped nMappedRegions nAllocated nFree largestChunk : ℕ)
  deriving DecidableEq, Repr

abbrev M := EStateM Error State

def State.setRegions (w : State) (p : Place) (rs : Regions) : State :=
  { w with regions := Function.update w.regions p rs }

/-- An event call: it is logged if it succeeds, and its place in the log returned. -/
def eventCall (op : Op) : M (Option ℕ) := do
  let w ← get
  let d := w.driver
  if d.eventOk d.calls then
    set { w with driver := { d with log := d.log ++ [op], calls := d.calls + 1 } }
    return some d.log.length
  else
    set { w with driver := { d with calls := d.calls + 1 } }
    return none

/-- The map of a stream is created when it is first asked for. -/
def State.openStream (w : State) (s : Stream) : State :=
  if s ∈ w.streams then w
  else { w with streams := w.driver.order (s :: w.streams), nextStream := 0 }

def getStreamFree (s : Stream) : M Unit := modify fun w => w.openStream s

def State.openPending (w : State) (s : Stream) : State :=
  if s ∈ w.pendingStreams then w
  else { w with pendingStreams := w.driver.order (s :: w.pendingStreams) }

def getStreamPendingFree (s : Stream) : M Unit := modify fun w => w.openPending s

def waitEvent (stream : Stream) (e : EventRegion) : M Bool :=
  if e.eventStream ≠ stream then
    Option.isSome <$> eventCall (.wait stream e.event)
  else
    return true

/-- The loop of `allocateFrom` over the events of a region: what it leaves, and whether every
wait succeeded. -/
def waitEvents (stream : Stream) (ptrEnd : ℕ) : List EventRegion → M (List EventRegion × Bool)
  | [] => return ([], true)
  | e :: es =>
    if e.span.start ≥ ptrEnd then
      return (e :: es, true)
    else do
      let waited ← waitEvent stream e
      if !waited then
        return (e :: es, false)
      else
        let (rest, ok) ← waitEvents stream ptrEnd es
        if e.span.stop > ptrEnd then
          return ({ e with span := ⟨ptrEnd, e.span.stop⟩ } :: rest, ok)
        else
          return (rest, ok)

/-- Take the first bytes of the smallest region that is large enough. -/
def allocateFrom (p : Place) (bytes : ℕ) (stream : Stream) : M (Option ℕ) := do
  let rs := (← get).regions p
  match rs.sizes.find? fun e => bytes ≤ e.1 with
  | none => return none
  | some e =>
    match rs.map.find? fun r => r.span.start = e.2 with
    | none => throw .check
    | some r =>
      if r.span.bytes ≠ e.1 then
        throw .check
      else
        let (events, ok) ← waitEvents stream (r.span.start + bytes) r.events
        if !ok then
          modify fun w => w.setRegions p (rs.setEvents r.span.start events)
          throw .cuda
        else if e.1 = bytes then
          if events ≠ [] then
            throw .check
          else
            modify fun w => w.setRegions p (rs.remove r.span.start)
            return some r.span.start
        else
          modify fun w => w.setRegions p (rs.shrink r bytes events)
          return some r.span.start

/-- The loop of `deallocate` over the streams. -/
def recordEvents (span : Span) : List Stream → M (Option (List EventRegion))
  | [] => return some []
  | s :: ss => do
    match ← eventCall (.record s) with
    | none => return none
    | some event =>
      let rest ← recordEvents span ss
      return rest.map fun rest => { span, event, eventStream := s } :: rest

def State.giveBack (w : State) (s : Stream) (span : Span) (events : List EventRegion) : State :=
  w.setRegions (.stream s) ((w.regions (.stream s)).insertRegion span events)

/-- A span with its events goes to the map of its stream. If an event could not be recorded, this
is an error or put off. -/
def giveBackOrQueue (allowErrors : Bool) (span : Span) (owningStream : Stream)
    (keys : List Stream) :
    Option (List EventRegion) → M Unit
  | some events => do
    getStreamFree owningStream
    modify fun w => w.giveBack owningStream span events
  | none =>
    if allowErrors then
      throw .cuda
    else
      modify fun w => { w with pendingDeallocations := w.pendingDeallocations ++ [(span, keys)] }

/-- Give a span back. -/
def deallocate (allowErrors : Bool) (span : Span) (streamList : List Stream) : M Unit := do
  match streamList with
  | [] => throw .check
  | owningStream :: _ =>
    let keys := (← get).driver.order streamList.dedup
    let events ← recordEvents span keys
    giveBackOrQueue allowErrors span owningStream keys events

def State.moveRegion (w : State) (s : Stream) (r : Region) : State :=
  let w := w.setRegions (.stream s) ((w.regions (.stream s)).remove r.span.start)
  w.setRegions .free ((w.regions .free).insertRegion r.span r.events)

/-- The loop of `freeStreamMemory`. -/
def freeStreamLoop : List (Stream × Region) → ℕ → State → Bool × State
  | [], _, w => (false, w)
  | (s, r) :: todo, reqbytes, w =>
    let n := r.span.bytes
    if n ≥ reqbytes then
      (true, w.moveRegion s r)
    else
      freeStreamLoop todo (reqbytes - n) (w.moveRegion s r)

def State.streamRegions (w : State) : List (Stream × Region) :=
  w.streams.flatMap fun s => (w.regions (.stream s)).map.map fun r => (s, r)

def freeStreamMemory (reqbytes : ℕ) : M Bool := do
  let w ← get
  let (enough, w') := freeStreamLoop w.streamRegions reqbytes w
  set w'
  return enough

/-- The first event of the region has completed. -/
def Driver.isReady (d : Driver) (r : Region) : Bool :=
  match r.events with
  | [] => true
  | e :: _ => d.completed d.calls e.event

/-- Move pending regions, and leave `rest`. -/
def State.movePending (w : State) (p : Place) (moved : List Region) (rest : Regions) : State :=
  let w := w.setRegions p rest
  w.setRegions .free ((w.regions .free).insertAll moved)

def State.called (w : State) : State :=
  { w with driver := { w.driver with calls := w.driver.calls + 1 } }

/-- Move the pending regions whose first event has completed. -/
def freeSomePending (p : Place) : M Bool := do
  let w ← get
  let rs := w.regions p
  let ready := rs.map.filter w.driver.isReady
  set (w.movePending p ready (ready.foldl (fun rs r => rs.remove r.span.start) rs)).called
  return !ready.isEmpty

/-- Move all pending regions. -/
def freePending (p : Place) : M Bool := do
  let w ← get
  let rs := w.regions p
  set (w.movePending p rs.map {})
  return !rs.map.isEmpty

/-! ## New memory -/

def mebi : ℕ := 1024 * 1024

/-- The loop of `mapMoreMemory` behind the first failure. -/
def memAllocLoop (minbytes : ℕ) (tryAlloc : ℕ → ℕ → Option ℕ) : ℕ → ℕ → ℕ → Option (ℕ × ℕ)
  | 0, _, _ => none
  | fuel + 1, call, bytes =>
    let bytes := if bytes > minbytes + mebi then bytes - mebi else minbytes
    match tryAlloc call bytes with
    | some addr => some (addr, bytes)
    | none =>
      if bytes ≤ minbytes then none else memAllocLoop minbytes tryAlloc fuel (call + 1) bytes

/-- How much the driver is asked for. -/
def mapBytes (minbytes free : ℕ) (nothingMapped : Bool) : ℕ :=
  let buffer := 512 * mebi
  let safebytes := if free > buffer then free - buffer else 0
  let bytes := if safebytes ≥ minbytes then safebytes else free
  if nothingMapped && decide (free / 2 > minbytes) then free / 2 else bytes

def Driver.grant (d : Driver) (mapped : List Span) (minbytes bytes : ℕ) : Option (ℕ × ℕ) :=
  let tryAlloc := fun call bytes => d.memAlloc call mapped bytes
  match tryAlloc d.calls bytes with
  | some addr => some (addr, bytes)
  | none => memAllocLoop minbytes tryAlloc (bytes + 1) (d.calls + 1) bytes

/-- Map at least `minbytes`. -/
def mapMoreMemory (minbytes : ℕ) (stream : Stream) : M Bool := do
  let w ← get
  let d := w.driver
  let bytes := mapBytes minbytes (d.memFree d.calls) w.mapped.isEmpty
  if bytes < minbytes then
    return false
  else
    match d.grant w.mapped minbytes bytes with
    | none => return false
    | some (addr, bytes) =>
      let span : Span := ⟨addr, addr + bytes⟩
      set { w with
        mapped := addSpan w.mapped span
        driver := { d with calls := d.calls + bytes + 3 } }
      match ← eventCall (.record stream) with
      | none => throw .cuda
      | some event =>
        modify fun w => w.setRegions .free
          ((w.regions .free).insertRegion span [{ span, event, eventStream := stream }])
        return true

/-! ## Allocating and freeing -/

/-- The queued deallocations are taken out of the queue and done again. -/
def drainDeallocations : M Unit := do
  let queued := (← get).pendingDeallocations
  modify fun w => { w with pendingDeallocations := [] }
  queued.forM fun v => deallocate true v.1 v.2

/-- The loop over the maps of all streams. -/
def tryStreams (bytes : ℕ) (stream : Stream) : ℕ → M (Option ℕ)
  | 0 => return none
  | i + 1 => do
    let w ← get
    match w.streams[w.nextStream]? with
    | none => throw .check
    | some s =>
      let r ← allocateFrom (.stream s) bytes stream
      modify fun w => { w with
        nextStream := if w.nextStream + 1 = w.streams.length then 0 else w.nextStream + 1 }
      match r with
      | some ptr => return some ptr
      | none => tryStreams bytes stream i

/-- How far `allocate` comes without new memory. -/
inductive Outcome where
  | found (ptr : ℕ)
  | retry
  | exhausted
  deriving DecidableEq, Repr

/-- The check of `debugFreeMemory`: the last region that starts in a mapped span ends there. -/
def State.freeInside (w : State) : Bool :=
  w.mapped.all fun v =>
    let inside := (w.regions .free).map.filter fun x =>
      decide (v.start ≤ x.span.start) && decide (x.span.start < v.stop)
    decide ((inside.getLast?.map fun x => x.span.stop).getD v.start ≤ v.stop)

def debugFreeMemory : M Unit := do
  if (← get).freeInside then return () else throw .check

def logFreeMemory : M Unit := do
  if (← get).driver.verbose then debugFreeMemory else return ()

/-- `allocate` when neither the memory of the stream nor that of no stream has a large enough
region, up to the point where it starts again or asks for new memory. -/
def searchStreams (bytes : ℕ) (stream : Stream) : M Outcome := do
  logFreeMemory
  match ← tryStreams bytes stream (← get).streams.length with
  | some ptr => return .found ptr
  | none =>
    if ← freeStreamMemory bytes then
      return .retry
    else
      let moved ← (← get).pendingStreams.mapM fun s => freePending (.streamPending s)
      if moved.any id then
        return .retry
      else
        return .exhausted

/-- The part of `allocate` that looks for a region. -/
def searchAll (bytes : ℕ) (stream : Stream) : M Outcome := do
  getStreamFree stream
  match ← allocateFrom (.stream stream) bytes stream with
  | some ptr => return .found ptr
  | none =>
    getStreamPendingFree stream
    if ← freeSomePending (.streamPending stream) then
      return .retry
    else
      match ← allocateFrom .free bytes stream with
      | some ptr => return .found ptr
      | none =>
        if ← freeSomePending (.streamPending stream) then
          return .retry
        else if ← freePending (.streamPending stream) then
          return .retry
        else if ((← get).regions .pending).map ≠ [] then
          let _ ← freePending .pending
          return .retry
        else
          searchStreams bytes stream

/-- `allocate` up to the point where it starts again or asks for new memory. -/
def search (bytes : ℕ) (stream : Stream) : M Outcome := do
  drainDeallocations
  if bytes = 0 then throw .check else searchAll bytes stream

def totalBytes (spans : List Span) : ℕ := (spans.map Span.bytes).sum

/-- The error with what is mapped and free. -/
def State.outOfMemory (w : State) (bytes : ℕ) : Error :=
  let free := (w.regions .free).sizes ++ w.streams.flatMap fun s => (w.regions (.stream s)).sizes
  let nMapped := totalBytes w.mapped
  let nFree := (free.map Prod.fst).sum
  .outOfMemory bytes nMapped w.mapped.length (nMapped - nFree) nFree
    ((free.map Prod.fst).foldl max 0)

/-- `allocate`, with a bound on how often it starts again. -/
def allocateLoop (bytes : ℕ) (stream : Stream) : ℕ → M (Option ℕ)
  | 0 => return none
  | fuel + 1 => do
    match ← search bytes stream with
    | .found ptr => return some ptr
    | .retry => allocateLoop bytes stream fuel
    | .exhausted =>
      if ← mapMoreMemory bytes stream then
        allocateLoop bytes stream fuel
      else
        debugFreeMemory
        throw ((← get).outOfMemory bytes)

def alignment : ℕ := 0x100

def alignedBytes (bytes : ℕ) : ℕ :=
  max alignment ((bytes + alignment - 1) % 2 ^ 64 / alignment * alignment)

def State.usersOf (w : State) (a : Allocation) : List Stream :=
  a.stream :: (w.streamUses.lookup a.span.start).getD []

/-- The streams that may have put work on an allocation into their queues. -/
def State.recordedFor (w : State) (a : Allocation) : List Stream :=
  a.stream :: (w.recorded.filter fun x => x.1 = a).map Prod.snd

def State.release (w : State) (a : Allocation) : State :=
  { w with
    live := w.live.erase a
    recorded := w.recorded.filter fun x => x.1 ≠ a
    freed := ⟨a.span, w.recordedFor a, w.driver.log.length⟩ :: w.freed }

/-- Forget the streams noted for a pointer. -/
def State.eraseUses (w : State) (ptr : ℕ) : State :=
  { w with streamUses := w.streamUses.filter fun u => u.1 ≠ ptr }

def free (a : Allocation) : M Unit := do
  let users := (← get).usersOf a
  modify fun w => w.release a
  deallocate false a.span users
  modify fun w => w.eraseUses a.span.start

/-- Note that a stream uses the allocation at `ptr`. -/
def State.noteUse (w : State) (ptr : ℕ) (stream : Stream) : State :=
  let list := (w.streamUses.lookup ptr).getD []
  { w with
    streamUses := (ptr, list ++ [stream]) :: w.streamUses.filter fun u => u.1 ≠ ptr
    recorded :=
      ((w.live.filter fun a => a.span.start = ptr).map fun a => (a, stream)) ++ w.recorded }

def recordStream (ptr : ℕ) (stream : Stream) : M Unit := modify fun w => w.noteUse ptr stream

end CudaAllocator
