import Mathlib

/-!
# Receiving messages

Model of `header`, `onRecv`, `postRecv` and `initReceives` of `core/cputhread.cc`. The messages of
a source carry consecutive 32-bit sequence numbers. The fabric delivers them to the receives posted
on any device, in any order; a message that comes too early is kept in a queue sorted by how far
its number is ahead of the expected one. A device may complete a receive while it is being posted,
and `postRecv` then calls `onRecv` again.
-/

namespace Transport

open Function (update)

/-! ## Messages -/

inductive OpType where
  | queuePut
  | queueReadFinished
  | queueGet
  | queueTransaction
  | createQueueNamed
  | createQueueNamedResult
  | messageShutdown
  deriving DecidableEq, Repr

variable {β : Type*}

/-- A buffer: the header, and what follows it. -/
structure Packet (β : Type*) where
  type : OpType
  source : ℕ
  seqid : UInt32
  view : β
  deriving DecidableEq, Repr

/-- The messages of one source. `sent` and `handled` record what was sent and for which messages
the handlers have run; `inFlight` is in the hands of the fabric. -/
structure Link (β : Type*) where
  outgoingSeqId : UInt32
  sent : List (OpType × β)
  inFlight : List (Packet β)
  incomingSeqId : UInt32
  incomingSeqQueued : List (UInt32 × Packet β)
  handled : List (OpType × β)

/-- `posted` and `callbacks` count, for each device, the posted receives and the callbacks that
will post one. -/
structure State (β : Type*) where
  links : ℕ → Link β
  posted : ℕ → ℕ
  callbacks : ℕ → ℕ
  receivesInitialized : Bool

def init : State β where
  links _ := ⟨0, [], [], 0, [], []⟩
  posted _ := 0
  callbacks _ := 0
  receivesInitialized := false

def State.setLink (w : State β) (source : ℕ) (l : Link β) : State β :=
  { w with links := update w.links source l }

/-- A message is sent, with the next number. -/
def Link.send (l : Link β) (source : ℕ) (type : OpType) (view : β) : Link β :=
  { l with
    outgoingSeqId := l.outgoingSeqId + 1
    sent := l.sent ++ [(type, view)]
    inFlight := l.inFlight ++ [⟨type, source, l.outgoingSeqId, view⟩] }

/-! ## Receiving -/

/-- The place is that of `lower_bound`, by how far a number is ahead of the expected one. -/
def emplace (expectedSeqId seqid : UInt32) (buffer : Packet β) (queue : List (UInt32 × Packet β)) :
    List (UInt32 × Packet β) :=
  queue.takeWhile (fun a => a.1 - expectedSeqId < seqid - expectedSeqId) ++ (seqid, buffer) ::
    queue.dropWhile (fun a => a.1 - expectedSeqId < seqid - expectedSeqId)

/-- The handler for a message runs. -/
def Link.handle (l : Link β) (buffer : Packet β) : Link β :=
  { l with
    incomingSeqId := l.incomingSeqId + 1
    handled := l.handled ++ [(buffer.type, buffer.view)] }

/-- The rest of the loop of `onRecv`, from the test whether the queue is empty. -/
def Link.drainLoop (source : ℕ) : List (UInt32 × Packet β) → Link β → Option (Link β)
  | [], l => some { l with incomingSeqQueued := [] }
  | x :: queue, l =>
    if x.1 ≠ l.incomingSeqId then
      some { l with incomingSeqQueued := x :: queue }
    else if x.2.source = source ∧ x.2.seqid = l.incomingSeqId then
      Link.drainLoop source queue (l.handle x.2)
    else
      none

def Link.drain (source : ℕ) (l : Link β) : Option (Link β) :=
  Link.drainLoop source l.incomingSeqQueued l

/-- A message that comes too early is kept, and a callback will post another receive. -/
def State.keep (w : State β) (dev : ℕ) (buffer : Packet β) : State β :=
  let l := w.links buffer.source
  { w.setLink buffer.source { l with
      incomingSeqQueued := emplace l.incomingSeqId buffer.seqid buffer l.incomingSeqQueued } with
    callbacks := update w.callbacks dev (w.callbacks dev + 1) }

/-- `repost` is the call of `postRecv` with the buffer of the message. -/
def onRecv (size : ℕ) (repost : State β → Option (State β)) (dev : ℕ) (buffer : Packet β)
    (w : State β) : Option (State β) :=
  if buffer.source < size then
    if buffer.seqid ≠ (w.links buffer.source).incomingSeqId then
      some (w.keep dev buffer)
    else
      (repost (w.setLink buffer.source ((w.links buffer.source).handle buffer))).bind fun w' =>
        ((w'.links buffer.source).drain buffer.source).map (w'.setLink buffer.source)
  else
    none

/-- A message the fabric picks: its source, and which of the messages in flight it is. -/
structure Choice where
  source : ℕ
  index : ℕ
  deriving DecidableEq, Repr

/-- The fabric writes a message to the buffer of a receive. -/
def State.arrive (w : State β) (c : Choice) : Option (Packet β × State β) :=
  let l := w.links c.source
  l.inFlight[c.index]?.map fun buffer =>
    (buffer, w.setLink c.source { l with inFlight := l.inFlight.eraseIdx c.index })

/-- `cs` are the messages that arrive at once, for this receive and those posted meanwhile. -/
def postRecv (size : ℕ) (dev : ℕ) : List Choice → State β → Option (State β)
  | [], w => some { w with posted := update w.posted dev (w.posted dev + 1) }
  | c :: cs, w =>
    match w.arrive c with
    | none => some { w with posted := update w.posted dev (w.posted dev + 1) }
    | some (buffer, w') => onRecv size (postRecv size dev cs) dev buffer w'

def maxSrqEntries : ℕ := 256

/-- `cs di i` are the messages that arrive while the `i`-th receive of a device is posted. -/
def initReceives (size devices : ℕ) (cs : ℕ → ℕ → List Choice) (w : State β) :
    Option (State β) :=
  if w.receivesInitialized then
    some w
  else
    (List.range devices).foldlM (fun w di =>
      (List.range maxSrqEntries).foldlM (fun w i => postRecv size di (cs di i) w) w)
      { w with receivesInitialized := true }

/-! ## Events -/

inductive Event (β : Type*) where
  /-- A source sends a message. -/
  | send (source : ℕ) (type : OpType) (view : β)
  | initReceives (cs : ℕ → ℕ → List Choice)
  /-- A posted receive completes. -/
  | recv (dev : ℕ) (c : Choice) (cs : List Choice)
  /-- A callback posts a receive. -/
  | callback (dev : ℕ) (cs : List Choice)

def perform (size devices : ℕ) (w : State β) : Event β → Option (State β)
  | .send source type view => some (w.setLink source ((w.links source).send source type view))
  | .initReceives cs => initReceives size devices cs w
  | .recv dev c cs =>
    (w.arrive c).bind fun a =>
      onRecv size (postRecv size dev cs) dev a.1
        { a.2 with posted := update w.posted dev (w.posted dev - 1) }
  | .callback dev cs =>
    postRecv size dev cs
      { w with callbacks := update w.callbacks dev (w.callbacks dev - 1) }

/-- Fewer than `2 ^ 31` messages of a source are outstanding. -/
def Event.Legal (size : ℕ) (w : State β) : Event β → Prop
  | .send source _ _ =>
    source < size ∧ (w.links source).sent.length + 1 < (w.links source).handled.length + 2 ^ 31
  | .initReceives _ => True
  | .recv dev c _ => 0 < w.posted dev ∧ c.index < (w.links c.source).inFlight.length
  | .callback dev _ => 0 < w.callbacks dev

instance Event.decidableLegal (size : ℕ) (w : State β) (e : Event β) :
    Decidable (e.Legal size w) := by
  cases e <;>
  · rw [Event.Legal]
    infer_instance

inductive Reachable (size devices : ℕ) : State β → Prop
  | init : Reachable size devices init
  | step {w w' : State β} (h : Reachable size devices w) (e : Event β) (hlegal : e.Legal size w)
      (hperform : perform size devices w e = some w') : Reachable size devices w'

/-! ## What should hold between two events -/

def packets (source : ℕ) (sent : List (OpType × β)) : List (Packet β) :=
  sent.mapIdx fun k m => ⟨m.1, source, UInt32.ofNat k, m.2⟩

/-- Handlers have run in the order of sending, once for each message and as far as the messages
have arrived; the other messages are in flight or kept, as they were sent. -/
structure Link.Delivered (source : ℕ) (l : Link β) : Prop where
  order : l.handled <+: l.sent
  intact : (l.inFlight ++ l.incomingSeqQueued.map Prod.snd).Perm
    ((packets source l.sent).drop l.handled.length)
  settled : ∀ p ∈ (packets source l.sent)[l.handled.length]?, p ∈ l.inFlight
  all : l.inFlight = [] → l.handled = l.sent ∧ l.incomingSeqQueued = []

/-- The number of receives of a device, posted or to be. -/
def entries (devices : ℕ) (w : State β) (dev : ℕ) : ℕ :=
  if w.receivesInitialized = true ∧ dev < devices then maxSrqEntries else 0

def Balanced (devices : ℕ) (w : State β) : Prop :=
  ∀ dev, w.posted dev + w.callbacks dev = entries devices w dev

structure Delivered (size devices : ℕ) (w : State β) : Prop where
  links : ∀ source, (w.links source).Delivered source
  receives : Balanced devices w
  /-- No check fails. -/
  checks : ∀ e : Event β, e.Legal size w → (perform size devices w e).isSome

end Transport
