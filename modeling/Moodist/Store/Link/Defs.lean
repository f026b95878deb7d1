import Mathlib

/-!
# The link between two neighbours

Two neighbouring ranks open TCP connections to each other, from either side and as often as
they like. A connection is used once the handshake on it has been accepted; messages carry
sequence numbers, are kept until they are acknowledged, and are written again on every new
connection.

The two ends of the edge and its connections form a state machine. Its steps are the calls of
`sendMessage`, the reads of a frame by `onreadtcp`, and what happens to connections: a rank opens
one, an end closes one, and of the frames on the way to a closed end only the first few are
still read. The calls of `sendMessage` that a handler makes are steps that follow the step of
the handler, since all they touch is the outgoing side of an edge; only those of
`replayPendingBroadcasts` have a place of their own, between the registration of a connection
and what is written on it.

Sequence numbers are counted without bound, and the code sees their remainders modulo `2 ^ 32`:
every test on them goes through `seqDiff`.
-/

namespace Store.Link

open Function (update)

/-! ## State -/

/-- The two ends of an edge. -/
inductive Side where
  | left
  | right
  deriving DecidableEq

def Side.other : Side → Side
  | .left => .right
  | .right => .left

/-- `(int32_t)(a - b)` for the `uint32_t` remainders of two sequence numbers. -/
def seqDiff (a b : ℕ) : ℤ :=
  (BitVec.ofNat 32 a - BitVec.ofNat 32 b).toInt

/-- What is written on a connection, by the signature of the buffer. `R` is the type of ranks
and `M` that of the buffers handed to `sendMessage`. -/
inductive Frame (R M : Type) where
  | connect (broadcastForwardRanks : List R)
  | connectAck (broadcastForwardRanks : List R)
  | message (seq : ℕ) (buffer : M)
  | messageAck (seq : ℕ)
  deriving DecidableEq

/-- The `EdgeInfo` that one end keeps for the other. The last two fields are not in the code:
the buffers passed to `sendMessage`, and those handed to `processMessage`. -/
structure EdgeInfo (R M : Type) where
  everConnected : Bool := false
  broadcastForwardFor : R → Bool := fun _ => false
  pendingBroadcasts : List (R × M) := []
  tcpconnections : List ℕ := []
  incomingSeq : ℕ := 0
  outgoingSeq : ℕ := 0
  outgoingQueue : List (ℕ × M) := []
  incomingQueue : List (ℕ × M) := []
  sent : List M := []
  processed : List M := []

/-- A connection: which end opened it, for each end whether it has closed the connection and
whether the `sourceRank` of its `ConnectionInfo` is set, and the frames that the end has
written and the other end has not yet read. -/
structure Connection (R M : Type) where
  opener : Option Side := none
  closed : Side → Bool := fun _ => false
  hasSourceRank : Side → Bool := fun _ => false
  written : Side → List (Frame R M) := fun _ => []

/-- The two ends and the connections between them. -/
structure State (R M : Type) where
  ends : Side → EdgeInfo R M := fun _ => {}
  connections : ℕ → Connection R M := fun _ => {}

variable {R M : Type}

/-- Neither end has closed the connection. -/
def Connection.Alive (c : Connection R M) : Prop :=
  ∀ e, c.closed e = false

instance Connection.decidableAlive (c : Connection R M) : Decidable c.Alive :=
  decidable_of_iff (c.closed .left = false ∧ c.closed .right = false)
    ⟨fun h e => by cases e; exacts [h.1, h.2], fun h => ⟨h .left, h .right⟩⟩

/-- `Connection::write`, one call for each of the frames. What is written on a connection that
an end has closed does not arrive. -/
def Connection.write (c : Connection R M) (e : Side) (frames : List (Frame R M)) :
    Connection R M :=
  if c.Alive then
    { c with written := update c.written e (c.written e ++ frames) }
  else c

/-- `Connection::close`, called by one end. -/
def Connection.close (c : Connection R M) (e : Side) : Connection R M :=
  { c with closed := update c.closed e true }

/-- The end `e` has read the next frame. -/
def Connection.pop (c : Connection R M) (e : Side) : Connection R M :=
  { c with written := update c.written e.other (c.written e.other).tail }

/-- `ci->sourceRank` is set. -/
def Connection.setSourceRank (c : Connection R M) (e : Side) : Connection R M :=
  { c with hasSourceRank := update c.hasSourceRank e true }

/-- Changes what one end keeps. -/
def State.modifyEnd (s : State R M) (e : Side) (f : EdgeInfo R M → EdgeInfo R M) : State R M :=
  { s with ends := update s.ends e (f (s.ends e)) }

def State.modifyConnection (s : State R M) (i : ℕ) (f : Connection R M → Connection R M) :
    State R M :=
  { s with connections := update s.connections i (f (s.connections i)) }

/-! ## Sending -/

/-- A message takes the next sequence number and its place in `outgoingQueue`. -/
def EdgeInfo.enqueue (pi : EdgeInfo R M) (buffer : M) : EdgeInfo R M :=
  { pi with
    outgoingSeq := pi.outgoingSeq + 1
    outgoingQueue := pi.outgoingQueue ++ [(pi.outgoingSeq, buffer)]
    sent := pi.sent ++ [buffer] }

/-- `sendMessage` to the other end. The message of `ensureDiagnosticSourceSent` is one of its
own. -/
def sendMessage (s : State R M) (e : Side) (buffer : M) : State R M :=
  let pi := s.ends e
  let s := s.modifyEnd e (·.enqueue buffer)
  match pi.tcpconnections with
  | [] => s
  | ci :: _ => s.modifyConnection ci (·.write e [.message pi.outgoingSeq buffer])

/-- `replayPendingBroadcasts`. -/
def replayPendingBroadcasts (s : State R M) (e : Side) : State R M :=
  let pi := s.ends e
  let s := pi.pendingBroadcasts.foldl
    (fun s pending =>
      if pi.broadcastForwardFor pending.1 then sendMessage s e pending.2 else s) s
  s.modifyEnd e fun pi => { pi with pendingBroadcasts := [] }

/-- What `forwardBroadcast` does with an edge that has never been connected. -/
def EdgeInfo.postpone (pi : EdgeInfo R M) (sourceRank : R) (buffer : M) : EdgeInfo R M :=
  if pi.everConnected then pi
  else { pi with pendingBroadcasts := pi.pendingBroadcasts ++ [(sourceRank, buffer)] }

/-! ## Receiving -/

/-- `processMessage` takes the next message. -/
def EdgeInfo.process (pi : EdgeInfo R M) (buffer : M) : EdgeInfo R M :=
  { pi with incomingSeq := pi.incomingSeq + 1, processed := pi.processed ++ [buffer] }

/-- The loop over the sorted `incomingQueue`. -/
def EdgeInfo.drain (pi : EdgeInfo R M) : List (ℕ × M) → EdgeInfo R M
  | [] => { pi with incomingQueue := [] }
  | v :: queue =>
    if seqDiff v.1 pi.incomingSeq < 0 then pi.drain queue
    else if seqDiff v.1 pi.incomingSeq ≠ 0 then { pi with incomingQueue := v :: queue }
    else (pi.process v.2).drain queue

/-- What `onreadtcp` does with a message after it has acknowledged it. -/
def EdgeInfo.receive (pi : EdgeInfo R M) (seq : ℕ) (buffer : M) : EdgeInfo R M :=
  if 0 ≤ seqDiff seq pi.incomingSeq then
    if seqDiff seq pi.incomingSeq = 0 then
      let pi := pi.process buffer
      pi.drain <| pi.incomingQueue.mergeSort fun a b =>
        seqDiff a.1 pi.incomingSeq ≤ seqDiff b.1 pi.incomingSeq
    else { pi with incomingQueue := pi.incomingQueue ++ [(seq, buffer)] }
  else pi

/-- The loop that takes an acknowledged message out of `outgoingQueue`. -/
def EdgeInfo.acknowledge (pi : EdgeInfo R M) (seq : ℕ) : EdgeInfo R M :=
  { pi with outgoingQueue := pi.outgoingQueue.eraseP fun v => seqDiff v.1 seq = 0 }

/-- A connection is registered, and the other end says for which ranks it wants broadcasts. -/
def EdgeInfo.register [DecidableEq R] (pi : EdgeInfo R M) (ci : ℕ)
    (broadcastForwardRanks : List R) : EdgeInfo R M :=
  { pi with
    tcpconnections := pi.tcpconnections ++ [ci]
    everConnected := true
    broadcastForwardFor := fun r =>
      decide (r ∈ broadcastForwardRanks) || pi.broadcastForwardFor r }

def messages (queue : List (ℕ × M)) : List (Frame R M) :=
  queue.map fun v => .message v.1 v.2

section Handlers

variable [DecidableEq R]

/-- `onreadtcp` for the two frames of the handshake; `reply` is what is written between the
pending broadcasts and the queue. -/
def onConnect (s : State R M) (e : Side) (ci : ℕ) (broadcastForwardRanks : List R)
    (reply : List (Frame R M)) : State R M :=
  if (s.ends e).tcpconnections ≠ [] then s.modifyConnection ci (·.close e)
  else
    let s := s.modifyConnection ci (·.setSourceRank e)
    let s := s.modifyEnd e (·.register ci broadcastForwardRanks)
    let s := replayPendingBroadcasts s e
    let s := s.modifyConnection ci (·.write e reply)
    s.modifyConnection ci (·.write e (messages (s.ends e).outgoingQueue))

/-- `onreadtcp` for a message. -/
def onMessage (s : State R M) (e : Side) (ci : ℕ) (seq : ℕ) (buffer : M) : State R M :=
  if (s.connections ci).hasSourceRank e then
    let s := s.modifyConnection ci (·.write e [.messageAck seq])
    s.modifyEnd e (·.receive seq buffer)
  else s

/-- `onreadtcp` for an acknowledgement. The result is `none` when the `CHECK` on `sourceRank`
fails. -/
def onMessageAck (s : State R M) (e : Side) (ci : ℕ) (seq : ℕ) : Option (State R M) :=
  if (s.connections ci).hasSourceRank e then some (s.modifyEnd e (·.acknowledge seq))
  else none

/-- `onreadtcp` at the end `e`, for a frame of the connection `ci`; `forwardRanks` is
`getBroadcastForwardRanks` of the two ends. -/
def onreadtcp (forwardRanks : Side → List R) (s : State R M) (e : Side) (ci : ℕ) :
    Frame R M → Option (State R M)
  | .connect ranks => some (onConnect s e ci ranks [.connectAck (forwardRanks e)])
  | .connectAck ranks => some (onConnect s e ci ranks [])
  | .message seq buffer => some (onMessage s e ci seq buffer)
  | .messageAck seq => onMessageAck s e ci seq

/-- `reaptcpconnections`. -/
def reaptcpconnections (s : State R M) (e : Side) : State R M :=
  s.modifyEnd e fun pi =>
    { pi with
      tcpconnections := pi.tcpconnections.filter fun i => !(s.connections i).closed e }

/-- The callback of `connectEdge`: a new connection, with the handshake written on it. -/
def connectEdge (forwardRanks : Side → List R) (s : State R M) (e : Side) (ci : ℕ) :
    State R M :=
  if (s.ends e).tcpconnections ≠ [] ∨ (s.connections ci).opener ≠ none then s
  else s.modifyConnection ci fun _ =>
    { opener := some e
      written := update (fun _ => []) e [.connect (forwardRanks e)] }

/-! ## Steps -/

/-- What can happen on the edge. An end closes a connection for many reasons: the other end has,
the network fails, no keepalive comes back. `lose` fixes how many of the frames on the way
to a closed end it has read before. -/
inductive Action (R M : Type) where
  | send (e : Side) (buffer : M)
  | postpone (e : Side) (sourceRank : R) (buffer : M)
  | connect (e : Side) (ci : ℕ)
  | read (e : Side) (ci : ℕ)
  | close (e : Side) (ci : ℕ)
  | lose (e : Side) (ci : ℕ) (kept : ℕ)
  | reap (e : Side)

/-- The frame that the end `e` reads next on a connection. -/
def State.next? (s : State R M) (e : Side) (ci : ℕ) : Option (Frame R M) :=
  ((s.connections ci).written e.other).head?

/-- The read callback of a connection. -/
def readFrame (forwardRanks : Side → List R) (s : State R M) (e : Side) (ci : ℕ) :
    Option (State R M) :=
  match s.next? e ci with
  | none => some s
  | some frame => onreadtcp forwardRanks (s.modifyConnection ci (·.pop e)) e ci frame

/-- Of the frames on the way to a closed end, the first ones are left. -/
def Connection.lose (c : Connection R M) (e : Side) (kept : ℕ) : Connection R M :=
  if c.closed e then
    { c with written := update c.written e.other ((c.written e.other).take kept) }
  else c

def step (forwardRanks : Side → List R) (s : State R M) : Action R M → Option (State R M)
  | .send e buffer => some (sendMessage s e buffer)
  | .postpone e sourceRank buffer => some (s.modifyEnd e (·.postpone sourceRank buffer))
  | .connect e ci => some (connectEdge forwardRanks s e ci)
  | .read e ci => readFrame forwardRanks s e ci
  | .close e ci => some (s.modifyConnection ci (·.close e))
  | .lose e ci kept => some (s.modifyConnection ci (·.lose e kept))
  | .reap e => some (reaptcpconnections s e)

/-- A run of the edge: the states it goes through and the steps it takes. -/
structure Execution (forwardRanks : Side → List R) (M : Type) where
  state : ℕ → State R M
  action : ℕ → Action R M
  start : state 0 = {}
  next : ∀ t, step forwardRanks (state t) (action t) = some (state (t + 1))

end Handlers

end Store.Link
