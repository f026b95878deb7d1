import Moodist.Foundation.LittleEndian
import Moodist.Store.Mesh

/-!
# One rank of the store

The state of one rank and its message handlers, above the links. A message that the source
hands to the sequence-numbered queue of an edge is appended to `outbox`; the link that
carries it to the neighbour is modelled in `Store.Link`.

The handlers of the source call each other: a message for this rank is processed inside the
call that sends it, and a message is preceded by the addresses of the rank that asked for
it. `Calls` are the handlers that such inner calls use, and `calls k` allows `k` levels.
-/

namespace Store

open Foundation
open Function (update)

variable {n : ℕ}

/-! ## Messages -/

abbrev Key := List UInt8

/-- A `std::vector<uint8_t>`, whose size fits `size_t`. -/
abbrev Value := { bytes : List UInt8 // bytes.length < 2 ^ 64 }

def Value.empty : Value := ⟨[], by norm_num⟩

/-- A vector as `serializeToBuffer` writes it: its size and its bytes. -/
def serializeValue (v : Value) : List UInt8 :=
  toLE 8 v.val.length ++ v.val

/-- Read a vector. `none` is a `SerializationError`. -/
def deserializeValue (view : List UInt8) : Option Value :=
  let len := ofLE (view.take 8)
  let rest := view.drop 8
  if h : 8 ≤ view.length ∧ len ≤ rest.length then
    some ⟨rest.take len, by
      have h8 : (view.take 8).length = 8 := by simp [h.1]
      have hlt := ofLE_lt (view.take 8)
      rw [h8] at hlt
      have hle : (rest.take len).length ≤ len := List.length_take_le _ _
      have h64 : (256 : ℕ) ^ 8 = 2 ^ 64 := by norm_num
      omega⟩
  else none

/-- The message types, with what follows the header. -/
inductive Body (n : ℕ) where
  | done (payload : List UInt8)
  | set (key : Key) (value : Value)
  | get (key : Key)
  | check (key : Key)
  | wait (key : Key)
  | shutdown (originRank : Fin n)
  | exit (originRank : Fin n)
  | exitAck
  | diagnosticSource (addrs : List String)
  deriving DecidableEq

/-- `MessageHeader` and the body. The sequence number belongs to the link. -/
structure Message (n : ℕ) where
  ttl : ℕ
  destinationRank : Fin n
  id : UInt32
  sourceRank : Fin n
  diagnosticSource : Fin n
  broadcast : Bool
  body : Body n
  deriving DecidableEq

/-! ## State -/

/-- The parts of `EdgeInfo` that the handlers use. -/
structure EdgeInfo (n : ℕ) where
  everConnected : Bool := false
  sentDiagnosticSourceFor : Fin n → Bool := fun _ => false
  broadcastForwardFor : Fin n → Bool := fun _ => false
  pendingBroadcasts : List (Fin n × Message n) := []

/-- Which message a blocked reader sent. -/
inductive ReadKind where
  | get
  | wait
  deriving DecidableEq

/-- The callback that `processMessage` passes to `internalStoreGetValue`. -/
structure Waiter (n : ℕ) where
  messageType : ReadKind
  sourceRank : Fin n
  id : UInt32
  diagnosticSource : Fin n
  deriving DecidableEq

/-- The object a client thread blocks on. -/
structure Wait where
  b : Bool := false
  data : Value := Value.empty
  futex : Bool := false
  error : Bool := false
  errorMessage : String := ""

def Wait.fresh : Wait := {}

/-- What a rank knows of the shutdown of another. -/
structure ShutdownState where
  shutdown : Bool := false
  exited : Bool := false
  exitAck : Bool := false

/-- What the specification follows: the broadcasts a rank starts, and the messages it
processes as its own. -/
inductive Event (n : ℕ) where
  | broadcast (body : Body n)
  | process (msg : Message n)
  deriving DecidableEq

/-- The state of `StoreImpl` above the links. `waits` refers to `waitObjects` by index, as
the source does by `SharedPtr`. `storeVersion` counts the changes of `store`: a
reference into the map is good as long as it stays the same. `trace` is not part of the
program. -/
structure Node (n : ℕ) where
  rank : Fin n
  firsthop : Fin n → Option (Fin n)
  edgePeers : List (Fin n)
  edgeInfo : Fin n → EdgeInfo n := fun _ => {}
  myUdpAddresses : List String := []
  diagnosticSources : Fin n → List String := fun _ => []
  waits : AList (fun _ : UInt32 => ℕ) := ∅
  waitObjects : List Wait := []
  store : AList (fun _ : Key => Value) := ∅
  storeVersion : ℕ := 0
  storeWaiters : AList (fun _ : Key => List (Waiter n)) := ∅
  shutdownStates : Fin n → ShutdownState := fun _ => {}
  shuttingDown : Bool := false
  exited : Bool := false
  exitSourceRank : Option (Fin n) := none
  outbox : List (Fin n × Message n) := []
  trace : List (Event n) := []

/-- `maxEdgePeers`. -/
def maxEdgePeers : ℕ := 4

/-- The constructor of `StoreImpl`, after `findPaths`. -/
def Node.create (rank : Fin n) (paths : Paths n) (myUdpAddresses : List String) :
    Except Fault (Node n) :=
  if (paths.edges rank).length ≤ maxEdgePeers then
    .ok { rank := rank, firsthop := paths.firsthop, edgePeers := paths.edges rank,
          myUdpAddresses := myUdpAddresses }
  else .error .tooManyPeers

namespace Node

def modifyEdge (nd : Node n) (edge : Fin n) (f : EdgeInfo n → EdgeInfo n) : Node n :=
  { nd with edgeInfo := update nd.edgeInfo edge (f (nd.edgeInfo edge)) }

def enqueue (nd : Node n) (edge : Fin n) (msg : Message n) : Node n :=
  { nd with outbox := nd.outbox ++ [(edge, msg)] }

def record (nd : Node n) (e : Event n) : Node n :=
  { nd with trace := nd.trace ++ [e] }

def modifyWait (nd : Node n) (w : ℕ) (f : Wait → Wait) : Node n :=
  { nd with waitObjects := nd.waitObjects.modify w f }

/-- The addresses that `ensureDiagnosticSourceSent` finds for a rank. -/
def diagnosticAddrs (nd : Node n) (diagnosticSource : Fin n) : List String :=
  if diagnosticSource = nd.rank then nd.myUdpAddresses
  else nd.diagnosticSources diagnosticSource

end Node

/-! ## Sending -/

/-- The handlers that a handler calls from within. -/
structure Calls (n : ℕ) where
  processMessage : Node n → Message n → Fin n → Except Fault (Node n)
  sendMessageTo : Node n → Fin n → UInt32 → Fin n → Body n → Except Fault (Node n)

/-- `ensureDiagnosticSourceSent`. -/
def ensureDiagnosticSourceSent (calls : Calls n) (nd : Node n) (edge diagnosticSource : Fin n) :
    Except Fault (Node n) :=
  if edge = nd.rank then .ok nd
  else if (nd.edgeInfo edge).sentDiagnosticSourceFor diagnosticSource then .ok nd
  else
    let nd := nd.modifyEdge edge fun pi =>
      { pi with sentDiagnosticSourceFor :=
          update pi.sentDiagnosticSourceFor diagnosticSource true }
    let addrs := nd.diagnosticAddrs diagnosticSource
    if addrs = [] then .ok nd
    else calls.sendMessageTo nd edge 0 diagnosticSource (.diagnosticSource addrs)

/-- `sendMessage`, up to the sequence number. -/
def sendMessage (calls : Calls n) (nd : Node n) (edge : Fin n) (msg : Message n)
    (diagnosticSource : Fin n) : Except Fault (Node n) :=
  if edge = nd.rank then calls.processMessage nd msg edge
  else do
    let nd ← ensureDiagnosticSourceSent calls nd edge diagnosticSource
    pure (nd.enqueue edge msg)

/-- `sendMessageTo`. Without a first hop, `getEdge` fails for the rank `worldSize`. -/
def sendMessageTo (calls : Calls n) (nd : Node n) (destinationRank : Fin n) (id : UInt32)
    (diagnosticSource : Fin n) (body : Body n) : Except Fault (Node n) :=
  match nd.firsthop destinationRank with
  | none => .error .noEdge
  | some edge =>
    let msg : Message n :=
      { ttl := n, destinationRank := destinationRank, id := id, sourceRank := nd.rank,
        diagnosticSource := diagnosticSource, broadcast := false, body := body }
    if edge = nd.rank then calls.processMessage nd msg edge
    else if edge ∈ nd.edgePeers then sendMessage calls nd edge msg diagnosticSource
    else .error .noEdge

/-! ## Broadcasts -/

/-- `broadcastMessage`. -/
def broadcastMessage (calls : Calls n) (nd : Node n) (body : Body n) :
    Except Fault (Node n) :=
  nd.edgePeers.foldlM
    (fun nd edge =>
      sendMessage calls nd edge
        { ttl := n, destinationRank := edge, id := 0, sourceRank := nd.rank,
          diagnosticSource := nd.rank, broadcast := true, body := body } nd.rank)
    (nd.record (.broadcast body))

/-- One iteration of the loop of `forwardBroadcast`. -/
def forwardBroadcastTo (calls : Calls n) (sourceRank : Fin n) (buffer : Message n)
    (senderEdge : Fin n) (nd : Node n) (edge : Fin n) : Except Fault (Node n) :=
  let pi := nd.edgeInfo edge
  if edge = senderEdge then .ok nd
  else if pi.everConnected && !pi.broadcastForwardFor sourceRank then .ok nd
  else
    let buffer := { buffer with destinationRank := edge }
    if !pi.everConnected then
      .ok (nd.modifyEdge edge fun pi =>
        { pi with pendingBroadcasts := pi.pendingBroadcasts ++ [(sourceRank, buffer)] })
    else sendMessage calls nd edge buffer nd.rank

/-- `forwardBroadcast`. -/
def forwardBroadcast (calls : Calls n) (nd : Node n) (sourceRank : Fin n) (original : Message n)
    (senderEdge : Fin n) : Except Fault (Node n) :=
  if original.ttl = 0 then .error .ttlZero
  else
    nd.edgePeers.foldlM
      (forwardBroadcastTo calls sourceRank { original with ttl := original.ttl - 1 } senderEdge)
      nd

/-- `replayPendingBroadcasts`. -/
def replayPendingBroadcasts (calls : Calls n) (nd : Node n) (edge : Fin n) :
    Except Fault (Node n) := do
  let nd ← (nd.edgeInfo edge).pendingBroadcasts.foldlM
    (fun nd pending =>
      if (nd.edgeInfo edge).broadcastForwardFor pending.1 then
        sendMessage calls nd edge pending.2 nd.rank
      else .ok nd)
    nd
  pure (nd.modifyEdge edge fun pi => { pi with pendingBroadcasts := [] })

/-- What `onreadtcp` does above the link when the handshake of a connection to `edge`
arrives: the neighbour announces the ranks that it reaches through this rank. -/
def onConnect (calls : Calls n) (nd : Node n) (edge : Fin n)
    (broadcastForwardRanks : List (Fin n)) : Except Fault (Node n) :=
  if edge ∈ nd.edgePeers then
    replayPendingBroadcasts calls
      (nd.modifyEdge edge fun pi =>
        { pi with
          everConnected := true
          broadcastForwardFor := fun r =>
            decide (r ∈ broadcastForwardRanks) || pi.broadcastForwardFor r })
      edge
  else .ok nd

/-! ## The key-value store -/

/-- The callback of a `get` or a `wait`. -/
def answerWaiter (calls : Calls n) (data : Value) (nd : Node n) (w : Waiter n) :
    Except Fault (Node n) :=
  match w.messageType with
  | .get => sendMessageTo calls nd w.sourceRank w.id w.diagnosticSource
      (.done (serializeValue data))
  | .wait => sendMessageTo calls nd w.sourceRank w.id w.diagnosticSource (.done [])

/-- `internalStoreSetValue`. -/
def internalStoreSetValue (calls : Calls n) (nd : Node n) (key : Key) (value : Value) :
    Except Fault (Node n) :=
  let nd := { nd with store := nd.store.insert key value, storeVersion := nd.storeVersion + 1 }
  match nd.storeWaiters.lookup key with
  | none => .ok nd
  | some vec => do
    let ref := nd.storeVersion
    let nd ← vec.foldlM (answerWaiter calls value)
      { nd with storeWaiters := nd.storeWaiters.erase key }
    if nd.storeVersion = ref then pure nd else throw .storeMoved

/-- `internalStoreGetValue`. -/
def internalStoreGetValue (calls : Calls n) (nd : Node n) (key : Key) (callback : Waiter n) :
    Except Fault (Node n) :=
  match nd.store.lookup key with
  | some data => answerWaiter calls data nd callback
  | none =>
    let vec := (nd.storeWaiters.lookup key).getD []
    .ok { nd with storeWaiters := nd.storeWaiters.insert key (vec ++ [callback]) }

/-- The result in a `messageDone`. The kinds of results are told apart by their size. -/
def readDone (payload : List UInt8) : Except Fault (Bool × Value) :=
  match payload with
  | [] => .ok (false, Value.empty)
  | [b] => .ok (b != 0, Value.empty)
  | payload =>
    match deserializeValue payload with
    | some value => .ok (false, value)
    | none => .error .endOfData

/-- `messageDone`. -/
def processDone (nd : Node n) (id : UInt32) (payload : List UInt8) : Except Fault (Node n) := do
  let (b, value) ← readDone payload
  match nd.waits.lookup id with
  | none => pure nd
  | some w =>
    let nd := nd.modifyWait w fun w => { w with b := b, data := value, futex := true }
    pure { nd with waits := nd.waits.erase id }

/-! ## Shutdown -/

/-- `exitWait`. -/
def exitWait (rank : Fin n) (exitSourceRank : Option (Fin n)) (w : Wait) : Wait :=
  { w with
    error := true
    errorMessage :=
      match exitSourceRank with
      | some origin =>
        if origin ≠ rank then "store was shut down on rank " ++ toString origin.val
        else "store was shut down"
      | none => "store was shut down"
    futex := true }

/-- `messageShutdown`. -/
def processShutdown (nd : Node n) (sourceRank originRank : Fin n) : Node n :=
  { nd with
    shutdownStates := update nd.shutdownStates sourceRank
      { nd.shutdownStates sourceRank with shutdown := true }
    exitSourceRank := nd.exitSourceRank.or (some originRank) }

/-- What the first `messageExit` changes on a rank: all blocked clients are released. -/
def Node.enterExit (nd : Node n) (originRank : Fin n) : Node n :=
  let nd := { nd with
    exitSourceRank :=
      if !nd.shuttingDown && nd.exitSourceRank.isNone then some originRank
      else nd.exitSourceRank
    exited := true }
  nd.waits.entries.foldl
    (fun nd e => nd.modifyWait e.2 (exitWait nd.rank nd.exitSourceRank)) nd

/-- `messageExit`. -/
def processExit (calls : Calls n) (nd : Node n) (sourceRank originRank : Fin n) :
    Except Fault (Node n) :=
  let nd := { nd with
    shutdownStates := update nd.shutdownStates sourceRank
      { nd.shutdownStates sourceRank with exited := true } }
  if nd.exited then .ok nd
  else broadcastMessage calls (nd.enterExit originRank) (.exit originRank)

/-- `messageExitAck`. -/
def processExitAck (nd : Node n) (sourceRank : Fin n) : Node n :=
  { nd with
    shutdownStates := update nd.shutdownStates sourceRank
      { nd.shutdownStates sourceRank with exitAck := true } }

/-! ## Dispatch -/

/-- The branches of `processMessage` for a message that has arrived. -/
def processBody (calls : Calls n) (nd : Node n) (msg : Message n) : Except Fault (Node n) :=
  match msg.body with
  | .set key value => do
    let nd ← internalStoreSetValue calls nd key value
    sendMessageTo calls nd msg.sourceRank msg.id msg.diagnosticSource (.done [])
  | .done payload => processDone nd msg.id payload
  | .get key =>
    internalStoreGetValue calls nd key ⟨.get, msg.sourceRank, msg.id, msg.diagnosticSource⟩
  | .wait key =>
    internalStoreGetValue calls nd key ⟨.wait, msg.sourceRank, msg.id, msg.diagnosticSource⟩
  | .check key =>
    let r : UInt8 := if (nd.store.lookup key).isSome then 1 else 0
    sendMessageTo calls nd msg.sourceRank msg.id msg.diagnosticSource (.done [r])
  | .shutdown originRank => .ok (processShutdown nd msg.sourceRank originRank)
  | .exit originRank => processExit calls nd msg.sourceRank originRank
  | .exitAck => .ok (processExitAck nd msg.sourceRank)
  | .diagnosticSource addrs =>
    .ok { nd with
      diagnosticSources := update nd.diagnosticSources msg.diagnosticSource addrs }

/-- `processMessage`. -/
def processMessage (calls : Calls n) (nd : Node n) (msg : Message n) (edgeRank : Fin n) :
    Except Fault (Node n) :=
  if msg.destinationRank ≠ nd.rank then
    if msg.ttl = 0 then .error .ttlZero
    else
      match nd.firsthop msg.destinationRank with
      | none => .error .noFirstHop
      | some edge =>
        if edge ∈ nd.edgePeers then
          sendMessage calls nd edge { msg with ttl := msg.ttl - 1 } msg.diagnosticSource
        else .error .noEdge
  else do
    let nd := nd.record (.process msg)
    let nd ← if msg.broadcast then forwardBroadcast calls nd msg.sourceRank msg edgeRank
      else pure nd
    processBody calls nd msg

/-- The handlers, with `k` levels of calls below them. -/
def calls : ℕ → Calls n
  | 0 => ⟨fun _ _ _ => .error .callDepth, fun _ _ _ _ _ => .error .callDepth⟩
  | k + 1 => ⟨processMessage (calls k), sendMessageTo (calls k)⟩

abbrev handlers : Calls n := calls 2

/-- What `onreadtcp` does with the next message of the link from `edgeRank`. -/
def receive (nd : Node n) (msg : Message n) (edgeRank : Fin n) : Except Fault (Node n) :=
  if msg.ttl = 0 then .error .ttlZero else processMessage handlers nd msg edgeRank

/-! ## Client operations -/

/-- `stringHash`. -/
def stringHash (s : List UInt8) : UInt32 :=
  s.foldl (fun r x => r * 42643801 + x.toUInt32) 524287 % 2147483647

/-- `storeRank`. `r` is any rank; it only shows that there is one. -/
def storeRank (r : Fin n) (key : Key) : Fin n :=
  ⟨(stringHash key).toNat % n, Nat.mod_lt _ r.pos⟩

/-- The client operations. -/
inductive Op where
  | set (value : Value)
  | get
  | check
  | wait
  deriving DecidableEq

def Op.body (n : ℕ) (op : Op) (key : Key) : Body n :=
  match op with
  | .set value => .set key value
  | .get => .get key
  | .check => .check key
  | .wait => .wait key

/-- `doWaitOp`, which returns the object to wait on. `id` is what the thread has taken from
the counter `nextId` before it locked the mutex. -/
def doWaitOp (nd : Node n) (id : UInt32) (op : Op) (key : Key) : Except Fault (Node n × ℕ) :=
  let r := storeRank nd.rank key
  let w := nd.waitObjects.length
  let nd := { nd with waitObjects := nd.waitObjects ++ [Wait.fresh] }
  match nd.firsthop r with
  | none => .error .noFirstHop
  | some _ =>
    if nd.exited then .ok (nd.modifyWait w (exitWait nd.rank nd.exitSourceRank), w)
    else do
      let nd ← sendMessageTo handlers { nd with waits := nd.waits.insert id w } r id nd.rank
        (op.body n key)
      pure (nd, w)

end Store
