import Moodist.Foundation.LittleEndian
import Moodist.Socket.WriteQueue

/-!
# Reading messages from a connection

Model of `CachedReader` of `core/socket.h`, of `Connection::write`, `ReadState` and `inread_iovec`
of `core/connection.cc`, and of `readv` of `core/socket.cc` for a stream. The kernel gives any
number of the bytes that have been written and not read, or none. If `readv` has no room for a byte
and bytes are pending, the kernel returns zero, which `readv` takes for the end of the connection.

What the callback of a message does depends on the message: `want` says whether it reads a payload
into its own memory with `inread_iovec`, and how many bytes. Of the cache only the bytes that have
not been consumed are kept, with the place where they begin.

Main definitions: `CachedReader`, `Step`, `Framed`, `EmptyRead`. Main results: `framed_iff`, for all
runs of the reader, and `connection_delivers`, for both ends.
-/

namespace Socket.Reader

open Foundation List

/-! ## The cache -/

/-- An `iovec` that is read into: the bytes that have come, and the room that is left. -/
structure Target where
  received : List UInt8
  iovLen : ℕ

/-- `unread` are the bytes of the cache from `bufferOffset` to `bufferFilled`. The last element of
`iovecs` in the source is the rest of the cache; it is not in the list here. -/
structure CachedReader where
  iovecs : List Target := []
  iovecsOffset : ℕ := 0
  bufferOffset : ℕ := 0
  unread : List UInt8 := []
  bufferSize : ℕ := 0

open CachedReader

def maxBufferSize : ℕ := 256 * 1024

/-- The loop of `startRead`: what is left in the cache, the targets, and how many of them are
complete. -/
def copyOut : List UInt8 → List Target → ℕ → List UInt8 × List Target × ℕ
  | unread, [], offset => (unread, [], offset)
  | unread, v :: vs, offset =>
    let n := min unread.length v.iovLen
    let v' : Target := ⟨v.received ++ unread.take n, v.iovLen - n⟩
    let offset' := if v'.iovLen = 0 then offset + 1 else offset
    if unread.length - n = 0 then ([], v' :: vs, offset')
    else
      let (unread', vs', offset'') := copyOut (unread.drop n) vs offset'
      (unread', v' :: vs', offset'')

/-- The loop of `done` over the targets that are not complete, with the bytes of `readv`: the
targets, how many more are complete, and the bytes for the cache, if the loop gets there. -/
def scatter : List UInt8 → List Target → List Target × ℕ × Option (List UInt8)
  | data, [] => ([], 0, some data)
  | data, v :: vs =>
    if v.iovLen ≤ data.length then
      let v' : Target := ⟨v.received ++ data.take v.iovLen, 0⟩
      if data.length - v.iovLen = 0 then (v' :: vs, 1, if vs.isEmpty then some [] else none)
      else
        let (vs', k, rest) := scatter (data.drop v.iovLen) vs
        (v' :: vs', k + 1, rest)
    else
      (⟨v.received ++ data, v.iovLen - data.length⟩ :: vs, 0, none)

namespace CachedReader

def bufferFilled (r : CachedReader) : ℕ := r.bufferOffset + r.unread.length

/-- `newRead`, `addIovec` for the targets, and `startRead`. -/
def startRead (r : CachedReader) (targets : List Target) : CachedReader :=
  if r.unread = [] then
    { r with iovecs := targets, iovecsOffset := 0 }
  else
    let (unread', vs, offset) := copyOut r.unread targets 0
    { r with
      iovecs := vs
      iovecsOffset := offset
      unread := unread'
      bufferOffset :=
        if unread' = [] then 0 else r.bufferOffset + (r.unread.length - unread'.length) }

/-- The bytes that `readv` has room for. -/
def room (r : CachedReader) : ℕ :=
  ((r.iovecs.drop r.iovecsOffset).map Target.iovLen).sum + (r.bufferSize - r.bufferFilled)

/-- `done` returns without a call of `readv`. -/
def complete (r : CachedReader) : Bool :=
  r.iovecsOffset ≠ 0 && r.iovecsOffset = r.iovecs.length

/-- The size of the cache after so many bytes have been read into it. -/
def grow (r : CachedReader) (n : ℕ) : ℕ :=
  if r.bufferFilled + n = r.bufferSize ∧ r.bufferSize < maxBufferSize then
    max (min (r.bufferSize * 2) maxBufferSize) 4096
  else r.bufferSize

/-- `done` after `readv` has got the bytes. -/
def done (r : CachedReader) (data : List UInt8) : CachedReader × Bool :=
  let (vs, k, rest) := scatter data (r.iovecs.drop r.iovecsOffset)
  let r' : CachedReader :=
    { r with iovecs := r.iovecs.take r.iovecsOffset ++ vs, iovecsOffset := r.iovecsOffset + k }
  match rest with
  | some rest => ({ r' with unread := r.unread ++ rest, bufferSize := r.grow rest.length }, true)
  | none => (r', false)

/-- The first lines of `readBufferPointer` when the cache has too few bytes. -/
def reserve (r : CachedReader) (len : ℕ) : CachedReader :=
  if r.bufferSize < r.bufferOffset + len then
    { r with bufferSize := max (r.bufferOffset + len) (r.bufferSize + r.bufferSize / 2) }
  else r

/-- `bufferOffset += len` -/
def skip (r : CachedReader) (len : ℕ) : CachedReader :=
  { r with bufferOffset := r.bufferOffset + len, unread := r.unread.drop len }

def resetIfEmpty (r : CachedReader) : CachedReader :=
  if r.unread = [] then { r with bufferOffset := 0 } else r

def bytes (r : CachedReader) : List UInt8 := r.iovecs.flatMap Target.received

end CachedReader

/-! ## Messages -/

def sigSocketData : ℕ := 0x40ea69f4

def sigSocketDataFd : ℕ := 0xf555d4e4

/-- A message that `Connection::write` accepts, and whose receiver asks for the payload. -/
structure Message (want : List UInt8 → Option ℕ) where
  header : List UInt8
  payload : Option (List UInt8)
  ne_nil : header ≠ []
  lt : header.length < 2 ^ 32
  wanted : want header = payload.map length

namespace Message

variable {want : List UInt8 → Option ℕ}

/-- `serializeToBuffer(sigSocketData, size)` -/
def start (m : Message want) : List UInt8 := toLE 4 sigSocketData ++ toLE 4 m.header.length

def extra (m : Message want) : List UInt8 := m.payload.getD []

def bytes (m : Message want) : List UInt8 := m.start ++ (m.header ++ m.extra)

end Message

inductive Delivery where
  | header (bytes : List UInt8)
  | payload (bytes : List UInt8)

variable {want : List UInt8 → Option ℕ}

def encode (messages : List (Message want)) : List UInt8 := messages.flatMap Message.bytes

def deliveries (messages : List (Message want)) : List Delivery :=
  messages.flatMap fun m => .header m.header :: (m.payload.map .payload).toList

/-! ## The loop of `ReadState` -/

inductive Phase where
  | zero
  | socketReadIovecs
  | recvFd
  | allDone
  | readMore
  | bad
  deriving DecidableEq

/-- `stream` has been written and not read, `log` are the callbacks so far, and `closed` says that
an error has been reported. `requested` is the size of the memory that is read into. -/
structure State where
  phase : Phase := .zero
  recvFd : Bool := false
  reader : CachedReader := {}
  requested : ℕ := 0
  stream : List UInt8
  log : List Delivery := []
  closed : Bool := false

/-- `readv` gets some of the bytes, as many as it has room for at most. -/
def Reads (r : CachedReader) (stream data rest : List UInt8) : Prop :=
  stream = data ++ rest ∧ data.length ≤ r.room

/-- If bytes are pending, they have been written. -/
def Pends (stream : List UInt8) (pending : Bool) : Prop := pending = true → stream ≠ []

namespace State

def startHeader (s : State) (ptr : List UInt8) (r : CachedReader) : State :=
  let recvSignature := ofLE (ptr.take 4)
  let bufferSize := ofLE (ptr.drop 4)
  if recvSignature = sigSocketData ∨ recvSignature = sigSocketDataFd then
    { s with
      phase := .socketReadIovecs
      recvFd := decide (recvSignature = sigSocketDataFd)
      reader := r.startRead [⟨[], bufferSize⟩]
      requested := bufferSize }
  else
    { s with phase := .bad, reader := r }

/-- The round of `stateZero` when `readv` is called. -/
def readStart (s : State) (data rest : List UInt8) (pending : Bool) : State :=
  let r := (s.reader.reserve 8).startRead []
  let r' := (r.done data).1
  let s' := { s with
    reader := r', stream := rest, closed := s.closed || (pending && decide (r.room = 0)) }
  if 8 ≤ r'.unread.length then s'.startHeader (r'.unread.take 8) (r'.skip 8).resetIfEmpty else s'

/-- `done` has returned true. -/
def finish (s : State) : State :=
  match s.phase with
  | .socketReadIovecs =>
    { s with phase := if s.recvFd then .recvFd else .allDone, recvFd := false }
  | .readMore => { s with phase := .zero, log := s.log ++ [.payload s.reader.bytes] }
  | _ => s

/-- The round of `stateSocketReadIovecs` or `stateReadMore` when `readv` is called. -/
def readTargets (s : State) (data rest : List UInt8) (pending : Bool) : State :=
  let s' := { s with
    reader := (s.reader.done data).1, stream := rest,
    closed := s.closed || (pending && decide (s.reader.room = 0)) }
  if (s.reader.done data).2 then s'.finish else s'

/-- The callback, with the call of `inread_iovec` in it. -/
def callback (want : List UInt8 → Option ℕ) (s : State) : State :=
  match want s.reader.bytes with
  | none => { s with phase := .zero, log := s.log ++ [.header s.reader.bytes] }
  | some bytes =>
    { s with
      phase := .readMore, log := s.log ++ [.header s.reader.bytes],
      reader := s.reader.startRead [⟨[], bytes⟩], requested := bytes }

def Awaits (s : State) : Prop := s.phase = .socketReadIovecs ∨ s.phase = .readMore

end State

open Reader.State (callback finish readTargets)

/-- The rounds of the loop of `ReadState`. -/
inductive Step (want : List UInt8 → Option ℕ) (s : State) : State → Prop
  | cached (hphase : s.phase = .zero) (hlen : 8 ≤ s.reader.unread.length) :
      Step want s (s.startHeader (s.reader.unread.take 8) (s.reader.skip 8))
  | readStart {data rest : List UInt8} {pending : Bool} (hphase : s.phase = .zero)
      (hlen : ¬ 8 ≤ s.reader.unread.length)
      (hread : Reads ((s.reader.reserve 8).startRead []) s.stream data rest)
      (hpends : Pends s.stream pending) : Step want s (s.readStart data rest pending)
  | complete (hphase : s.Awaits) (hcomplete : s.reader.complete = true) : Step want s s.finish
  | readTargets {data rest : List UInt8} {pending : Bool} (hphase : s.Awaits)
      (hcomplete : s.reader.complete = false) (hread : Reads s.reader s.stream data rest)
      (hpends : Pends s.stream pending) : Step want s (s.readTargets data rest pending)
  | callback (hphase : s.phase = .allDone) : Step want s (s.callback want)

inductive Reachable (messages : List (Message want)) : State → Prop
  | init : Reachable messages { stream := encode messages }
  | step {s s' : State} (h : Reachable messages s) (hstep : Step want s s') : Reachable messages s'

/-- What is left to do: the bytes of the stream count twice, since they may go to the cache
first. -/
def State.measure (s : State) : ℕ :=
  2 * s.stream.length + s.reader.unread.length +
    match s.phase with
    | .socketReadIovecs => 3
    | .allDone => 2
    | .readMore => 1
    | _ => 0

/-- The callbacks so far are the first ones that the messages call for; no error has been reported;
what has come into the memory of a message fits in there. A round brings the reader on, or it
waits for bytes; and as long as not all is delivered, it can go on. -/
structure Framed (messages : List (Message want)) (s : State) : Prop where
  inOrder : s.log <+: deliveries messages
  isOpen : s.closed = false
  inside : s.Awaits → ∀ t ∈ s.reader.iovecs, t.received.length + t.iovLen = s.requested
  advances : ∀ s', Step want s s' → s'.measure < s.measure ∨
    s'.stream = s.stream ∧ s'.phase = s.phase ∧ s'.log = s.log
  goesOn : s.log = deliveries messages ∨ ∃ s', Step want s s' ∧ s'.measure < s.measure

/-- A payload of no bytes is awaited, the cache is full and has been consumed, and more has been
written. -/
def EmptyRead (s : State) : Prop :=
  s.phase = .readMore ∧ s.requested = 0 ∧ s.reader.complete = false ∧ s.reader.unread = [] ∧
    s.reader.bufferOffset = s.reader.bufferSize ∧ s.stream ≠ []

/-! ## One target -/

def CachedReader.Fits (r : CachedReader) : Prop := r.bufferFilled ≤ r.bufferSize

/-- One target of so many bytes is being read. It takes what the cache has first. -/
structure Filling (r : CachedReader) (t : Target) (len : ℕ) : Prop where
  iovecs : r.iovecs = [t]
  total : t.received.length + t.iovLen = len
  waiting : t.iovLen ≠ 0 → r.unread = [] ∧ r.iovecsOffset = 0
  full : t.iovLen = 0 → r.iovecsOffset = 1 ∨ len = 0 ∧ r.unread = [] ∧ r.iovecsOffset = 0

theorem copyOut_single (unread : List UInt8) (len : ℕ) :
    copyOut unread [⟨[], len⟩] 0 = (unread.drop len, [⟨unread.take len, len - unread.length⟩],
      if len ≤ unread.length then 1 else 0) := by
  obtain hle | hlt := le_or_gt len unread.length
  · by_cases heq : unread.length = len
    · simp [copyOut, ← heq]
    · have hne : unread.length - len ≠ 0 := by omega
      simp [copyOut, hle, hne]
  · have hmin : min unread.length len = unread.length := min_eq_left hlt.le
    have hne : len - unread.length ≠ 0 := by omega
    simp [copyOut, hmin, hne, hlt.not_ge, drop_of_length_le hlt.le, take_of_length_le hlt.le]

theorem startRead_single (r : CachedReader) (len : ℕ) :
    Filling (r.startRead [⟨[], len⟩]) ⟨r.unread.take len, len - r.unread.length⟩ len ∧
      (r.startRead [⟨[], len⟩]).unread = r.unread.drop len ∧
      (r.Fits → (r.startRead [⟨[], len⟩]).Fits) := by
  have htotal : (r.unread.take len).length + (len - r.unread.length) = len := by
    rw [length_take]
    omega
  unfold startRead
  split_ifs with hunread
  · refine ⟨⟨by simp [hunread], htotal, fun _ => ⟨hunread, rfl⟩, fun h => .inr ⟨?_, hunread, rfl⟩⟩,
      by simp [hunread], id⟩
    simpa [hunread] using h
  · rw [copyOut_single]
    refine ⟨⟨rfl, htotal, fun h => ?_, fun h => .inl ?_⟩, rfl, fun h => ?_⟩
    · have hlt : r.unread.length < len := by
        dsimp only at h
        omega
      exact ⟨drop_of_length_le hlt.le, if_neg hlt.not_ge⟩
    · refine if_pos ?_
      dsimp only at h
      omega
    · unfold Fits bufferFilled at h ⊢
      dsimp only
      split_ifs with hnil
      · rw [hnil, length_nil]
        exact Nat.zero_le _
      · rw [length_drop]
        omega

theorem startRead_nil (r : CachedReader) :
    r.startRead [] = { r with iovecs := [], iovecsOffset := 0 } := by
  unfold startRead
  split_ifs with hunread
  · rfl
  · simp [copyOut, hunread]

theorem done_nil (r : CachedReader) (data : List UInt8) (h : r.iovecs = [])
    (h' : r.iovecsOffset = 0) :
    r.done data =
      ({ r with unread := r.unread ++ data, bufferSize := r.grow data.length }, true) := by
  simp [done, scatter, h, h']

theorem le_grow (r : CachedReader) (n : ℕ) : r.bufferSize ≤ r.grow n := by
  unfold grow maxBufferSize
  split_ifs <;> omega

section Filling

variable {r : CachedReader} {t : Target} {len : ℕ} {data : List UInt8}

theorem Filling.complete_eq (h : Filling r t len) : r.complete = decide (r.iovecsOffset = 1) := by
  unfold complete
  rw [h.iovecs, length_singleton]
  by_cases hone : r.iovecsOffset = 1 <;> simp [hone]

theorem Filling.offset_eq (h : Filling r t len) (hcomplete : r.complete = false) :
    r.iovecsOffset = 0 ∧ r.unread = [] := by
  rw [h.complete_eq, decide_eq_false_iff_not] at hcomplete
  by_cases hfull : t.iovLen = 0
  · exact ((h.full hfull).resolve_left hcomplete).2.symm
  · exact (h.waiting hfull).symm

theorem Filling.room_eq (h : Filling r t len) (hcomplete : r.complete = false) :
    r.room = t.iovLen + (r.bufferSize - r.bufferFilled) := by
  rw [room, (h.offset_eq hcomplete).1, h.iovecs]
  simp

/-- The bytes complete the target, and the others go to the cache. -/
def CachedReader.filled (r : CachedReader) (t : Target) (data : List UInt8) : CachedReader :=
  { r with
    iovecs := [⟨t.received ++ data.take t.iovLen, 0⟩], iovecsOffset := 1,
    unread := data.drop t.iovLen, bufferSize := r.grow (data.drop t.iovLen).length }

theorem Filling.done_of_le (h : Filling r t len) (hcomplete : r.complete = false)
    (hle : t.iovLen ≤ data.length) : r.done data = (r.filled t data, true) := by
  obtain ⟨hoffset, hunread⟩ := h.offset_eq hcomplete
  unfold done
  rw [hoffset, h.iovecs, drop_zero, scatter, if_pos hle]
  by_cases heq : data.length - t.iovLen = 0
  · have hdrop : data.drop t.iovLen = [] := drop_of_length_le (by omega)
    simp [heq, hdrop, hunread, filled]
  · simp [heq, scatter, hunread, filled]

theorem Filling.done_of_lt (h : Filling r t len) (hcomplete : r.complete = false)
    (hlt : data.length < t.iovLen) :
    r.done data = ({ r with iovecs := [⟨t.received ++ data, t.iovLen - data.length⟩] }, false) := by
  obtain ⟨hoffset, hunread⟩ := h.offset_eq hcomplete
  unfold done
  rw [hoffset, h.iovecs, drop_zero, scatter, if_neg hlt.not_ge]
  simp

end Filling

/-! ## Where the reader is -/

/-- The messages `before` have been delivered, and the bytes that are left are those of `after`. -/
inductive Holds : List (Message want) → List (Message want) → State → Prop
  | zero {before after : List (Message want)} {s : State} (hphase : s.phase = .zero)
      (hlog : s.log = deliveries before) (hstream : s.reader.unread ++ s.stream = encode after) :
      Holds before after s
  | header {before after : List (Message want)} {m : Message want} {s : State} {t : Target}
      (hphase : s.phase = .socketReadIovecs) (hlog : s.log = deliveries before)
      (hfill : Filling s.reader t m.header.length) (hrequested : s.requested = m.header.length)
      (hstream : t.received ++ (s.reader.unread ++ s.stream) =
        m.header ++ (m.extra ++ encode after)) :
      Holds before (m :: after) s
  | allDone {before after : List (Message want)} {m : Message want} {s : State}
      (hphase : s.phase = .allDone) (hlog : s.log = deliveries before)
      (hiovecs : s.reader.iovecs = [⟨m.header, 0⟩])
      (hstream : s.reader.unread ++ s.stream = m.extra ++ encode after) :
      Holds before (m :: after) s
  | payload {before after : List (Message want)} {m : Message want} {s : State} {t : Target}
      {p : List UInt8} (hphase : s.phase = .readMore) (hp : m.payload = some p)
      (hlog : s.log = deliveries before ++ [.header m.header])
      (hfill : Filling s.reader t p.length) (hrequested : s.requested = p.length)
      (hstream : t.received ++ (s.reader.unread ++ s.stream) = p ++ encode after) :
      Holds before (m :: after) s

structure At (before after : List (Message want)) (s : State) : Prop where
  holds : Holds before after s
  recvFd : s.recvFd = false
  fits : s.reader.Fits

def Progress (s s' : State) : Prop :=
  s'.measure < s.measure ∨ s'.stream = s.stream ∧ s'.phase = s.phase ∧ s'.log = s.log

variable {messages before after : List (Message want)} {m : Message want} {s s' : State}

theorem Holds.of_zero (h : Holds before after s) (hphase : s.phase = .zero) :
    s.log = deliveries before ∧ s.reader.unread ++ s.stream = encode after := by
  cases h with
  | header hphase' | allDone hphase' | payload hphase' => rw [hphase] at hphase'; cases hphase'
  | zero _ hlog hstream => exact ⟨hlog, hstream⟩

theorem State.Awaits.ne (h : s.Awaits) : s.phase ≠ .zero ∧ s.phase ≠ .allDone := by
  obtain hphase | hphase := h <;> rw [hphase] <;> exact ⟨nofun, nofun⟩

theorem length_start (m : Message want) : m.start.length = 8 := by
  simp [Message.start]

theorem encode_cons (m : Message want) (after : List (Message want)) :
    encode (m :: after) = m.start ++ (m.header ++ (m.extra ++ encode after)) := by
  simp [encode, Message.bytes]

theorem deliveries_append (before after : List (Message want)) :
    deliveries (before ++ after) = deliveries before ++ deliveries after :=
  flatMap_append

/-- The first eight bytes are those of the next message. -/
theorem exists_message {bytes rest : List UInt8} (h : bytes ++ rest = encode after)
    (hlen : 8 ≤ bytes.length) : ∃ m after', after = m :: after' ∧ bytes.take 8 = m.start ∧
      bytes.drop 8 ++ rest = m.header ++ (m.extra ++ encode after') := by
  cases after with
  | nil =>
    have hnil : bytes = [] := (append_eq_nil_iff.mp h).1
    rw [hnil] at hlen
    exact absurd hlen (by decide)
  | cons m after' =>
    rw [encode_cons] at h
    refine ⟨m, after', rfl, ?_, ?_⟩
    · have htake := congrArg (take 8) h
      rwa [take_append_of_le_length hlen, take_append_of_le_length (length_start m).ge,
        take_of_length_le (length_start m).le] at htake
    · have hdrop := congrArg (drop 8) h
      rwa [drop_append_of_le_length hlen, drop_append_of_le_length (length_start m).ge,
        drop_of_length_le (length_start m).le, nil_append] at hdrop

/-- The signature is that of a message without a file descriptor. -/
theorem startHeader_start (s : State) (m : Message want) (r : CachedReader) :
    s.startHeader m.start r = { s with
      phase := .socketReadIovecs, recvFd := false,
      reader := r.startRead [⟨[], m.header.length⟩], requested := m.header.length } := by
  have htake : m.start.take 4 = toLE 4 sigSocketData := by
    rw [Message.start, take_append_of_le_length (by simp), take_of_length_le (by simp)]
  have hdrop : m.start.drop 4 = toLE 4 m.header.length := by
    rw [Message.start, drop_append_of_le_length (by simp), drop_of_length_le (by simp), nil_append]
  have hsig : ofLE (toLE 4 sigSocketData) = sigSocketData := ofLE_toLE (by decide)
  have hlen : ofLE (toLE 4 m.header.length) = m.header.length := ofLE_toLE m.lt
  have hne : sigSocketData ≠ sigSocketDataFd := by decide
  simp [State.startHeader, htake, hdrop, hsig, hlen, hne]

variable {r : CachedReader}

theorem At.startHeader (hlog : s.log = deliveries before) (hfits : r.Fits)
    (hstream : r.unread ++ s.stream = m.header ++ (m.extra ++ encode after)) :
    At before (m :: after) (s.startHeader m.start r) := by
  obtain ⟨hfill, hunread, hfits'⟩ := startRead_single r m.header.length
  rw [startHeader_start]
  refine ⟨.header rfl hlog hfill rfl ?_, rfl, hfits' hfits⟩
  dsimp only
  rw [hunread, ← append_assoc, take_append_drop, hstream]

theorem measure_startHeader_lt (h : 2 * s.stream.length + r.unread.length + 3 < s'.measure) :
    (s.startHeader m.start r).measure < s'.measure := by
  rw [startHeader_start, State.measure]
  dsimp only
  rw [(startRead_single r m.header.length).2.1, length_drop]
  omega

/-- The start of a message is in the cache. -/
theorem At.cached (h : At before after s) (hphase : s.phase = .zero)
    (hlen : 8 ≤ s.reader.unread.length) :
    At before after (s.startHeader (s.reader.unread.take 8) (s.reader.skip 8)) ∧
      (s.startHeader (s.reader.unread.take 8) (s.reader.skip 8)).measure < s.measure ∧
      (s.startHeader (s.reader.unread.take 8) (s.reader.skip 8)).closed = s.closed := by
  obtain ⟨hholds, -, hfits⟩ := h
  obtain ⟨hlog, hstream⟩ := hholds.of_zero hphase
  obtain ⟨m, after', rfl, hstart, hrest⟩ := exists_message hstream hlen
  rw [hstart]
  refine ⟨.startHeader hlog ?_ hrest, measure_startHeader_lt ?_, by rw [startHeader_start]⟩
  · unfold Fits bufferFilled at hfits ⊢
    simp only [skip, length_drop]
    omega
  · simp only [State.measure, hphase, skip, length_drop]
    omega

/-- What `readBufferPointer` makes room for and reads goes to the cache. -/
theorem reserve_spec (r : CachedReader) (len : ℕ) :
    (r.reserve len).bufferOffset = r.bufferOffset ∧ (r.reserve len).unread = r.unread ∧
      r.bufferOffset + len ≤ (r.reserve len).bufferSize := by
  unfold reserve
  split_ifs with hlt
  · exact ⟨rfl, rfl, le_max_left _ _⟩
  · exact ⟨rfl, rfl, not_lt.mp hlt⟩

def CachedReader.fill (r : CachedReader) (data : List UInt8) : CachedReader :=
  { r with
    iovecs := [], iovecsOffset := 0, unread := r.unread ++ data, bufferSize := r.grow data.length }

theorem readStart_eq (s : State) (data rest : List UInt8) (pending : Bool)
    (hlen : ¬ 8 ≤ s.reader.unread.length) :
    s.readStart data rest pending =
      if 8 ≤ (s.reader.unread ++ data).length then
        { s with reader := (s.reader.reserve 8).fill data, stream := rest }.startHeader
          ((s.reader.unread ++ data).take 8) (((s.reader.reserve 8).fill data).skip 8).resetIfEmpty
      else { s with reader := (s.reader.reserve 8).fill data, stream := rest } := by
  obtain ⟨hoffset, hunread, hsize⟩ := reserve_spec s.reader 8
  have hroom : ((s.reader.reserve 8).startRead []).room ≠ 0 := by
    rw [startRead_nil]
    simp only [room, bufferFilled, hoffset, hunread, drop_nil, map_nil, sum_nil]
    omega
  have hdone : ((s.reader.reserve 8).startRead []).done data =
      ((s.reader.reserve 8).fill data, true) := by
    rw [startRead_nil, done_nil _ _ rfl rfl]
    rfl
  unfold State.readStart
  simp only [hdone, hroom, decide_false, Bool.and_false, Bool.or_false]
  rw [fill, hunread]

theorem fits_fill {data : List UInt8}
    (h : r.bufferOffset + r.unread.length + data.length ≤ r.bufferSize) : (r.fill data).Fits := by
  have hgrow := le_grow r data.length
  unfold Fits bufferFilled
  simp only [fill, length_append]
  omega

variable {len : ℕ}

theorem fits_skip_resetIfEmpty (h : r.Fits) (hlen : len ≤ r.unread.length) :
    (r.skip len).resetIfEmpty.Fits := by
  unfold Fits bufferFilled at h ⊢
  unfold resetIfEmpty
  split_ifs with hnil
  · simp only [skip] at hnil ⊢
    rw [hnil]
    simp
  · simp only [skip, length_drop]
    omega

theorem unread_resetIfEmpty (r : CachedReader) : r.resetIfEmpty.unread = r.unread := by
  unfold resetIfEmpty
  split_ifs <;> rfl

theorem At.readStart (h : At before after s) (hphase : s.phase = .zero)
    (hlen : ¬ 8 ≤ s.reader.unread.length) {data rest : List UInt8}
    (hread : Reads ((s.reader.reserve 8).startRead []) s.stream data rest) (pending : Bool) :
    At before after (s.readStart data rest pending) ∧
      Progress s (s.readStart data rest pending) ∧
      (s.readStart data rest pending).closed = s.closed ∧
      (s.readStart data rest pending).stream = rest := by
  obtain ⟨hholds, hfd, hfits⟩ := h
  obtain ⟨hlog, hstream⟩ := hholds.of_zero hphase
  obtain ⟨hdata, hroom⟩ := hread
  obtain ⟨hoffset, hunread, hsize⟩ := reserve_spec s.reader 8
  have hfill : ((s.reader.reserve 8).fill data).Fits := by
    refine fits_fill ?_
    rw [startRead_nil] at hroom
    simp only [room, bufferFilled, drop_nil, map_nil, sum_nil] at hroom
    rw [hoffset, hunread] at hroom ⊢
    omega
  have hfillUnread : ((s.reader.reserve 8).fill data).unread = s.reader.unread ++ data := by
    rw [fill, hunread]
  have hlength : s.stream.length = data.length + rest.length := by
    rw [hdata, length_append]
  rw [readStart_eq s data rest pending hlen]
  rw [hdata, ← append_assoc] at hstream
  split_ifs with hstart
  · obtain ⟨m, after', rfl, htake, hrest⟩ := exists_message hstream hstart
    rw [htake]
    refine ⟨.startHeader hlog (fits_skip_resetIfEmpty hfill ?_) ?_,
      .inl (measure_startHeader_lt ?_), by rw [startHeader_start], by rw [startHeader_start]⟩
    · rwa [hfillUnread]
    · rwa [unread_resetIfEmpty, skip, hfillUnread]
    · rw [unread_resetIfEmpty, skip, hfillUnread, State.measure, hphase]
      rw [length_append] at hstart
      simp only [length_drop, length_append]
      omega
  · refine ⟨⟨.zero hphase hlog (by rw [hfillUnread, hstream]), hfd, hfill⟩, ?_, rfl, rfl⟩
    by_cases hnil : data = []
    · refine .inr ⟨?_, rfl, rfl⟩
      rw [hdata, hnil, nil_append]
    · refine .inl ?_
      have hpos := length_pos_iff.mpr hnil
      simp only [State.measure, hphase, hfillUnread, length_append]
      omega

/-! ## Rounds with a target -/

variable {t : Target}

section

variable (h : At before after s) (hphase : s.Awaits)

include h hphase

/-- The target of a message is complete. -/
theorem At.finish (hiovecs : s.reader.iovecs = [t]) (hfull : t.iovLen = 0) :
    (∃ before' after', before' ++ after' = before ++ after ∧ At before' after' s.finish) ∧
      s.finish.measure < s.measure ∧ s.finish.closed = s.closed ∧ s.finish.phase ≠ s.phase := by
  obtain ⟨hholds, hfd, hfits⟩ := h
  cases hholds with
  | zero hphase' => exact absurd hphase' hphase.ne.1
  | allDone hphase' => exact absurd hphase' hphase.ne.2
  | header hphase' hlog hfill hrequested hstream =>
    rename_i after m t'
    obtain rfl : t' = t := singleton_injective (hfill.iovecs.symm.trans hiovecs)
    have htotal := hfill.total
    rw [hfull, Nat.add_zero] at htotal
    obtain ⟨hreceived, hrest⟩ := append_inj hstream htotal
    have heq : s.finish = { s with phase := .allDone, recvFd := false } := by
      simp [finish, hphase', hfd]
    rw [heq]
    refine ⟨⟨before, m :: after, rfl, .allDone rfl hlog ?_ hrest, rfl, hfits⟩, ?_, rfl, ?_⟩
    · dsimp only
      rw [hiovecs, ← hreceived, ← hfull]
    · simp only [State.measure, hphase']
      omega
    · rw [hphase']
      exact nofun
  | payload hphase' hp hlog hfill hrequested hstream =>
    rename_i after m t' p
    obtain rfl : t' = t := singleton_injective (hfill.iovecs.symm.trans hiovecs)
    have htotal := hfill.total
    rw [hfull, Nat.add_zero] at htotal
    obtain ⟨hreceived, hrest⟩ := append_inj hstream htotal
    have heq : s.finish = { s with phase := .zero, log := s.log ++ [.payload p] } := by
      simp [finish, hphase', bytes, hiovecs, hreceived]
    rw [heq]
    refine ⟨⟨before ++ [m], after, by simp, .zero rfl ?_ hrest, hfd, hfits⟩, ?_, rfl, ?_⟩
    · dsimp only
      rw [hlog, deliveries_append]
      simp [deliveries, hp]
    · simp only [State.measure, hphase']
      omega
    · rw [hphase']
      exact nofun

/-- The bytes that the target of a message gets. -/
theorem At.exists_bytes :
    ∃ t bytes tail, Filling s.reader t s.requested ∧ s.requested = bytes.length ∧
      t.received ++ (s.reader.unread ++ s.stream) = bytes ++ tail ∧
        (s.phase = .socketReadIovecs → s.requested ≠ 0) := by
  obtain ⟨hholds, -, -⟩ := h
  cases hholds with
  | zero hphase' => exact absurd hphase' hphase.ne.1
  | allDone hphase' => exact absurd hphase' hphase.ne.2
  | header hphase' hlog hfill hrequested hstream =>
    rename_i after m t
    rw [hrequested]
    exact ⟨t, _, _, hfill, rfl, hstream, fun _ hlen => m.ne_nil (length_eq_zero_iff.mp hlen)⟩
  | payload hphase' hp hlog hfill hrequested hstream =>
    rw [hrequested]
    exact ⟨_, _, _, hfill, rfl, hstream, fun hphase => by rw [hphase] at hphase'; cases hphase'⟩

theorem At.exists_filling :
    ∃ t, Filling s.reader t s.requested ∧ (s.phase = .socketReadIovecs → s.requested ≠ 0) := by
  obtain ⟨t, -, -, hfill, -, -, hheader⟩ := h.exists_bytes hphase
  exact ⟨t, hfill, hheader⟩

theorem At.withReader {t' : Target} (hiovecs : s.reader.iovecs = [t]) (r : CachedReader)
    (rest : List UInt8) (closed : Bool) (hfill : Filling r t' s.requested) (hfits : r.Fits)
    (hbytes : t'.received ++ (r.unread ++ rest) = t.received ++ (s.reader.unread ++ s.stream)) :
    At before after { s with reader := r, stream := rest, closed := closed } := by
  obtain ⟨hholds, hfd, -⟩ := h
  cases hholds with
  | zero hphase' => exact absurd hphase' hphase.ne.1
  | allDone hphase' => exact absurd hphase' hphase.ne.2
  | header hphase' hlog hfill' hrequested hstream =>
    obtain rfl := singleton_injective (hfill'.iovecs.symm.trans hiovecs)
    exact ⟨.header hphase' hlog (hrequested ▸ hfill) hrequested (hbytes.trans hstream), hfd, hfits⟩
  | payload hphase' hp hlog hfill' hrequested hstream =>
    obtain rfl := singleton_injective (hfill'.iovecs.symm.trans hiovecs)
    exact ⟨.payload hphase' hp hlog (hrequested ▸ hfill) hrequested (hbytes.trans hstream),
      hfd, hfits⟩

/-- As long as a target is not complete, there are bytes for it. -/
theorem At.stream_ne_nil (hiovecs : s.reader.iovecs = [t]) (hwaiting : t.iovLen ≠ 0) :
    s.stream ≠ [] := by
  intro hnil
  obtain ⟨t', bytes, tail, hfill, hlen, hstream, -⟩ := h.exists_bytes hphase
  obtain rfl := singleton_injective (hfill.iovecs.symm.trans hiovecs)
  have htotal := hfill.total
  have hlength := congrArg length hstream
  rw [(hfill.waiting hwaiting).1, hnil] at hlength
  simp only [length_append, length_nil] at hlength
  omega

end

theorem finish_closed (s : State) : s.finish.closed = s.closed := by
  unfold finish
  split <;> rfl

section Read

variable {data rest : List UInt8} (pending : Bool) (h : At before after s) (hphase : s.Awaits)
  (hfill : Filling s.reader t s.requested) (hcomplete : s.reader.complete = false)
  (hread : Reads s.reader s.stream data rest)

include h hphase hfill hcomplete hread

/-- The bytes complete the target. -/
theorem At.readTargets_of_le (hle : t.iovLen ≤ data.length) :
    (∃ before' after', before' ++ after' = before ++ after ∧
      At before' after' (s.readTargets data rest pending)) ∧
        (s.readTargets data rest pending).measure < s.measure := by
  obtain ⟨hdata, hroom⟩ := hread
  obtain ⟨-, hunread⟩ := hfill.offset_eq hcomplete
  have hfits := h.fits
  rw [hfill.room_eq hcomplete] at hroom
  let r := s.reader.filled t data
  have heq : s.readTargets data rest pending = { s with
      reader := r, stream := rest,
      closed := s.closed || (pending && decide (s.reader.room = 0)) }.finish := by
    unfold readTargets
    rw [hfill.done_of_le hcomplete hle]
    rfl
  -- what is behind the target goes to the cache
  have hgrow := le_grow s.reader (data.drop t.iovLen).length
  have hlength : (data.drop t.iovLen).length = data.length - t.iovLen := length_drop
  have hfilling : Filling r ⟨t.received ++ data.take t.iovLen, 0⟩ s.requested := by
    refine ⟨rfl, ?_, fun hne => absurd rfl hne, fun _ => .inl rfl⟩
    have htotal := hfill.total
    simp only [length_append, length_take]
    omega
  have hat := h.withReader hphase hfill.iovecs r rest
    (s.closed || (pending && decide (s.reader.room = 0))) hfilling ?_ ?_
  · obtain ⟨hexists, hmeasure, -, -⟩ := hat.finish hphase rfl rfl
    rw [heq]
    refine ⟨hexists, hmeasure.trans_le ?_⟩
    simp only [State.measure, r, filled, hunread, hdata, length_append, length_nil, hlength]
    omega
  · unfold Fits bufferFilled at hfits ⊢
    unfold bufferFilled at hroom
    rw [hunread, length_nil] at hfits hroom
    dsimp only [r, filled]
    omega
  · rw [hunread, hdata]
    simp only [r, filled, append_assoc, nil_append]
    rw [← append_assoc (data.take _), take_append_drop]

/-- The bytes do not complete the target. -/
theorem At.readTargets_of_lt (hlt : data.length < t.iovLen) :
    At before after (s.readTargets data rest pending) ∧
      (s.readTargets data rest pending).phase = s.phase ∧
      (s.readTargets data rest pending).log = s.log ∧
      (s.readTargets data rest pending).stream = rest ∧
      (s.readTargets data rest pending).measure + 2 * data.length = s.measure := by
  obtain ⟨hdata, -⟩ := hread
  obtain ⟨hoffset, hunread⟩ := hfill.offset_eq hcomplete
  let r : CachedReader :=
    { s.reader with iovecs := [⟨t.received ++ data, t.iovLen - data.length⟩] }
  have heq : s.readTargets data rest pending = { s with
      reader := r, stream := rest,
      closed := s.closed || (pending && decide (s.reader.room = 0)) } := by
    unfold readTargets
    rw [hfill.done_of_lt hcomplete hlt]
    rfl
  have hfilling : Filling r ⟨t.received ++ data, t.iovLen - data.length⟩ s.requested := by
    refine ⟨rfl, ?_, fun _ => ⟨hunread, hoffset⟩, fun hzero => absurd hzero ?_⟩
    · have htotal := hfill.total
      simp only [length_append]
      omega
    · dsimp only
      omega
  rw [heq]
  refine ⟨?_, rfl, rfl, rfl, ?_⟩
  · refine h.withReader hphase hfill.iovecs r rest _ hfilling h.fits ?_
    simp only [r]
    rw [hunread, hdata]
    simp
  · simp only [State.measure, r, hdata, length_append]
    omega

omit hread in
theorem At.closed_readTargets (hpends : Pends s.stream pending) :
    (s.readTargets data rest pending).closed = s.closed ∨ EmptyRead s := by
  have hclosed : (s.readTargets data rest pending).closed =
      (s.closed || (pending && decide (s.reader.room = 0))) := by
    simp only [readTargets]
    split_ifs
    · rw [finish_closed]
    · rfl
  rw [hclosed]
  by_cases hroom : pending = true ∧ s.reader.room = 0
  -- there is no room, neither in the target nor in the cache
  · obtain ⟨hpending, hroom⟩ := hroom
    refine .inr ?_
    have hfits := h.fits
    rw [hfill.room_eq hcomplete] at hroom
    have hzero : t.iovLen = 0 := by omega
    have hnot := hfill.complete_eq
    rw [hcomplete, eq_comm, decide_eq_false_iff_not] at hnot
    obtain ⟨hrequested, hunread, -⟩ := (hfill.full hzero).resolve_left hnot
    obtain ⟨-, -, hheader⟩ := h.exists_filling hphase
    refine ⟨hphase.resolve_left fun hstart => hheader hstart hrequested, hrequested, hcomplete,
      hunread, ?_, hpends hpending⟩
    unfold Fits at hfits
    unfold bufferFilled at hroom hfits
    rw [hunread, length_nil] at hroom hfits
    omega
  · have hfalse : (pending && decide (s.reader.room = 0)) = false := by
      rw [Bool.and_eq_false_imp]
      exact fun hpending => decide_eq_false fun hzero => hroom ⟨hpending, hzero⟩
    rw [hfalse, Bool.or_false]
    exact .inl rfl

end Read

/-! ## All rounds -/

theorem callback_none (hbytes : s.reader.bytes = m.header) (hpayload : m.payload = none) :
    s.callback want = { s with phase := .zero, log := s.log ++ [.header m.header] } := by
  have hwant : want m.header = none := by rw [m.wanted, hpayload]; rfl
  simp only [callback, hbytes, hwant]

theorem callback_some {p : List UInt8} (hbytes : s.reader.bytes = m.header)
    (hpayload : m.payload = some p) :
    s.callback want = { s with
      phase := .readMore, log := s.log ++ [.header m.header],
      reader := s.reader.startRead [⟨[], p.length⟩], requested := p.length } := by
  have hwant : want m.header = some p.length := by rw [m.wanted, hpayload]; rfl
  simp only [callback, hbytes, hwant]

theorem At.callback (h : At before after s) (hphase : s.phase = .allDone) :
    (∃ before' after', before' ++ after' = before ++ after ∧
      At before' after' (s.callback want)) ∧
        (s.callback want).measure < s.measure ∧ (s.callback want).closed = s.closed := by
  obtain ⟨hholds, hfd, hfits⟩ := h
  cases hholds with
  | zero hphase' | header hphase' | payload hphase' => rw [hphase] at hphase'; cases hphase'
  | allDone hphase' hlog hiovecs hstream =>
    rename_i after m
    have hbytes : s.reader.bytes = m.header := by simp [bytes, hiovecs]
    cases hpayload : m.payload with
    | none =>
      rw [callback_none hbytes hpayload]
      refine ⟨⟨before ++ [m], after, by simp, .zero rfl ?_ ?_, hfd, hfits⟩, ?_, rfl⟩
      · dsimp only
        rw [hlog, deliveries_append]
        simp [deliveries, hpayload]
      · rw [hstream, Message.extra, hpayload]
        rfl
      · simp only [State.measure, hphase]
        omega
    | some p =>
      obtain ⟨hfill, hunread, hfits'⟩ := startRead_single s.reader p.length
      rw [callback_some hbytes hpayload]
      refine ⟨⟨before, m :: after, rfl, .payload rfl hpayload ?_ hfill rfl ?_, hfd, hfits' hfits⟩,
        ?_, rfl⟩
      · dsimp only
        rw [hlog]
      · dsimp only
        rw [hunread, ← append_assoc, take_append_drop, hstream, Message.extra, hpayload]
        rfl
      · simp only [State.measure, hphase, hunread, length_drop]
        omega

theorem Filling.iovLen_eq_zero (h : Filling r t len) (hcomplete : r.complete = true) :
    t.iovLen = 0 := by
  by_contra hne
  rw [h.complete_eq, (h.waiting hne).2] at hcomplete
  exact absurd hcomplete (by decide)

/-- What a round does. -/
theorem At.step (h : At before after s) (hstep : Step want s s') :
    (∃ before' after', before' ++ after' = before ++ after ∧ At before' after' s') ∧
      Progress s s' ∧ (s'.closed = s.closed ∨ EmptyRead s) := by
  cases hstep with
  | cached hphase hlen =>
    obtain ⟨hat, hmeasure, hclosed⟩ := h.cached hphase hlen
    exact ⟨⟨before, after, rfl, hat⟩, .inl hmeasure, .inl hclosed⟩
  | readStart hphase hlen hread =>
    obtain ⟨hat, hprogress, hclosed, -⟩ := h.readStart hphase hlen hread _
    exact ⟨⟨before, after, rfl, hat⟩, hprogress, .inl hclosed⟩
  | complete hphase hcomplete =>
    obtain ⟨t, hfill, -⟩ := h.exists_filling hphase
    obtain ⟨hat, hmeasure, hclosed, -⟩ :=
      h.finish hphase hfill.iovecs (hfill.iovLen_eq_zero hcomplete)
    exact ⟨hat, .inl hmeasure, .inl hclosed⟩
  | readTargets hphase hcomplete hread hpends =>
    rename_i data rest pending
    obtain ⟨t, hfill, -⟩ := h.exists_filling hphase
    have hclosed : (s.readTargets data rest pending).closed = s.closed ∨ EmptyRead s :=
      h.closed_readTargets pending hphase hfill hcomplete hpends
    obtain hle | hlt := le_or_gt t.iovLen data.length
    · obtain ⟨hat, hmeasure⟩ := h.readTargets_of_le pending hphase hfill hcomplete hread hle
      exact ⟨hat, .inl hmeasure, hclosed⟩
    · obtain ⟨hat, hphase', hlog, hstream, hmeasure⟩ :=
        h.readTargets_of_lt pending hphase hfill hcomplete hread hlt
      refine ⟨⟨before, after, rfl, hat⟩, ?_, hclosed⟩
      by_cases hnil : data = []
      · refine .inr ⟨?_, hphase', hlog⟩
        rw [hstream, hread.1, hnil, nil_append]
      · have hpos := length_pos_iff.mpr hnil
        exact .inl (by omega)
  | callback hphase =>
    obtain ⟨hat, hmeasure, hclosed⟩ := h.callback hphase
    exact ⟨hat, .inl hmeasure, .inl hclosed⟩

theorem reads_one (stream : List UInt8) (hroom : 0 < r.room) :
    Reads r stream (stream.take 1) (stream.drop 1) := by
  refine ⟨(take_append_drop 1 stream).symm, ?_⟩
  rw [length_take]
  omega

theorem pends_false (stream : List UInt8) : Pends stream false := nofun

theorem At.exists_step (h : At before after s) (hphase : s.Awaits) :
    ∃ s', Step want s s' ∧ s'.measure < s.measure := by
  obtain ⟨t, hfill, -⟩ := h.exists_filling hphase
  cases hcomplete : s.reader.complete with
  | true =>
    exact ⟨_, .complete hphase hcomplete,
      (h.finish hphase hfill.iovecs (hfill.iovLen_eq_zero hcomplete)).2.1⟩
  | false =>
    by_cases hzero : t.iovLen = 0
    · have hread : Reads s.reader s.stream [] s.stream := ⟨rfl, Nat.zero_le _⟩
      exact ⟨_, .readTargets hphase hcomplete hread (pends_false _),
        (h.readTargets_of_le false hphase hfill hcomplete hread (by simp [hzero])).2⟩
    · have hread : Reads s.reader s.stream (s.stream.take 1) (s.stream.drop 1) := by
        refine reads_one _ ?_
        rw [hfill.room_eq hcomplete]
        omega
      have hpos : 0 < s.stream.length :=
        length_pos_iff.mpr (h.stream_ne_nil hphase hfill.iovecs hzero)
      have hone : (s.stream.take 1).length = 1 := by
        rw [length_take]
        omega
      refine ⟨_, .readTargets hphase hcomplete hread (pends_false _), ?_⟩
      obtain hle | hlt := le_or_gt t.iovLen (s.stream.take 1).length
      · exact (h.readTargets_of_le false hphase hfill hcomplete hread hle).2
      · have hmeasure := (h.readTargets_of_lt false hphase hfill hcomplete hread hlt).2.2.2.2
        omega

/-- Until all is delivered, the reader can go on. -/
theorem At.goesOn (h : At before after s) :
    s.log = deliveries (before ++ after) ∨ ∃ s', Step want s s' ∧ s'.measure < s.measure := by
  cases h.holds with
  | zero hphase hlog hstream =>
    by_cases hlen : 8 ≤ s.reader.unread.length
    · exact .inr ⟨_, .cached hphase hlen, (h.cached hphase hlen).2.1⟩
    cases after with
    | nil => exact .inl (by rw [hlog, append_nil])
    | cons m after =>
      have hroom : 0 < ((s.reader.reserve 8).startRead []).room := by
        obtain ⟨hoffset, hunread, hsize⟩ := reserve_spec s.reader 8
        rw [startRead_nil]
        simp only [room, bufferFilled, hoffset, hunread, drop_nil, map_nil, sum_nil]
        omega
      have hread := reads_one s.stream hroom
      obtain ⟨-, hprogress, -, hrest⟩ := h.readStart hphase hlen hread false
      refine .inr ⟨_, .readStart hphase hlen hread (pends_false _),
        hprogress.resolve_right fun hsame => ?_⟩
      have hlength := congrArg length hstream
      have hdrop := congrArg length (hrest.symm.trans hsame.1)
      rw [encode_cons] at hlength
      simp only [length_append, length_start] at hlength
      rw [length_drop] at hdrop
      omega
  | allDone hphase => exact .inr ⟨_, .callback hphase, (h.callback hphase).2.1⟩
  | header hphase => exact .inr (h.exists_step (.inl hphase))
  | payload hphase => exact .inr (h.exists_step (.inr hphase))

theorem Reachable.exists_at (h : Reachable messages s) :
    ∃ before after, before ++ after = messages ∧ At before after s := by
  induction h with
  | init => exact ⟨[], messages, rfl, .zero rfl rfl rfl, rfl, Nat.zero_le _⟩
  | step _ hstep ih =>
    obtain ⟨before, after, rfl, hat⟩ := ih
    obtain ⟨⟨before', after', heq, hat'⟩, -⟩ := hat.step hstep
    exact ⟨before', after', heq, hat'⟩

theorem Reachable.closed_eq
    (hempty : ∀ s, Reachable messages s → ¬ EmptyRead s) (h : Reachable messages s) :
    s.closed = false := by
  induction h with
  | init => rfl
  | step hreach hstep ih =>
    obtain ⟨before, after, -, hat⟩ := hreach.exists_at
    obtain ⟨-, -, hclosed⟩ := hat.step hstep
    rw [hclosed.resolve_right (hempty _ hreach), ih]

theorem At.log_isPrefix (h : At before after s) : s.log <+: deliveries (before ++ after) := by
  rw [deliveries_append]
  cases h.holds with
  | zero _ hlog | header _ hlog | allDone _ hlog =>
    rw [hlog]
    exact prefix_append _ _
  | payload hphase hp hlog =>
    rw [hlog]
    refine (prefix_append_right_inj _).mpr ?_
    simp [deliveries]

theorem At.framed (h : At before after s) (hclosed : s.closed = false) :
    Framed (before ++ after) s where
  inOrder := h.log_isPrefix
  isOpen := hclosed
  inside hphase u hu := by
    obtain ⟨t, hfill, -⟩ := h.exists_filling hphase
    rw [hfill.iovecs, mem_singleton] at hu
    rw [hu]
    exact hfill.total
  advances s' hstep := (h.step hstep).2.1
  goesOn := h.goesOn

/-- With a payload of no bytes and no room in the cache, `readv` gets nothing of what is pending. -/
theorem EmptyRead.exists_closed (h : EmptyRead s) (hat : At before after s) :
    ∃ s', Step want s s' ∧ s'.closed = true := by
  obtain ⟨hphase, hrequested, hcomplete, hunread, hfull, hpending⟩ := h
  obtain ⟨t, hfill, -⟩ := hat.exists_filling (.inr hphase)
  have hroom : s.reader.room = 0 := by
    have htotal := hfill.total
    rw [hfill.room_eq hcomplete, bufferFilled, hunread, length_nil]
    omega
  have hpends : Pends s.stream true := fun _ => hpending
  refine ⟨_, .readTargets (.inr hphase) hcomplete ⟨(nil_append _).symm, Nat.zero_le _⟩ hpends, ?_⟩
  have htrue : (s.closed || (true && decide (s.reader.room = 0))) = true := by simp [hroom]
  simp only [readTargets]
  split_ifs
  · rw [finish_closed]
    exact htrue
  · exact htrue

theorem exists_not_framed_of_emptyRead (h : Reachable messages s)
    (hempty : EmptyRead s) : ∃ s', Reachable messages s' ∧ ¬ Framed messages s' := by
  obtain ⟨before, after, -, hat⟩ := h.exists_at
  obtain ⟨s', hstep, hclosed⟩ := hempty.exists_closed hat
  refine ⟨s', h.step hstep, fun hframed => ?_⟩
  have hopen := hframed.isOpen
  rw [hclosed] at hopen
  cases hopen

theorem framed_of_not_emptyRead
    (hempty : ∀ s, Reachable messages s → ¬ EmptyRead s) (h : Reachable messages s) :
    Framed messages s := by
  obtain ⟨before, after, rfl, hat⟩ := h.exists_at
  exact hat.framed (h.closed_eq hempty)

/-- The messages are delivered as they were written, however the kernel splits them, exactly if no
payload of no bytes is awaited when the cache is full and has been consumed and more is written. -/
theorem framed_iff (messages : List (Message want)) :
    (∀ s, Reachable messages s → Framed messages s) ↔
      ∀ s, Reachable messages s → ¬ EmptyRead s := by
  constructor
  · intro h s hreach hempty
    obtain ⟨s', hreach', hnot⟩ := exists_not_framed_of_emptyRead hreach hempty
    exact hnot (h s' hreach')
  · exact fun h s hreach => framed_of_not_emptyRead h hreach

/-- Payloads that are not empty are always delivered. -/
theorem framed_of_payload_ne_nil
    (h : ∀ m ∈ messages, m.payload ≠ some []) (hreach : Reachable messages s) :
    Framed messages s := by
  refine framed_of_not_emptyRead (fun s' hreach' hempty => ?_) hreach
  obtain ⟨before, after, rfl, hat⟩ := hreach'.exists_at
  obtain ⟨hphase, hrequested, -⟩ := hempty
  cases hat.holds with
  | zero hphase' | header hphase' | allDone hphase' => rw [hphase] at hphase'; cases hphase'
  | payload hphase' hp hlog hfill hlen hstream =>
    rename_i after m t p
    have hnil : p = [] := length_eq_zero_iff.mp (hlen.symm.trans hrequested)
    exact h m (mem_append_right _ mem_cons_self) (hnil ▸ hp)

/-! ## Both ends -/

def State.more (s : State) (bytes : List UInt8) : State := { s with stream := s.stream ++ bytes }

theorem more_startHeader (s : State) (ptr bytes : List UInt8) (r : CachedReader) :
    (s.startHeader ptr r).more bytes = (s.more bytes).startHeader ptr r :=
  apply_ite (State.more · bytes) _ _ _

theorem more_finish (s : State) (bytes : List UInt8) :
    s.finish.more bytes = (s.more bytes).finish := by
  obtain ⟨phase⟩ := s
  cases phase <;> rfl

/-- A round goes the same way if more bytes come later. -/
theorem Step.more (h : Step want s s') (bytes : List UInt8) :
    Step want (s.more bytes) (s'.more bytes) := by
  have hreads {r data rest} (hread : Reads r s.stream data rest) :
      Reads r (s.more bytes).stream data (rest ++ bytes) :=
    ⟨by rw [State.more, hread.1, append_assoc], hread.2⟩
  have hpend {pending} (hpends : Pends s.stream pending) :
      Pends (s.more bytes).stream pending :=
    fun htrue hnil => hpends htrue (append_eq_nil_iff.mp hnil).1
  cases h with
  | cached hphase hlen =>
    rw [more_startHeader]
    exact .cached hphase hlen
  | readStart hphase hlen hread hpends =>
    rw [State.readStart, apply_ite (State.more · bytes), more_startHeader]
    exact .readStart hphase hlen (hreads hread) (hpend hpends)
  | complete hphase hcomplete =>
    rw [more_finish]
    exact .complete hphase hcomplete
  | readTargets hphase hcomplete hread hpends =>
    rw [State.readTargets, apply_ite (State.more · bytes), more_finish]
    exact .readTargets hphase hcomplete (hreads hread) (hpend hpends)
  | callback hphase =>
    have heq : (s.callback want).more bytes = (s.more bytes).callback want := by
      cases hwant : want s.reader.bytes <;>
        simp only [State.callback, State.more, hwant]
    rw [heq]
    exact .callback hphase

/-- Each call of `writev` is a message, and the kernel passes on what it has accepted, or less: what
the reader does while the writer goes on is among its runs. Messages arrive in order, and when the
writer has no more, the reader can go on until it has them all. -/
theorem connection_delivers {unix connected : Bool} {w : Socket.State UInt8}
    (hw : Socket.Reachable unix connected w)
    (hcalls : w.calls.map bytesOf = messages.map Message.bytes)
    (hpayload : ∀ m ∈ messages, m.payload ≠ some [])
    (hsteps : Relation.ReflTransGen (Step want) { stream := w.accepted } s) :
    s.log <+: deliveries messages ∧ s.closed = false ∧
      (w.wl = none → w.queuedWrites = [] → Framed messages s) := by
  have hbytes : bytesOf w.calls.flatten = encode messages := by
    rw [encode, flatMap_def, ← hcalls, bytesOf, flatMap_def, map_flatten, flatten_flatten, map_map]
    rfl
  obtain ⟨rest, hrest⟩ : w.accepted <+: encode messages := hbytes ▸ ⟨_, hw.inv.balanced.bytes⟩
  have hreach : Reachable messages (s.more rest) := by
    induction hsteps with
    | refl =>
      rw [State.more, hrest]
      exact .init
    | tail _ hstep ih => exact ih.step (hstep.more rest)
  have hframed := framed_of_payload_ne_nil hpayload hreach
  refine ⟨hframed.inOrder, hframed.isOpen, fun hwl hqueued => ?_⟩
  have hall := (hw.inv.idle hwl hqueued).1.trans hbytes
  obtain rfl : rest = [] := append_right_eq_self.1 (hrest.trans hall.symm)
  rwa [State.more, append_nil] at hframed

def withPayload : Message fun _ => some 2 := ⟨[7], some [1, 2], by decide, by decide, rfl⟩

/-- The writer sends the message at once. The reader gets its start, its header and its payload. -/
theorem connection_delivers_withPayload : ∃ w s, Socket.Reachable false true w ∧ w.wl = none ∧
    w.queuedWrites = [] ∧ Relation.ReflTransGen (Step fun _ => some 2) { stream := w.accepted } s ∧
    s.log = deliveries [withPayload] ∧ Framed [withPayload] s := by
  have hw : Socket.Reachable false true _ := .step (.step (.step (.step (.step (.step .init
    (.writev [⟨withPayload.bytes, false⟩] rfl (by decide))) (.store rfl))
    (.sendmsg (.sent 11) rfl (by decide))) (.callback rfl (by decide))) (.wholly rfl id rfl))
    (.finish rfl rfl)
  have hread {r : CachedReader} (data rest : List UInt8) (hroom : data.length ≤ r.room) :
      Reads r (data ++ rest) data rest := ⟨rfl, hroom⟩
  have hsteps : Relation.ReflTransGen (Step fun _ => some 2) { stream := withPayload.bytes } _ :=
    .tail (.tail (.tail (.tail .refl
      (.readStart rfl (by decide) (hread withPayload.start [7, 1, 2] (by decide)) (pends_false _)))
      (.readTargets (.inl rfl) rfl (hread [7] [1, 2] (by decide)) (pends_false _)))
      (.callback rfl))
      (.readTargets (.inr rfl) rfl (hread [1, 2] [] (by decide)) (pends_false _))
  exact ⟨_, _, hw, rfl, rfl, hsteps, rfl,
    (connection_delivers hw rfl (by simp [withPayload]) hsteps).2.2 rfl rfl⟩

/-! ## A run with an empty read -/

variable {size : ℕ} {last : Message want} {rest : List UInt8}

/-- All that has been read is delivered, and the cache is empty and of this size. -/
structure Ready (messages after : List (Message want)) (s : State) (size : ℕ) : Prop where
  reachable : Reachable messages s
  phase : s.phase = .zero
  stream : s.stream = encode after
  unread : s.reader.unread = []
  offset : s.reader.bufferOffset = 0
  size : s.reader.bufferSize = size

theorem extra_of_none (h : m.payload = none) : m.extra = [] := by
  rw [Message.extra, h]
  rfl

theorem startRead_of_nil (h : r.unread = []) (targets : List Target) :
    r.startRead targets = { r with iovecs := targets, iovecsOffset := 0 } := if_pos h

/-- A header is read from the kernel, and nothing goes to the cache. -/
theorem Reachable.readHeader (h : Reachable messages s) (hphase : s.phase = .socketReadIovecs)
    (hfd : s.recvFd = false) (hiovecs : s.reader.iovecs = [⟨[], m.header.length⟩])
    (hoffset : s.reader.iovecsOffset = 0) (hunread : s.reader.unread = [])
    (hstream : s.stream = m.header ++ rest) :
    Reachable messages { s with
      phase := .allDone, recvFd := false, stream := rest
      reader := { s.reader with
        iovecs := [⟨m.header, 0⟩], iovecsOffset := 1, bufferSize := s.reader.grow 0 } } := by
  have hne : m.header.length ≠ 0 := fun h => m.ne_nil (length_eq_zero_iff.mp h)
  have hfill : Filling s.reader ⟨[], m.header.length⟩ m.header.length :=
    ⟨hiovecs, Nat.zero_add _, fun _ => ⟨hunread, hoffset⟩, fun h => absurd h hne⟩
  have hcomplete : s.reader.complete = false := by
    rw [hfill.complete_eq, hoffset]
    rfl
  have hread : Reads s.reader s.stream m.header rest := by
    refine ⟨hstream, ?_⟩
    rw [hfill.room_eq hcomplete]
    exact Nat.le_add_right _ _
  have hstep := h.step (.readTargets (.inl hphase) hcomplete hread (pends_false _))
  rw [readTargets, hfill.done_of_le hcomplete le_rfl] at hstep
  simpa [finish, hphase, hfd, filled, hunread] using hstep

/-- The first message: its start is read alone, and its header is not cached. -/
theorem exists_ready (m : Message want) (after : List (Message want))
    (hpayload : m.payload = none) : ∃ s, Ready (m :: after) after s 4096 := by
  have hinit : Reachable (m :: after) { stream := encode (m :: after) } := .init
  have hread : Reads (({} : CachedReader).reserve 8 |>.startRead []) (encode (m :: after)) m.start
      (m.header ++ (m.extra ++ encode after)) := by
    refine ⟨encode_cons m after, ?_⟩
    rw [length_start]
    decide
  have hshort : ¬ 8 ≤ ([] : List UInt8).length := by decide
  have hstep := hinit.step (.readStart rfl hshort hread (pends_false _))
  rw [readStart_eq _ _ _ _ hshort] at hstep
  dsimp only at hstep
  rw [nil_append, if_pos (length_start m).ge, take_of_length_le (length_start m).le,
    startHeader_start] at hstep
  have hreader : (((({} : CachedReader).reserve 8).fill m.start).skip 8).resetIfEmpty.startRead
      [⟨[], m.header.length⟩] = { iovecs := [⟨[], m.header.length⟩], bufferSize := 4096 } := by
    have hgrow : ({ bufferSize := 8 } : CachedReader).grow 8 = 4096 := by
      simp [grow, bufferFilled, maxBufferSize]
    have hreserve : ({} : CachedReader).reserve 8 = { bufferSize := 8 } := by
      simp [reserve]
    rw [hreserve, fill, length_start, hgrow, nil_append, skip,
      drop_of_length_le (length_start m).le, resetIfEmpty, if_pos rfl, startRead_of_nil rfl]
  rw [hreader, extra_of_none hpayload] at hstep
  have hcallback := (hstep.readHeader rfl rfl rfl rfl rfl rfl).step (.callback rfl)
  rw [callback_none (by simp [bytes]) hpayload] at hcallback
  exact ⟨_, hcallback, rfl, rfl, rfl, rfl, by simp [grow, bufferFilled]⟩

/-- The cache is filled by a message and what comes next. -/
theorem Ready.fillCache (h : Ready messages (m :: after) s size) (hpayload : m.payload = none)
    {more : List UInt8} (hmore : encode after = more ++ rest)
    (hsize : m.header.length + more.length + 8 = size) :
    ∃ s', Reachable messages s' ∧ s'.phase = .zero ∧ s'.stream = rest ∧ s'.reader.unread = more ∧
      s'.reader.bufferOffset = (if more = [] then 0 else m.header.length + 8) ∧
      s'.reader.bufferSize = s.reader.grow size := by
  let data := m.start ++ (m.header ++ more)
  have hdata : data.length = size := by
    simp only [data, length_append, length_start]
    omega
  have hreserve : s.reader.reserve 8 = s.reader := by
    rw [reserve, if_neg]
    rw [h.offset, h.size]
    omega
  have hread : Reads ((s.reader.reserve 8).startRead []) s.stream data rest := by
    constructor
    · rw [h.stream, encode_cons, extra_of_none hpayload, hmore]
      simp [data]
    · rw [hreserve, startRead_nil]
      simp [room, bufferFilled, h.offset, h.unread, h.size, hdata]
  have hshort : ¬ 8 ≤ s.reader.unread.length := by
    rw [h.unread]
    decide
  -- one read fills the cache; the header is then taken from it
  have hstep := h.reachable.step (.readStart h.phase hshort hread (pends_false _))
  have hlong : 8 ≤ data.length := by omega
  rw [readStart_eq _ _ _ _ hshort, hreserve, h.unread, nil_append, if_pos hlong,
    take_left' (length_start m), startHeader_start] at hstep
  have hskip : (s.reader.fill data).skip 8 = { s.reader with
      iovecs := [], iovecsOffset := 0, unread := m.header ++ more, bufferOffset := 8,
      bufferSize := s.reader.grow size } := by
    simp [skip, fill, h.unread, h.offset, hdata, data, drop_left' (length_start m)]
  have hne : m.header ++ more ≠ [] := by simp [m.ne_nil]
  rw [hskip, resetIfEmpty, if_neg hne, startRead, if_neg hne, copyOut_single] at hstep
  have hcallback := (hstep.step (.complete (.inl rfl) (by simp [complete]))).step (.callback rfl)
  rw [callback_none (by simp [bytes, finish]) hpayload] at hcallback
  exact ⟨_, hcallback, rfl, rfl, by simp [finish], by simp [finish, Nat.add_comm], rfl⟩

theorem Ready.grow_eq (h : Ready messages after s size) : s.reader.grow size =
    if size < maxBufferSize then max (min (size * 2) maxBufferSize) 4096 else size := by
  simp [grow, bufferFilled, h.offset, h.unread, h.size]

/-- A message of the size of the cache makes it grow. -/
theorem Ready.next (h : Ready messages (m :: after) s size) (hpayload : m.payload = none)
    (hsize : m.header.length + 8 = size) (hmin : 4096 ≤ size) (hmax : size * 2 ≤ maxBufferSize) :
    ∃ s', Ready messages after s' (size * 2) := by
  obtain ⟨s', hreach, hphase, hstream, hunread, hoffset, hgrow⟩ :=
    h.fillCache hpayload (nil_append (encode after)).symm hsize
  refine ⟨s', hreach, hphase, hstream, hunread, hoffset, ?_⟩
  rw [hgrow, h.grow_eq, if_pos (by omega)]
  omega

/-- The start of the last message is the last in the cache. -/
theorem Ready.exists_emptyRead (h : Ready messages (m :: last :: after) s maxBufferSize)
    (hpayload : m.payload = none) (hlast : last.payload = some [])
    (hsize : m.header.length + 16 = maxBufferSize) (hafter : encode after ≠ []) :
    ∃ s', Reachable messages s' ∧ EmptyRead s' := by
  have hmore : encode (last :: after) = last.start ++ (last.header ++ encode after) := by
    rw [encode_cons, Message.extra, hlast]
    rfl
  obtain ⟨s', hreach, hphase, hstream, hunread, hoffset, hgrow⟩ := h.fillCache hpayload hmore (by
    rw [length_start]
    omega)
  rw [h.grow_eq, if_neg (lt_irrefl _)] at hgrow
  rw [if_neg (ne_nil_of_length_pos (by rw [length_start]; decide))] at hoffset
  have hstep := hreach.step (.cached hphase (by rw [hunread, length_start]))
  have hskip : s'.reader.skip 8 = { s'.reader with
      bufferOffset := maxBufferSize, unread := [], bufferSize := maxBufferSize } := by
    simp [skip, hunread, hoffset, hgrow, length_start, hsize]
  rw [hunread, take_of_length_le (length_start last).le, startHeader_start, hskip,
    startRead_of_nil rfl] at hstep
  have hcallback := (hstep.readHeader rfl rfl rfl rfl rfl hstream).step (.callback rfl)
  rw [callback_some (by simp [bytes]) hlast, startRead_of_nil rfl] at hcallback
  exact ⟨_, hcallback, rfl, rfl, rfl, rfl, by simp [grow], hafter⟩

/-- The receiver awaits an empty payload after a header of one byte. -/
def wantAfterOne (header : List UInt8) : Option ℕ := if header.length = 1 then some 0 else none

def plain (n : ℕ) (h : 1 < n ∧ n < 2 ^ 32) : Message wantAfterOne where
  header := replicate n 0
  payload := none
  ne_nil := by
    rw [ne_eq, List.replicate_eq_nil_iff]
    omega
  lt := by
    rw [List.length_replicate]
    exact h.2
  wanted := by
    rw [wantAfterOne, List.length_replicate, if_neg (by omega)]
    rfl

def withEmptyPayload : Message wantAfterOne := ⟨[0], some [], by decide, by decide, rfl⟩

/-- Each message but the first and the last three has the size of the cache. The next one leaves
the start of the one with the empty payload at the end of the cache. The last one is pending when
the empty payload is read. -/
def cacheFilling : List (Message wantAfterOne) :=
  [plain 2 (by decide), plain 4088 (by decide), plain 8184 (by decide), plain 16376 (by decide),
    plain 32760 (by decide), plain 65528 (by decide), plain 131064 (by decide),
    plain 262128 (by decide), withEmptyPayload, plain 2 (by decide)]

theorem length_plain {n : ℕ} (h : 1 < n ∧ n < 2 ^ 32) (k : ℕ) :
    (plain n h).header.length + k = n + k := by
  rw [plain, length_replicate]

theorem cacheFilling_not_framed : ∃ s, Reachable cacheFilling s ∧ ¬ Framed cacheFilling s := by
  obtain ⟨s₁, h₁⟩ := exists_ready (plain 2 (by decide)) cacheFilling.tail rfl
  obtain ⟨s₂, h₂⟩ := h₁.next rfl (length_plain _ _) (by decide) (by decide)
  obtain ⟨s₃, h₃⟩ := h₂.next rfl (length_plain _ _) (by decide) (by decide)
  obtain ⟨s₄, h₄⟩ := h₃.next rfl (length_plain _ _) (by decide) (by decide)
  obtain ⟨s₅, h₅⟩ := h₄.next rfl (length_plain _ _) (by decide) (by decide)
  obtain ⟨s₆, h₆⟩ := h₅.next rfl (length_plain _ _) (by decide) (by decide)
  obtain ⟨s₇, h₇⟩ := h₆.next rfl (length_plain _ _) (by decide) (by decide)
  obtain ⟨s, hreach, hempty⟩ := h₇.exists_emptyRead rfl rfl (length_plain _ _) (by
    rw [encode_cons]
    exact append_ne_nil_of_left_ne_nil (ne_nil_of_length_pos (by rw [length_start]; decide)) _)
  exact exists_not_framed_of_emptyRead hreach hempty

end Socket.Reader
