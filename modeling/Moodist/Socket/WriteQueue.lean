import Mathlib

/-!
# The write queue of a socket

Model of `writev`, `writevImpl`, `writeLoop` and `triggerWrite` of `core/socket.cc`, of the write
event in `PollThread`, and of the end of `connect`. Any number of threads call `writev`; the one
that holds `writeMutex` sends, runs the callbacks and puts back what the kernel did not take. The
state of that thread is `wl`. `writeQueueMutex` protects the queue: what is done under it is one
step, except that a thread which could not write gives up `writeMutex` while it still has the other
one, tries to arm the trigger and, if an event has come in the meantime, to take `writeMutex` again.

A buffer is the list of its bytes, and a callback the number of its call. The socket is not closed
and the kernel does not fail. `calls`, `accepted` and `completed` record what has happened.
-/

namespace Socket

open List Option

variable {β : Type*}

/-! ## Buffers -/

/-- A buffer; `isFd` if it is the one that stands for a file descriptor. -/
structure Iovec (β : Type*) where
  bytes : List β
  isFd : Bool

/-- `iov_base + r`, `iov_len - r` -/
def Iovec.advance (v : Iovec β) (r : ℕ) : Iovec β := ⟨v.bytes.drop r, v.isFd && r == 0⟩

def bytesOf (vec : List (Iovec β)) : List β := vec.flatMap Iovec.bytes

def iovMax : ℕ := 1024

/-- `msg_iovlen`: on a unix socket, a file descriptor is sent with its own buffer. -/
def msgIovLen (unix : Bool) (vec : List (Iovec β)) : ℕ :=
  let n := min vec.length iovMax
  if unix then
    match (vec.take n).findIdx? Iovec.isFd with
    | some 0 => 1
    | some i => i
    | none => n
  else n

/-- The buffers that are not written whole, with the first one cut. -/
def remaining : List (Iovec β) → ℕ → List (Iovec β)
  | [], _ => []
  | v :: vec, r =>
    if r < v.bytes.length then v.advance r :: vec else remaining vec (r - v.bytes.length)

@[simp] theorem bytesOf_nil : bytesOf ([] : List (Iovec β)) = [] := rfl

@[simp] theorem bytesOf_cons (v : Iovec β) (vec : List (Iovec β)) :
    bytesOf (v :: vec) = v.bytes ++ bytesOf vec := rfl

@[simp] theorem bytesOf_append (vec vec' : List (Iovec β)) :
    bytesOf (vec ++ vec') = bytesOf vec ++ bytesOf vec' := List.flatMap_append

theorem bytesOf_remaining (vec : List (Iovec β)) (r : ℕ) :
    bytesOf (remaining vec r) = (bytesOf vec).drop r := by
  induction vec generalizing r with
  | nil => simp [remaining]
  | cons v vec ih =>
    rw [remaining, bytesOf_cons, drop_append]
    split_ifs with hr
    · rw [bytesOf_cons, Iovec.advance, Nat.sub_eq_zero_of_le hr.le, drop_zero]
    · rw [ih, drop_eq_nil_of_le (Nat.le_of_not_lt hr), nil_append]

theorem take_bytesOf_take (vec : List (Iovec β)) {n r : ℕ}
    (hr : r ≤ (bytesOf (vec.take n)).length) :
    (bytesOf (vec.take n)).take r = (bytesOf vec).take r := by
  conv_rhs => rw [← take_append_drop n vec, bytesOf_append]
  rw [take_append_of_le_length hr]

theorem length_bytesOf_take_le (vec : List (Iovec β)) (n : ℕ) :
    (bytesOf (vec.take n)).length ≤ (bytesOf vec).length := by
  conv_rhs => rw [← take_append_drop n vec, bytesOf_append, length_append]
  exact Nat.le_add_right _ _

/-! ## The socket -/

/-- The bytes of a call that are still to be written, and the call. -/
abbrev Callback := ℕ × ℕ

/-- Where the thread that holds `writeMutex` is. -/
inductive Holder (β : Type*)
  /-- before `writeLoop`, waiting for `writeQueueMutex` -/
  | entering
  /-- in `writevImpl`, before the trigger count is stored -/
  | sending (vec : List (Iovec β)) (callbacks : List Callback)
  /-- before `sendmsg` -/
  | stored (vec : List (Iovec β)) (callbacks : List Callback)
  /-- in the loop over the callbacks, with the buffers that are left -/
  | calling (vec : List (Iovec β)) (writtenForCallback : ℕ) (callbacks : List Callback)
      (canWrite : Bool)
  /-- waiting for `writeQueueMutex` to put back what is left -/
  | merging (newWrites : List (Iovec β)) (newWriteCallbacks : List Callback) (canWrite : Bool)
  /-- all written, waiting for `writeQueueMutex` -/
  | written (canWrite : Bool)

/-- Where the thread that holds `writeQueueMutex` is between two steps. -/
inductive Gate
  | free
  /-- about to arm the trigger -/
  | arming
  /-- an event has come, about to take `writeMutex` -/
  | retrying
  deriving DecidableEq, Repr

structure State (β : Type*) where
  connected : Bool
  queuedWrites : List (Iovec β)
  queuedWriteCallbacks : List Callback
  wl : Option (Holder β)
  ql : Gate
  writeTriggerCount : ℤ
  /-- calls of `triggerWrite` that are scheduled -/
  triggers : ℕ
  calls : List (List (Iovec β))
  accepted : List β
  completed : List ℕ

def init (connected : Bool) : State β where
  connected := connected
  queuedWrites := []
  queuedWriteCallbacks := []
  wl := none
  ql := .free
  writeTriggerCount := 0
  triggers := 0
  calls := []
  accepted := []
  completed := []

/-- What `sendmsg` returns, if it does not fail. -/
inductive SendResult
  | sent (r : ℕ)
  | wouldBlock
  | interrupted
  deriving DecidableEq, Repr

namespace SendResult

def bytes : SendResult → ℕ
  | sent r => r
  | wouldBlock => 0
  | interrupted => 0

def canWrite : SendResult → Bool
  | sent _ => true
  | wouldBlock => false
  | interrupted => true

end SendResult

namespace State

def enqueue (s : State β) (vec : List (Iovec β)) : State β :=
  { s with
    queuedWrites := s.queuedWrites ++ vec
    queuedWriteCallbacks := s.queuedWriteCallbacks ++ [((bytesOf vec).length, s.calls.length)]
    calls := s.calls ++ [vec] }

def writev (s : State β) (vec : List (Iovec β)) : State β :=
  if s.queuedWrites = [] ∧ s.wl.isNone ∧ s.connected then
    { s with
      wl := some (.sending vec [((bytesOf vec).length, s.calls.length)])
      calls := s.calls ++ [vec] }
  else s.enqueue vec

/-- The start of a round of `writeLoop`, with both mutexes; `writeQueueMutex` is given back. -/
def writeLoop (s : State β) : State β :=
  if s.queuedWrites = [] then
    { s with wl := none, ql := .free, writeTriggerCount := -0xffff }
  else
    { s with
      wl := some (.sending s.queuedWrites s.queuedWriteCallbacks)
      ql := .free
      writeTriggerCount := -0xffff
      queuedWrites := []
      queuedWriteCallbacks := [] }

/-- What `writev` and `writeLoop` do after `writevImpl`, with both mutexes. -/
def afterWrite (s : State β) (canWrite : Bool) : State β :=
  if s.queuedWrites = [] then
    { s with wl := none, ql := .free }
  else if canWrite then
    s.writeLoop
  else
    { s with wl := none, ql := .arming }

def putBack (s : State β) (newWrites : List (Iovec β)) (newWriteCallbacks : List Callback) :
    State β :=
  { s with
    queuedWrites := newWrites ++ s.queuedWrites
    queuedWriteCallbacks := newWriteCallbacks ++ s.queuedWriteCallbacks }

end State

def newWriteCallbacks (writtenForCallback : ℕ) : List Callback → List Callback
  | [] => []
  | (first, call) :: callbacks => (first - writtenForCallback, call) :: callbacks

/-- `while (writtenForCallback)` goes on with the first callback. -/
def RunsFirst (writtenForCallback : ℕ) : List Callback → Prop
  | [] => False
  | (first, _) :: _ => 0 < writtenForCallback ∧ first ≤ writtenForCallback

/-- Who makes a step: a caller of `writev`, a thread that is writing, or the threads that wait for
events and connect. -/
inductive Actor
  | caller
  | writer
  | poll
  deriving DecidableEq, Repr

inductive Step (unix : Bool) : Actor → State β → State β → Prop
  | writev {s : State β} (vec : List (Iovec β)) (hql : s.ql = .free) (hvec : bytesOf vec ≠ []) :
      Step unix .caller s (s.writev vec)
  | store {s : State β} {vec : List (Iovec β)} {callbacks : List Callback}
      (hwl : s.wl = some (.sending vec callbacks)) :
      Step unix .writer s
        { s with wl := some (.stored vec callbacks), writeTriggerCount := -0xffff }
  | sendmsg {s : State β} {vec : List (Iovec β)} {callbacks : List Callback} (result : SendResult)
      (hwl : s.wl = some (.stored vec callbacks))
      (hr : result.bytes ≤ (bytesOf (vec.take (msgIovLen unix vec))).length) :
      Step unix .writer s { s with
        wl := some (.calling (remaining vec result.bytes) result.bytes callbacks result.canWrite)
        accepted := s.accepted ++ (bytesOf (vec.take (msgIovLen unix vec))).take result.bytes }
  | callback {s : State β} {vec : List (Iovec β)} {w first call : ℕ} {callbacks : List Callback}
      {canWrite : Bool} (hwl : s.wl = some (.calling vec w ((first, call) :: callbacks) canWrite))
      (hw : RunsFirst w ((first, call) :: callbacks)) :
      Step unix .writer s { s with
        wl := some (.calling vec (w - first) callbacks canWrite)
        completed := s.completed ++ [call] }
  | partly {s : State β} {vec : List (Iovec β)} {w : ℕ} {callbacks : List Callback}
      {canWrite : Bool}
      (hwl : s.wl = some (.calling vec w callbacks canWrite)) (hw : ¬ RunsFirst w callbacks)
      (hvec : vec ≠ []) :
      Step unix .writer s { s with
        wl := some (.merging vec (newWriteCallbacks w callbacks) canWrite) }
  | wholly {s : State β} {vec : List (Iovec β)} {w : ℕ} {callbacks : List Callback}
      {canWrite : Bool}
      (hwl : s.wl = some (.calling vec w callbacks canWrite)) (hw : ¬ RunsFirst w callbacks)
      (hvec : vec = []) : Step unix .writer s { s with wl := some (.written canWrite) }
  | merge {s : State β} {newWrites : List (Iovec β)} {callbacks : List Callback} {canWrite : Bool}
      (hql : s.ql = .free) (hwl : s.wl = some (.merging newWrites callbacks canWrite)) :
      Step unix .writer s ((s.putBack newWrites callbacks).afterWrite canWrite)
  | finish {s : State β} {canWrite : Bool} (hql : s.ql = .free)
      (hwl : s.wl = some (.written canWrite)) : Step unix .writer s (s.afterWrite canWrite)
  | enter {s : State β} (hql : s.ql = .free) (hwl : s.wl = some .entering) :
      Step unix .writer s s.writeLoop
  | arm {s : State β} (hql : s.ql = .arming) (hcount : s.writeTriggerCount = -0xffff) :
      Step unix .writer s { s with ql := .free, writeTriggerCount := 0 }
  | notArmed {s : State β} (hql : s.ql = .arming) (hcount : s.writeTriggerCount ≠ -0xffff) :
      Step unix .writer s { s with ql := .retrying }
  | retry {s : State β} (hql : s.ql = .retrying) (hwl : s.wl = none) :
      Step unix .writer s s.writeLoop
  | giveUp {s : State β} (hql : s.ql = .retrying) (hwl : s.wl ≠ none) :
      Step unix .writer s { s with ql := .free }
  | event {s : State β} :
      Step unix .poll s { s with
        writeTriggerCount := s.writeTriggerCount + 1
        triggers := if s.writeTriggerCount + 1 = 1 then s.triggers + 1 else s.triggers }
  | trigger {s : State β} {n : ℕ} (htriggers : s.triggers = n + 1) (hwl : s.wl = none) :
      Step unix .poll s { s with wl := some .entering, triggers := n }
  | triggerLost {s : State β} {n : ℕ} (htriggers : s.triggers = n + 1) (hwl : s.wl ≠ none) :
      Step unix .poll s { s with triggers := n }
  | connect {s : State β} (hconnected : s.connected = false) (hwl : s.wl = none) :
      Step unix .poll s { s with connected := true, wl := some .entering }

inductive Reachable (unix connected : Bool) : State β → Prop
  | init : Reachable unix connected (init connected)
  | step {s s' : State β} (h : Reachable unix connected s) {actor : Actor}
      (hstep : Step unix actor s s') : Reachable unix connected s'

/-- The kernel has got a start of the bytes of the calls, in order; the callbacks have run in order,
each after the bytes of its call; no list of callbacks runs out; while a thread is writing, it
can go on; and when none is, all is done, or the next event starts one. -/
structure Delivers (unix : Bool) (s : State β) : Prop where
  accepted : s.accepted <+: bytesOf s.calls.flatten
  once : s.completed = range s.completed.length
  issued : s.completed.length ≤ s.calls.length
  after : ∀ call ∈ s.completed,
    (bytesOf (s.calls.take (call + 1)).flatten).length ≤ s.accepted.length
  callbacks : ∀ vec w canWrite, s.wl = some (.calling vec w [] canWrite) → w = 0
  progress : s.wl ≠ none ∨ s.ql ≠ .free → ∃ s', Step unix .writer s s'
  idle : s.wl = none → s.ql = .free → s.queuedWrites = [] →
    s.accepted = bytesOf s.calls.flatten ∧ s.completed = range s.calls.length
  armed : s.wl = none → s.ql = .free → s.queuedWrites ≠ [] → s.connected →
    s.writeTriggerCount = 0 ∨ 0 < s.triggers

/-! ## Bytes and callbacks -/

def total (calls : List (List (Iovec β))) : ℕ := (bytesOf calls.flatten).length

theorem total_append (calls calls' : List (List (Iovec β))) :
    total (calls ++ calls') = total calls + total calls' := by
  simp [total]

theorem total_singleton (vec : List (Iovec β)) : total [vec] = (bytesOf vec).length := by
  simp [total]

theorem total_take_mono (calls : List (List (Iovec β))) {m n : ℕ} (h : m ≤ n) :
    total (calls.take m) ≤ total (calls.take n) := by
  have hsplit : calls.take n = calls.take m ++ (calls.take n).drop m := by
    conv_lhs => rw [← take_append_drop m (calls.take n), take_take, min_eq_left h]
  rw [hsplit, total_append]
  exact Nat.le_add_right _ _

/-- The callbacks are those of the calls from `k` on, and each has the bytes up to the end of its
call, when `base` bytes have been counted. -/
def Owed (calls : List (List (Iovec β))) : ℕ → ℕ → List Callback → Prop
  | base, k, [] => base = total calls ∧ k = calls.length
  | base, k, (first, call) :: callbacks =>
    call = k ∧ 0 < first ∧ base + first = total (calls.take (k + 1)) ∧
      Owed calls (base + first) (k + 1) callbacks

variable {calls : List (List (Iovec β))} {base k : ℕ}

theorem Owed.add_length {callbacks : List Callback} (h : Owed calls base k callbacks) :
    k + callbacks.length = calls.length := by
  induction callbacks generalizing base k with
  | nil => exact h.2
  | cons c callbacks ih =>
    have := ih h.2.2.2
    rw [length_cons]
    omega

variable {vec : List (Iovec β)}

theorem Owed.append {callbacks : List Callback} (h : Owed calls base k callbacks)
    (hvec : bytesOf vec ≠ []) :
    Owed (calls ++ [vec]) base k (callbacks ++ [((bytesOf vec).length, calls.length)]) := by
  induction callbacks generalizing base k with
  | nil =>
    obtain ⟨rfl, rfl⟩ := h
    have htotal : total calls + (bytesOf vec).length = total (calls ++ [vec]) := by
      rw [total_append, total_singleton]
    refine ⟨rfl, length_pos_iff.mpr hvec, ?_, htotal, by simp⟩
    rw [take_of_length_le (by simp)]
    exact htotal
  | cons c callbacks ih =>
    obtain ⟨hcall, hpos, hend, hrest⟩ := h
    have hlen := hrest.add_length
    refine ⟨hcall, hpos, ?_, ih hrest⟩
    rw [take_append_of_le_length (by omega)]
    exact hend

/-- The first callback has got some of its bytes. -/
theorem Owed.reduce {k w : ℕ} {callbacks queued : List Callback}
    (h : Owed calls base k (callbacks ++ queued)) (hw : ∀ c ∈ callbacks.head?, w < c.1)
    (hnil : callbacks = [] → w = 0) :
    Owed calls (base + w) k (newWriteCallbacks w callbacks ++ queued) := by
  cases callbacks with
  | nil =>
    rw [hnil rfl]
    exact h
  | cons c callbacks =>
    obtain ⟨first, call⟩ := c
    obtain ⟨hcall, hpos, hend, hrest⟩ := h
    have hlt : w < first := hw (first, call) rfl
    have heq : base + w + (first - w) = base + first := by omega
    refine ⟨hcall, by omega, ?_, ?_⟩
    · rw [heq]
      exact hend
    · rw [heq]
      exact hrest

def sumFirst (callbacks : List Callback) : ℕ := (callbacks.map Prod.fst).sum

theorem sumFirst_append (callbacks callbacks' : List Callback) :
    sumFirst (callbacks ++ callbacks') = sumFirst callbacks + sumFirst callbacks' := by
  simp [sumFirst]

theorem sumFirst_cons (c : Callback) (callbacks : List Callback) :
    sumFirst (c :: callbacks) = c.1 + sumFirst callbacks := by
  simp [sumFirst]

/-- No callback is without bytes. -/
theorem Owed.pos {callbacks : List Callback} (h : Owed calls base k callbacks) :
    ∀ c ∈ callbacks, 0 < c.1 := by
  induction callbacks generalizing base k with
  | nil => simp
  | cons c callbacks ih =>
    intro c' hc'
    obtain rfl | hc' := mem_cons.mp hc'
    · exact h.2.1
    · exact ih h.2.2.2 c' hc'

/-- What has been written, what the writing thread still has to write and what is queued are the
calls; and so for the callbacks, where `credit` bytes have not been counted for one. -/
structure Balanced (calls : List (List (Iovec β))) (accepted : List β) (completed : List ℕ)
    (held : List β) (callbacks : List Callback) (credit : ℕ) (queued : List (Iovec β))
    (queuedCallbacks : List Callback) : Prop where
  bytes : accepted ++ (held ++ bytesOf queued) = bytesOf calls.flatten
  credit_le : credit ≤ accepted.length
  owed : Owed calls (accepted.length - credit) completed.length (callbacks ++ queuedCallbacks)
  held_sum : sumFirst callbacks = held.length + credit
  queued_sum : sumFirst queuedCallbacks = (bytesOf queued).length
  once : completed = range completed.length
  done : total (calls.take completed.length) ≤ accepted.length

namespace Balanced

variable {accepted : List β} {completed : List ℕ} {held : List β} {callbacks : List Callback}
  {credit : ℕ} {queued : List (Iovec β)} {queuedCallbacks : List Callback}

theorem enqueue (h : Balanced calls accepted completed held callbacks credit queued queuedCallbacks)
    {vec : List (Iovec β)} (hvec : bytesOf vec ≠ []) :
    Balanced (calls ++ [vec]) accepted completed held callbacks credit (queued ++ vec)
      (queuedCallbacks ++ [((bytesOf vec).length, calls.length)]) where
  bytes := by
    rw [bytesOf_append, ← append_assoc held, ← append_assoc accepted, h.bytes]
    simp
  credit_le := h.credit_le
  owed := by
    rw [← append_assoc]
    exact h.owed.append hvec
  held_sum := h.held_sum
  queued_sum := by
    rw [sumFirst_append, h.queued_sum, bytesOf_append, length_append]
    simp [sumFirst]
  once := h.once
  done := by
    have hlen := h.owed.add_length
    rw [take_append_of_le_length (by omega)]
    exact h.done

/-- The queue goes to the thread that writes. -/
theorem take (h : Balanced calls accepted completed [] [] 0 queued queuedCallbacks) :
    Balanced calls accepted completed (bytesOf queued) queuedCallbacks 0 [] [] where
  bytes := by simpa using h.bytes
  credit_le := h.credit_le
  owed := by simpa using h.owed
  held_sum := h.queued_sum
  queued_sum := rfl
  once := h.once
  done := h.done

theorem putBack {newWrites : List (Iovec β)}
    (h : Balanced calls accepted completed (bytesOf newWrites) callbacks 0 queued queuedCallbacks) :
    Balanced calls accepted completed [] [] 0 (newWrites ++ queued)
      (callbacks ++ queuedCallbacks) where
  bytes := by simpa using h.bytes
  credit_le := h.credit_le
  owed := h.owed
  held_sum := rfl
  queued_sum := by
    rw [sumFirst_append, h.held_sum, h.queued_sum, bytesOf_append, length_append, add_zero]
  once := h.once
  done := h.done

theorem send (h : Balanced calls accepted completed held callbacks 0 queued queuedCallbacks)
    {r : ℕ} (hr : r ≤ held.length) :
    Balanced calls (accepted ++ held.take r) completed (held.drop r) callbacks r queued
      queuedCallbacks where
  bytes := by
    rw [append_assoc, ← append_assoc (held.take r), take_append_drop]
    exact h.bytes
  credit_le := by
    rw [length_append, length_take_of_le hr]
    exact Nat.le_add_left _ _
  owed := by
    rw [length_append, length_take_of_le hr, Nat.add_sub_cancel]
    exact h.owed
  held_sum := by
    rw [h.held_sum, length_drop]
    omega
  queued_sum := h.queued_sum
  once := h.once
  done := by
    rw [length_append]
    exact h.done.trans (Nat.le_add_right _ _)

theorem callback {first call : ℕ}
    (h : Balanced calls accepted completed held ((first, call) :: callbacks) credit queued
      queuedCallbacks) (hfirst : first ≤ credit) :
    Balanced calls accepted (completed ++ [call]) held callbacks (credit - first) queued
      queuedCallbacks := by
  obtain ⟨hcall, -, hend, hrest⟩ := h.owed
  have hle := h.credit_le
  have hbase : accepted.length - (credit - first) = accepted.length - credit + first := by omega
  have hsum := h.held_sum
  rw [sumFirst_cons] at hsum
  refine ⟨h.bytes, by omega, ?_, by omega, h.queued_sum, ?_, ?_⟩
  · rw [hbase, length_append]
    exact hrest
  · rw [length_append, length_singleton, range_succ, ← h.once, hcall]
  · rw [length_append, length_singleton, ← hend]
    omega

theorem credit_eq_zero
    (h : Balanced calls accepted completed held [] credit queued queuedCallbacks) : credit = 0 := by
  have hsum : 0 = held.length + credit := h.held_sum
  omega

theorem settle (h : Balanced calls accepted completed held callbacks credit queued queuedCallbacks)
    (hstop : ¬ RunsFirst credit callbacks) :
    Balanced calls accepted completed held (newWriteCallbacks credit callbacks) 0 queued
      queuedCallbacks := by
  have hle := h.credit_le
  have hlt : ∀ c ∈ callbacks.head?, credit < c.1 := by
    intro c hc
    cases callbacks with
    | nil => cases hc
    | cons c' callbacks =>
      obtain rfl : c' = c := some.inj hc
      have hpos := h.owed.pos c' (by simp)
      by_contra hge
      exact hstop ⟨by omega, by omega⟩
  have hnil : callbacks = [] → credit = 0 := by
    rintro rfl
    exact h.credit_eq_zero
  have howed := h.owed.reduce hlt hnil
  rw [Nat.sub_add_cancel hle] at howed
  refine ⟨h.bytes, Nat.zero_le _, howed, ?_, h.queued_sum, h.once, h.done⟩
  have hsum := h.held_sum
  cases callbacks with
  | nil =>
    rw [hnil rfl] at hsum
    exact hsum
  | cons c callbacks =>
    have hfirst := hlt c rfl
    rw [sumFirst_cons] at hsum
    rw [newWriteCallbacks, sumFirst_cons]
    omega

theorem callbacks_eq_nil
    (h : Balanced calls accepted completed [] callbacks credit queued queuedCallbacks)
    (hstop : ¬ RunsFirst credit callbacks) : callbacks = [] := by
  cases callbacks with
  | nil => rfl
  | cons c callbacks =>
    have hsum := h.held_sum
    rw [sumFirst_cons, length_nil] at hsum
    have hpos := h.owed.pos c (by simp)
    exact absurd ⟨by omega, by omega⟩ hstop

theorem queuedCallbacks_eq_nil
    (h : Balanced calls accepted completed held callbacks credit [] queuedCallbacks) :
    queuedCallbacks = [] := by
  cases queuedCallbacks with
  | nil => rfl
  | cons c queuedCallbacks =>
    have hsum := h.queued_sum
    rw [sumFirst_cons] at hsum
    have hpos := h.owed.pos c (by simp)
    have hzero : (bytesOf ([] : List (Iovec β))).length = 0 := rfl
    omega

end Balanced

/-! ## Steps -/

namespace Holder

def held : Holder β → List β
  | entering => []
  | sending vec _ => bytesOf vec
  | stored vec _ => bytesOf vec
  | calling vec _ _ _ => bytesOf vec
  | merging newWrites _ _ => bytesOf newWrites
  | written _ => []

def callbacks : Holder β → List Callback
  | entering => []
  | sending _ callbacks => callbacks
  | stored _ callbacks => callbacks
  | calling _ _ callbacks _ => callbacks
  | merging _ newWriteCallbacks _ => newWriteCallbacks
  | written _ => []

def credit : Holder β → ℕ
  | calling _ writtenForCallback _ _ => writtenForCallback
  | _ => 0

end Holder

/-- The thread with `writeMutex`, as far as bytes and callbacks go. -/
def BalancedWith (s : State β) (wl : Option (Holder β)) : Prop :=
  Balanced s.calls s.accepted s.completed (wl.elim [] Holder.held) (wl.elim [] Holder.callbacks)
    (wl.elim 0 Holder.credit) s.queuedWrites s.queuedWriteCallbacks

/-- When no thread is writing and something is queued, the next event starts one. -/
def Armed (s : State β) : Prop :=
  s.wl = none → s.ql = .free → s.queuedWrites ≠ [] → s.connected →
    s.writeTriggerCount = 0 ∨ 0 < s.triggers

structure Inv (s : State β) : Prop where
  balanced : BalancedWith s s.wl
  armed : Armed s

theorem inv_init (connected : Bool) : Inv (init connected : State β) where
  balanced := ⟨rfl, le_rfl, ⟨rfl, rfl⟩, rfl, rfl, rfl, le_rfl⟩
  armed _ _ hqueued _ := absurd rfl hqueued

variable {s : State β}

theorem armed_of_wl (h : s.wl ≠ none) : Armed s := fun hwl => absurd hwl h

theorem inv_writeLoop (h : BalancedWith s none) : Inv s.writeLoop := by
  unfold State.writeLoop
  split_ifs with hqueued
  · exact ⟨h, fun _ _ hne => absurd hqueued hne⟩
  · exact ⟨h.take, armed_of_wl (some_ne_none _)⟩

theorem inv_afterWrite (h : BalancedWith s none) (canWrite : Bool) :
    Inv (s.afterWrite canWrite) := by
  unfold State.afterWrite
  split_ifs with hqueued
  · exact ⟨h, fun _ _ hne => absurd hqueued hne⟩
  · exact inv_writeLoop h
  · exact ⟨h, fun _ hql => nomatch hql⟩

theorem Inv.writev (h : Inv s) (hql : s.ql = .free) (hvec : bytesOf vec ≠ []) :
    Inv (s.writev vec) := by
  have henqueue := Balanced.enqueue h.balanced hvec
  unfold State.writev
  split_ifs with hdirect
  · -- the call is queued and taken off the queue at once
    obtain ⟨hqueued, hwl, -⟩ := hdirect
    have hnone : s.wl = none := isNone_iff_eq_none.mp hwl
    have hbalanced := h.balanced
    rw [hnone] at henqueue hbalanced
    rw [BalancedWith, hqueued] at hbalanced
    have hcallbacks := hbalanced.queuedCallbacks_eq_nil
    rw [hqueued, hcallbacks, nil_append, nil_append] at henqueue
    refine ⟨?_, armed_of_wl (some_ne_none _)⟩
    have htake := henqueue.take
    rw [BalancedWith]
    dsimp only
    rw [hqueued, hcallbacks]
    exact htake
  · refine ⟨henqueue, fun hwl _ _ hconnected => ?_⟩
    have hwl : s.wl = none := hwl
    have hconnected : s.connected = true := hconnected
    refine h.armed hwl hql (fun hqueued => hdirect ⟨hqueued, ?_, hconnected⟩) hconnected
    rw [hwl]
    rfl

variable {unix : Bool}

theorem Inv.sendmsg (h : Inv s) {callbacks : List Callback} (result : SendResult)
    (hwl : s.wl = some (.stored vec callbacks))
    (hr : result.bytes ≤ (bytesOf (vec.take (msgIovLen unix vec))).length) : Inv { s with
      wl := some (.calling (remaining vec result.bytes) result.bytes callbacks result.canWrite)
      accepted := s.accepted ++ (bytesOf (vec.take (msgIovLen unix vec))).take result.bytes } := by
  have hbalanced := h.balanced
  rw [hwl] at hbalanced
  refine ⟨?_, armed_of_wl (some_ne_none _)⟩
  have hsend := hbalanced.send (hr.trans (length_bytesOf_take_le vec _))
  rw [BalancedWith, take_bytesOf_take vec hr]
  have hheld : (Holder.calling (remaining vec result.bytes) result.bytes callbacks
      result.canWrite).held = (bytesOf vec).drop result.bytes := bytesOf_remaining vec _
  rw [elim_some, hheld]
  exact hsend

theorem Inv.step {actor : Actor} {s' : State β} (h : Inv s) (hstep : Step unix actor s s') :
    Inv s' := by
  have hbalanced := h.balanced
  cases hstep with
  | writev vec hql hvec => exact h.writev hql hvec
  | store hwl | trigger _ hwl | connect _ hwl =>
    rw [hwl] at hbalanced
    exact ⟨hbalanced, armed_of_wl (some_ne_none _)⟩
  | sendmsg result hwl hr => exact h.sendmsg result hwl hr
  | callback hwl hw =>
    rw [hwl] at hbalanced
    exact ⟨hbalanced.callback hw.2, armed_of_wl (some_ne_none _)⟩
  | partly hwl hw _ =>
    rw [hwl] at hbalanced
    exact ⟨hbalanced.settle hw, armed_of_wl (some_ne_none _)⟩
  | wholly hwl hw hvec =>
    rw [hwl] at hbalanced
    subst hvec
    have hsettle := hbalanced.settle hw
    rw [show (some (Holder.calling ([] : List (Iovec β)) _ _ _)).elim [] Holder.callbacks = []
      from hbalanced.callbacks_eq_nil hw] at hsettle
    exact ⟨hsettle, armed_of_wl (some_ne_none _)⟩
  | merge _ hwl =>
    rw [hwl] at hbalanced
    have hput : BalancedWith (s.putBack _ _) none := hbalanced.putBack
    exact inv_afterWrite hput _
  | finish _ hwl =>
    rw [hwl] at hbalanced
    exact inv_afterWrite hbalanced _
  | enter _ hwl | retry _ hwl =>
    rw [hwl] at hbalanced
    exact inv_writeLoop hbalanced
  | arm => exact ⟨hbalanced, fun _ _ _ _ => .inl rfl⟩
  | notArmed => exact ⟨hbalanced, fun _ hql => nomatch hql⟩
  | giveUp _ hwl | triggerLost _ hwl => exact ⟨hbalanced, armed_of_wl hwl⟩
  | event =>
    refine ⟨hbalanced, fun hwl hql hqueued hconnected => .inr ?_⟩
    dsimp only
    split_ifs with hone
    · exact Nat.succ_pos _
    · refine (h.armed hwl hql hqueued hconnected).resolve_left fun hzero => hone ?_
      rw [hzero, zero_add]

theorem Reachable.inv {connected : Bool} (h : Reachable unix connected s) : Inv s := by
  induction h with
  | init => exact inv_init connected
  | step _ hstep ih => exact ih.step hstep

/-! ## Delivery -/

instance decidableRunsFirst (w : ℕ) (callbacks : List Callback) :
    Decidable (RunsFirst w callbacks) :=
  match callbacks with
  | [] => .isFalse not_false
  | _ :: _ => inferInstanceAs (Decidable (_ ∧ _))

/-- A thread that has a mutex can go on. -/
theorem exists_writer_step (unix : Bool) (s : State β) (h : s.wl ≠ none ∨ s.ql ≠ .free) :
    ∃ s', Step unix .writer s s' := by
  cases hql : s.ql with
  | arming =>
    by_cases hcount : s.writeTriggerCount = -0xffff
    · exact ⟨_, .arm hql hcount⟩
    · exact ⟨_, .notArmed hql hcount⟩
  | retrying =>
    by_cases hwl : s.wl = none
    · exact ⟨_, .retry hql hwl⟩
    · exact ⟨_, .giveUp hql hwl⟩
  | free =>
    cases hwl : s.wl with
    | none => exact absurd hql (h.resolve_left fun hne => hne hwl)
    | some holder =>
      cases holder with
      | entering => exact ⟨_, .enter hql hwl⟩
      | sending vec callbacks => exact ⟨_, .store hwl⟩
      | stored vec callbacks => exact ⟨_, .sendmsg .wouldBlock hwl (Nat.zero_le _)⟩
      | calling vec w callbacks canWrite =>
        by_cases hw : RunsFirst w callbacks
        · cases callbacks with
          | nil => exact hw.elim
          | cons c callbacks => exact ⟨_, .callback hwl hw⟩
        · by_cases hvec : vec = []
          · exact ⟨_, .wholly hwl hw hvec⟩
          · exact ⟨_, .partly hwl hw hvec⟩
      | merging newWrites callbacks canWrite => exact ⟨_, .merge hql hwl⟩
      | written canWrite => exact ⟨_, .finish hql hwl⟩

theorem Inv.idle (h : Inv s) (hwl : s.wl = none) (hqueued : s.queuedWrites = []) :
    s.accepted = bytesOf s.calls.flatten ∧ s.completed = range s.calls.length := by
  have hbalanced := h.balanced
  rw [BalancedWith, hwl, hqueued] at hbalanced
  have hbytes := hbalanced.bytes
  have howed := hbalanced.owed
  rw [hbalanced.queuedCallbacks_eq_nil] at howed
  refine ⟨by simpa using hbytes, ?_⟩
  rw [← howed.2]
  exact hbalanced.once

/-- Whatever the calls, the events and the results of the kernel, and in whatever order the threads
run, a socket delivers. -/
theorem writes_delivered {unix connected : Bool} {s : State β} (h : Reachable unix connected s) :
    Delivers unix s where
  accepted := ⟨_, h.inv.balanced.bytes⟩
  once := h.inv.balanced.once
  issued := by
    have hlen := h.inv.balanced.owed.add_length
    omega
  after call hcall := by
    have hbalanced := h.inv.balanced
    rw [hbalanced.once, mem_range] at hcall
    exact (total_take_mono s.calls hcall).trans hbalanced.done
  callbacks vec w canWrite hwl := by
    have hbalanced := h.inv.balanced
    rw [hwl] at hbalanced
    exact hbalanced.credit_eq_zero
  progress := exists_writer_step unix s
  idle hwl _ hqueued := h.inv.idle hwl hqueued
  armed := h.inv.armed

def oneByteSent : State ℕ where
  connected := true
  queuedWrites := []
  queuedWriteCallbacks := []
  wl := some (.calling [⟨[2, 3], false⟩] 1 [(3, 0)] true)
  ql := .free
  writeTriggerCount := -0xffff
  triggers := 0
  calls := [[⟨[1, 2, 3], false⟩]]
  accepted := [1]
  completed := []

theorem reachable_oneByteSent : Reachable false true oneByteSent := by
  have hcall : Reachable false true ((init true).writev [⟨[1, 2, 3], false⟩]) :=
    .step .init (.writev [⟨[1, 2, 3], false⟩] rfl (by decide))
  have hlen : (SendResult.sent 1).bytes ≤ (bytesOf
      (([⟨[1, 2, 3], false⟩] : List (Iovec ℕ)).take (msgIovLen false
        ([⟨[1, 2, 3], false⟩] : List (Iovec ℕ))))).length := by decide
  exact (hcall.step (.store rfl)).step (.sendmsg (.sent 1) rfl hlen)

theorem writes_delivered_oneByteSent : Delivers false oneByteSent ∧ oneByteSent.accepted = [1] :=
  ⟨writes_delivered reachable_oneByteSent, rfl⟩

end Socket
