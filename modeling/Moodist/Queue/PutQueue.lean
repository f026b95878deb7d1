import Mathlib

/-!
# The put queue of a Queue object

Model of `put` and `transactionOp` in `core/queue.cc` with several threads. A put of a CUDA tensor
waits in the put queue until the stream reaches it; puts of CPU tensors and transaction operations
go behind it, or are sent at once if the queue is empty. `putQueueSize` is read without the lock,
and a put of a CUDA tensor raises it before it takes the lock.

An access to `putQueueSize` and a critical section are one step each. A host function sets
`queuedPutReady` of its put without the lock, and then has a critical section.

Main definitions: `step`, what a thread or a host function does next; `Undisturbed`, the condition
on a step; `Correct`, what should hold in every state. Main result: `correct_of_undisturbed`.
-/

namespace PutQueue

open List Function

/-! ## The threads -/

inductive Kind where
  | putCpu
  | putCuda
  | commit
  | cancel
  deriving DecidableEq, Repr

/-- An operation, by the thread that issues it and its place among the thread's operations. -/
structure Item where
  thread : ℕ
  index : ℕ
  kind : Kind
  deriving DecidableEq, Repr

structure QueuedPut where
  item : Item
  queuedPutReady : Bool
  deriving DecidableEq, Repr

open QueuedPut

/-- Where a thread is in an operation. -/
inductive Pc where
  | idle
  | sending (x : Item)
  | locking (x : Item)
  | counted (x : Item)
  | launching (x : Item)
  deriving DecidableEq, Repr

structure Thread where
  next : ℕ
  pc : Pc
  deriving DecidableEq, Repr

/-- `host` are the functions that CUDA has still to run, and `started` those that have set
`queuedPutReady` and not yet taken the lock. -/
structure State where
  threads : ℕ → Thread
  putQueueSize : ℕ
  putQueue : List QueuedPut
  host : List Item
  started : List Item
  sent : List Item
  failed : Bool

inductive Label where
  | thread (t : ℕ)
  | host (x : Item)
  | hostLock (x : Item)
  deriving DecidableEq, Repr

abbrev Program := ℕ → List Kind

def items (prog : Program) (t : ℕ) : List Item :=
  (prog t).zipIdx.map fun k => ⟨t, k.2, k.1⟩

def init : State where
  threads _ := ⟨0, .idle⟩
  putQueueSize := 0
  putQueue := []
  host := []
  started := []
  sent := []
  failed := false

def State.setPc (w : State) (t : ℕ) (pc : Pc) : State :=
  { w with threads := Function.update w.threads t { w.threads t with pc } }

def State.issue (w : State) (t : ℕ) (pc : Pc) : State :=
  { w with threads := Function.update w.threads t ⟨(w.threads t).next + 1, pc⟩ }

/-- Put an operation into the queue. The size has been raised for it. -/
def State.enqueue (w : State) (p : QueuedPut) : State :=
  { w with
    putQueue := w.putQueue ++ [p]
    failed := decide (w.putQueueSize ≠ (w.putQueue ++ [p]).length) }

def State.send (w : State) (x : Item) : State := { w with sent := w.sent ++ [x] }

/-- The first access to `putQueueSize`. -/
def begin (w : State) (t : ℕ) (x : Item) : State :=
  match x.kind with
  | .putCuda => { w.issue t (.counted x) with putQueueSize := w.putQueueSize + 1 }
  | _ => if w.putQueueSize = 0 then w.issue t (.sending x) else w.issue t (.locking x)

def setReady (x : Item) (l : List QueuedPut) : List QueuedPut :=
  l.map fun p => if p.item = x then { p with queuedPutReady := true } else p

/-- The host function, up to its critical section. -/
def runHost (w : State) (x : Item) : State :=
  { w with
    host := w.host.erase x
    started := w.started ++ [x]
    putQueue := setReady x w.putQueue }

/-- The critical section of a host function: everything up to the first operation that is not ready
is sent. -/
def sendReady (w : State) (x : Item) : State :=
  let ready := w.putQueue.takeWhile QueuedPut.queuedPutReady
  { w with
    started := w.started.erase x
    putQueue := w.putQueue.dropWhile QueuedPut.queuedPutReady
    putQueueSize := w.putQueueSize - ready.length
    sent := w.sent ++ ready.map QueuedPut.item
    failed := w.putQueue.isEmpty }

def stepThread (prog : Program) (w : State) (t : ℕ) : Option State :=
  match (w.threads t).pc with
  | .idle => (items prog t)[(w.threads t).next]?.map (begin w t)
  | .sending x => some ((w.send x).setPc t .idle)
  | .locking x =>
    if w.putQueueSize = 0 then
      some ((w.send x).setPc t .idle)
    else
      some ((State.enqueue { w with putQueueSize := w.putQueueSize + 1 } ⟨x, true⟩).setPc t .idle)
  | .counted x => some ((w.enqueue ⟨x, false⟩).setPc t (.launching x))
  | .launching x => some { w.setPc t .idle with host := w.host ++ [x] }

def step (prog : Program) (w : State) (l : Label) : Option State :=
  if w.failed then
    none
  else
    match l with
    | .thread t => stepThread prog w t
    | .host x => if x ∈ w.host then some (runHost w x) else none
    | .hostLock x => if x ∈ w.started then some (sendReady w x) else none

/-- The states of a run. -/
inductive Run (prog : Program) : State → List (State × Label) → State → Prop
  | nil (w) : Run prog w [] w
  | cons {w l w₁ steps w'} (h : step prog w l = some w₁) (hrun : Run prog w₁ steps w') :
      Run prog w ((w, l) :: steps) w'

/-! ## What a run should do -/

def Pc.isCounted : Pc → Bool
  | .counted _ => true
  | _ => false

/-- A thread that queues an operation does so while no other thread has counted one that it has
not yet queued, and a host function takes the lock while its put is still in the queue: that of
another stream has not sent it since it was ready. -/
def Undisturbed (w : State) : Label → Prop
  | .thread t =>
    match (w.threads t).pc with
    | .locking _ => w.putQueueSize ≠ 0 → ∀ s ≠ t, (w.threads s).pc.isCounted = false
    | .counted _ => ∀ s ≠ t, (w.threads s).pc.isCounted = false
    | _ => True
  | .host _ => True
  | .hostLock x => x ∈ w.putQueue.map QueuedPut.item

def Finished (prog : Program) (w : State) : Prop :=
  (∀ t, (w.threads t).pc = .idle ∧ (prog t).length ≤ (w.threads t).next) ∧ w.host = [] ∧
    w.started = []

def State.sentBy (w : State) (t : ℕ) : List Item := w.sent.filter fun x => x.thread = t

/-- No check has failed, each thread's operations have been sent in their order and once at most,
and once each when all is done; until then something can be done. -/
structure Correct (prog : Program) (w : State) : Prop where
  ok : w.failed = false
  order : ∀ t, w.sentBy t <+: items prog t
  all : Finished prog w → ∀ t, w.sentBy t = items prog t
  live : ¬ Finished prog w → ∃ l, (step prog w l).isSome

/-! ## The invariant -/

/-- The operation that has been issued and neither queued nor sent. -/
def Pc.current : Pc → List Item
  | .idle => []
  | .sending x => [x]
  | .locking x => [x]
  | .counted x => [x]
  | .launching _ => []

def queuedBy (queue : List QueuedPut) (t : ℕ) : List Item :=
  (queue.map QueuedPut.item).filter fun x => x.thread = t

/-- The number of threads that have counted an operation and not yet queued it. -/
def Counted (threads : ℕ → Thread) (n : ℕ) : Prop :=
  ∃ l : List ℕ, l.Nodup ∧ (∀ t, t ∈ l ↔ (threads t).pc.isCounted = true) ∧ l.length = n

/-- What is known of a thread: its operations have been sent, are queued or about to be, in their
order. -/
structure ThreadOk (prog : Program) (sent : List Item) (queue : List QueuedPut) (host : List Item)
    (t : ℕ) (th : Thread) : Prop where
  order : (sent.filter fun x => x.thread = t) ++ queuedBy queue t ++ th.pc.current =
    (items prog t).take th.next
  sending : ∀ x, th.pc = .sending x → queuedBy queue t = []
  launch : ∀ x, th.pc = .launching x → x.thread = t ∧ ⟨x, false⟩ ∈ queue ∧ x ∉ host

structure Inv (prog : Program) (w : State) : Prop where
  ok : w.failed = false
  count : ∃ n, Counted w.threads n ∧ w.putQueueSize = w.putQueue.length + n
  head : ∀ p ∈ w.putQueue.head?, p.queuedPutReady = true → p.item ∈ w.started
  waiting : ∀ p ∈ w.putQueue, p.queuedPutReady = false →
    p.item ∈ w.host ∨ ∃ t, (w.threads t).pc = .launching p.item
  hosted : ∀ x ∈ w.host, ⟨x, false⟩ ∈ w.putQueue
  hostNodup : w.host.Nodup
  thread : ∀ t, ThreadOk prog w.sent w.putQueue w.host t (w.threads t)

section Inv

variable {prog : Program} {w : State} {t : ℕ} {x : Item}

theorem thread_of_mem_items (h : x ∈ items prog t) : x.thread = t := by
  obtain ⟨k, -, rfl⟩ := mem_map.mp h
  rfl

theorem items_nodup : (items prog t).Nodup := by
  have hindex : (items prog t).map Item.index = List.range (prog t).length := by
    rw [items, map_map]
    exact (zipIdx_map_snd 0 (prog t)).trans range_eq_range'.symm
  exact List.Nodup.of_map Item.index (hindex ▸ nodup_range)

theorem Inv.init : Inv prog init where
  ok := rfl
  count := ⟨0, ⟨[], .nil, by simp [PutQueue.init, Pc.isCounted], rfl⟩, rfl⟩
  head := by simp [PutQueue.init]
  waiting := by simp [PutQueue.init]
  hosted := by simp [PutQueue.init]
  hostNodup := .nil
  thread t := by
    refine ⟨rfl, ?_, ?_⟩ <;>
    · intro x hx
      cases hx

variable {sent host : List Item} {queue : List QueuedPut} {th : Thread}

theorem ThreadOk.thread_of_current (h : ThreadOk prog sent queue host t th)
    (hx : x ∈ th.pc.current) : x.thread = t := by
  have hmem : x ∈ (items prog t).take th.next := by
    rw [← h.order]
    exact mem_append_right _ hx
  exact thread_of_mem_items (mem_of_mem_take hmem)

theorem ThreadOk.not_mem_queue (h : ThreadOk prog sent queue host t th) (hx : x ∈ th.pc.current)
    (b : Bool) : ⟨x, b⟩ ∉ queue := by
  intro hmem
  have hthread := h.thread_of_current hx
  have hnodup := items_nodup.sublist (take_sublist th.next (items prog t))
  rw [← h.order] at hnodup
  have hqueued : x ∈ queuedBy queue t :=
    mem_filter.mpr ⟨mem_map.mpr ⟨⟨x, b⟩, hmem, rfl⟩, decide_eq_true hthread⟩
  exact (nodup_append.mp hnodup).2.2 x (mem_append_right _ hqueued) x hx rfl

/-! ## The invariant says that a state is correct -/

theorem step_thread (h : w.failed = false) (t : ℕ) :
    step prog w (.thread t) = stepThread prog w t := by
  simp [step, h]

theorem step_host (h : w.failed = false) (x : Item) :
    step prog w (.host x) = if x ∈ w.host then some (runHost w x) else none := by
  simp [step, h]

theorem step_hostLock (h : w.failed = false) (x : Item) :
    step prog w (.hostLock x) = if x ∈ w.started then some (sendReady w x) else none := by
  simp [step, h]

theorem stepThread_isSome
    (h : ¬ ((w.threads t).pc = .idle ∧ (prog t).length ≤ (w.threads t).next)) :
    (stepThread prog w t).isSome := by
  cases hpc : (w.threads t).pc with
  | idle =>
    have hlt : (w.threads t).next < (items prog t).length := by
      rw [items, length_map, length_zipIdx]
      exact not_le.mp fun hle => h ⟨hpc, hle⟩
    simp [stepThread, hpc, List.getElem?_eq_getElem hlt]
  | locking x =>
    simp only [stepThread, hpc]
    split <;> rfl
  | _ => simp [stepThread, hpc]

theorem Inv.queue_nil (h : Inv prog w) (hfin : Finished prog w) : w.putQueue = [] := by
  cases hq : w.putQueue with
  | nil => rfl
  | cons p l =>
    have hready : p.queuedPutReady = false := by
      refine Bool.eq_false_iff.mpr fun hready => ?_
      have hstarted := h.head p (by simp [hq]) hready
      rw [hfin.2.2] at hstarted
      cases hstarted
    rcases h.waiting p (by simp [hq]) hready with hhost | ⟨t, hlaunch⟩
    · rw [hfin.2.1] at hhost
      cases hhost
    · rw [(hfin.1 t).1] at hlaunch
      cases hlaunch

theorem Inv.correct (h : Inv prog w) : Correct prog w where
  ok := h.ok
  order t := by
    have hpre : w.sentBy t <+: (items prog t).take (w.threads t).next := by
      rw [← (h.thread t).order, append_assoc]
      exact prefix_append _ _
    exact hpre.trans <| take_prefix _ _
  all hfin t := by
    have horder := (h.thread t).order
    rw [(hfin.1 t).1, h.queue_nil hfin, take_of_length_le] at horder
    · simpa [Pc.current, queuedBy, State.sentBy] using horder
    · rw [items, length_map, length_zipIdx]
      exact (hfin.1 t).2
  live hfin := by
    by_cases hhost : w.host = []
    · by_cases hstarted : w.started = []
      · obtain ⟨t, ht⟩ : ∃ t,
            ¬ ((w.threads t).pc = .idle ∧ (prog t).length ≤ (w.threads t).next) := by
          by_contra hall
          exact hfin ⟨fun t => not_not.mp fun ht => hall ⟨t, ht⟩, hhost, hstarted⟩
        refine ⟨.thread t, ?_⟩
        rw [step_thread h.ok]
        exact stepThread_isSome ht
      · obtain ⟨x, hx⟩ := exists_mem_of_ne_nil _ hstarted
        refine ⟨.hostLock x, ?_⟩
        rw [step_hostLock h.ok, if_pos hx]
        rfl
    · obtain ⟨x, hx⟩ := exists_mem_of_ne_nil _ hhost
      refine ⟨.host x, ?_⟩
      rw [step_host h.ok, if_pos hx]
      rfl

/-! ## One thread changes -/

section Update

variable {threads : ℕ → Thread} {n : ℕ}

variable (h : Counted threads n)

include h

theorem Counted.same (heq : th.pc.isCounted = (threads t).pc.isCounted) :
    Counted (update threads t th) n := by
  obtain ⟨l, hl, hmem, hlen⟩ := h
  refine ⟨l, hl, fun s => ?_, hlen⟩
  rw [hmem]
  by_cases hs : s = t
  · subst hs
    rw [update_self, heq]
  · rw [update_of_ne hs]

theorem Counted.up (hbefore : (threads t).pc.isCounted = false) (hafter : th.pc.isCounted = true) :
    Counted (update threads t th) (n + 1) := by
  obtain ⟨l, hl, hmem, hlen⟩ := h
  have ht : t ∉ l := by
    rw [hmem, hbefore]
    exact Bool.false_ne_true
  refine ⟨t :: l, nodup_cons.mpr ⟨ht, hl⟩, fun s => ?_, by rw [length_cons, hlen]⟩
  rw [mem_cons, hmem]
  by_cases hs : s = t
  · subst hs
    simp [hafter]
  · rw [update_of_ne hs]
    simp [hs]

theorem Counted.down (hbefore : (threads t).pc.isCounted = true)
    (hafter : th.pc.isCounted = false) : Counted (update threads t th) (n - 1) := by
  obtain ⟨l, hl, hmem, hlen⟩ := h
  have ht : t ∈ l := (hmem t).mpr hbefore
  refine ⟨l.erase t, hl.erase t, fun s => ?_, by rw [length_erase_of_mem ht, hlen]⟩
  rw [hl.mem_erase_iff, hmem]
  by_cases hs : s = t
  · subst hs
    simp [hafter]
  · rw [update_of_ne hs]
    simp [hs]

theorem Counted.eq_zero (ht : (threads t).pc.isCounted = false)
    (hother : ∀ s ≠ t, (threads s).pc.isCounted = false) : n = 0 := by
  obtain ⟨l, -, hmem, rfl⟩ := h
  cases l with
  | nil => rfl
  | cons s l =>
    have hs := (hmem s).mp mem_cons_self
    by_cases hst : s = t
    · rw [hst, ht] at hs
      cases hs
    · rw [hother s hst] at hs
      cases hs

theorem Counted.eq_one (ht : (threads t).pc.isCounted = true)
    (hother : ∀ s ≠ t, (threads s).pc.isCounted = false) : n = 1 := by
  have hn : 0 < n := by
    obtain ⟨l, -, hmem, rfl⟩ := h
    exact length_pos_of_mem ((hmem t).mpr ht)
  have hzero : n - 1 = 0 := by
    have hdown : Counted (update threads t ⟨0, .idle⟩) (n - 1) := h.down ht rfl
    refine hdown.eq_zero (t := t) ?_ fun s hs => ?_
    · rw [update_self]
      rfl
    · rw [update_of_ne hs]
      exact hother s hs
  omega

end Update

variable {w' : State}

/-- The invariant is kept if it is for the thread that changes, and the others keep what is known
of them. -/
theorem Inv.of_update (hthreads : w'.threads = update w.threads t th) (hok : w'.failed = false)
    (hcount : ∃ n, Counted w'.threads n ∧ w'.putQueueSize = w'.putQueue.length + n)
    (hhead : ∀ p ∈ w'.putQueue.head?, p.queuedPutReady = true → p.item ∈ w'.started)
    (hwaiting : ∀ p ∈ w'.putQueue, p.queuedPutReady = false →
      p.item ∈ w'.host ∨ ∃ t, (w'.threads t).pc = .launching p.item)
    (hhosted : ∀ x ∈ w'.host, ⟨x, false⟩ ∈ w'.putQueue) (hnodup : w'.host.Nodup)
    (hself : ThreadOk prog w'.sent w'.putQueue w'.host t th)
    (hother : ∀ s ≠ t, ThreadOk prog w'.sent w'.putQueue w'.host s (w.threads s)) :
    Inv prog w' where
  ok := hok
  count := hcount
  head := hhead
  waiting := hwaiting
  hosted := hhosted
  hostNodup := hnodup
  thread s := by
    rw [hthreads]
    by_cases hs : s = t
    · subst hs
      rwa [update_self]
    · rw [update_of_ne hs]
      exact hother s hs

/-- A thread keeps what is known of it if its operations stay where they are. -/
theorem ThreadOk.frame {sent' host' : List Item} {queue' : List QueuedPut}
    (h : ThreadOk prog sent queue host t th)
    (hsent : (sent'.filter fun x => x.thread = t) = sent.filter fun x => x.thread = t)
    (hqueue : queuedBy queue' t = queuedBy queue t) (hlaunch : ∀ x, x.thread = t → ⟨x, false⟩ ∈
      queue → x ∉ host → ⟨x, false⟩ ∈ queue' ∧ x ∉ host') :
    ThreadOk prog sent' queue' host' t th where
  order := by rw [hsent, hqueue, h.order]
  sending x hx := by rw [hqueue, h.sending x hx]
  launch x hx := by
    obtain ⟨hthread, hmem, hhost⟩ := h.launch x hx
    exact ⟨hthread, hlaunch x hthread hmem hhost⟩

/-- Operations that wait for a thread that launches their function still do if another thread
changes. -/
theorem exists_launching_update {threads : ℕ → Thread} (hpc : (threads t).pc ≠ .launching x)
    (h : ∃ s, (threads s).pc = .launching x) : ∃ s, (update threads t th s).pc = .launching x := by
  obtain ⟨s, hs⟩ := h
  refine ⟨s, ?_⟩
  rw [update_of_ne, hs]
  rintro rfl
  exact hpc hs

@[simp]
theorem queuedBy_append (queue₁ queue₂ : List QueuedPut) :
    queuedBy (queue₁ ++ queue₂) t = queuedBy queue₁ t ++ queuedBy queue₂ t := by
  simp [queuedBy]

theorem queuedBy_self (hx : x.thread = t) (b : Bool) : queuedBy [⟨x, b⟩] t = [x] := by
  simp [queuedBy, hx]

theorem queuedBy_other (hx : x.thread ≠ t) (b : Bool) : queuedBy [⟨x, b⟩] t = [] := by
  simp [queuedBy, hx]

/-! ## The steps of a thread -/

theorem setPc_self (w : State) (t : ℕ) (pc : Pc) : ((w.setPc t pc).threads t).pc = pc := by
  simp [State.setPc]

variable {pc : Pc} {size : ℕ}

theorem Pc.not_launching (h : pc.current ≠ []) (y : Item) : pc ≠ .launching y := by
  rintro rfl
  exact h rfl

theorem ThreadOk.issue {n : ℕ} (h : ThreadOk prog sent queue host t ⟨n, .idle⟩)
    (hx : (items prog t)[n]? = some x) (hcurrent : pc.current = [x])
    (hsending : ∀ y, pc = .sending y → queuedBy queue t = []) :
    ThreadOk prog sent queue host t ⟨n + 1, pc⟩ where
  order := by
    have horder := h.order
    rw [Pc.current, append_nil] at horder
    rw [hcurrent, horder, take_add_one, hx]
    rfl
  sending := hsending
  launch y hy := absurd hy (Pc.not_launching (by simp [hcurrent]) y)

theorem Inv.issue (h : Inv prog w) (hidle : (w.threads t).pc = .idle)
    (hx : (items prog t)[(w.threads t).next]? = some x) (hcurrent : pc.current = [x])
    (hsending : ∀ y, pc = .sending y → queuedBy w.putQueue t = [])
    (hcount : ∃ n, Counted (w.issue t pc).threads n ∧ size = w.putQueue.length + n) :
    Inv prog { w.issue t pc with putQueueSize := size } := by
  have hself : ThreadOk prog w.sent w.putQueue w.host t ⟨(w.threads t).next, .idle⟩ := by
    rw [← hidle]
    exact h.thread t
  refine Inv.of_update rfl h.ok hcount h.head (fun p hp hready => ?_) h.hosted h.hostNodup
    (hself.issue hx hcurrent hsending) fun s _ => h.thread s
  refine (h.waiting p hp hready).imp_right (exists_launching_update ?_)
  rw [hidle]
  exact Pc.noConfusion

theorem Inv.begin (h : Inv prog w) (hidle : (w.threads t).pc = .idle)
    (hx : (items prog t)[(w.threads t).next]? = some x) : Inv prog (begin w t x) := by
  obtain ⟨n, hn, hsize⟩ := h.count
  have hnot : (w.threads t).pc.isCounted = false := by rw [hidle]; rfl
  have hother {pc : Pc} (hcounted : pc.isCounted = false) :
      ∃ n, Counted (w.issue t pc).threads n ∧ w.putQueueSize = w.putQueue.length + n :=
    ⟨n, hn.same (hcounted.trans hnot.symm), hsize⟩
  have hcpu : Inv prog (if w.putQueueSize = 0 then w.issue t (.sending x)
      else w.issue t (.locking x)) := by
    split_ifs with hzero
    · refine h.issue hidle hx rfl (fun _ _ => ?_) (hother rfl)
      have hnil : w.putQueue = [] := length_eq_zero_iff.mp (by omega)
      rw [hnil]
      rfl
    · refine h.issue hidle hx rfl ?_ (hother rfl)
      rintro y ⟨⟩
  unfold PutQueue.begin
  cases x.kind with
  | putCuda =>
    refine h.issue hidle hx rfl ?_ ⟨n + 1, hn.up hnot rfl, by omega⟩
    rintro y ⟨⟩
  | _ => exact hcpu

theorem ThreadOk.send (h : ThreadOk prog sent queue host t th) (hcurrent : th.pc.current = [x])
    (hqueued : queuedBy queue t = []) :
    ThreadOk prog (sent ++ [x]) queue host t ⟨th.next, .idle⟩ where
  order := by
    have hthread : x.thread = t := h.thread_of_current (by simp [hcurrent])
    have horder := h.order
    rw [hcurrent, hqueued, append_nil] at horder
    rw [← horder, hqueued]
    simp [Pc.current, hthread]
  sending _ _ := hqueued
  launch y hy := by cases hy

theorem Inv.send (h : Inv prog w) (hcurrent : (w.threads t).pc.current = [x])
    (hcounted : (w.threads t).pc.isCounted = false) (hqueued : queuedBy w.putQueue t = []) :
    Inv prog ((w.send x).setPc t .idle) := by
  obtain ⟨n, hn, hsize⟩ := h.count
  have hthread : x.thread = t := (h.thread t).thread_of_current (by simp [hcurrent])
  refine Inv.of_update rfl h.ok ⟨n, hn.same hcounted.symm, hsize⟩ h.head (fun p hp hready => ?_)
    h.hosted h.hostNodup ((h.thread t).send hcurrent hqueued)
    fun s hs => (h.thread s).frame ?_ rfl fun _ _ hmem hhost => ⟨hmem, hhost⟩
  · refine (h.waiting p hp hready).imp_right (exists_launching_update ?_)
    exact Pc.not_launching (by rw [State.send, hcurrent]; simp) p.item
  · have hne : x.thread ≠ s := by
      rw [hthread]
      exact hs.symm
    simp [State.send, State.setPc, hne]

theorem ThreadOk.enqueue {sent host : List Item} {queue : List QueuedPut} {th : Thread} {b : Bool}
    {pc : Pc} (h : ThreadOk prog sent queue host t th) (hcurrent : th.pc.current = [x])
    (hpc : pc = if b then .idle else .launching x) (hhost : x ∉ host) :
    ThreadOk prog sent (queue ++ [⟨x, b⟩]) host t ⟨th.next, pc⟩ := by
  have hthread : x.thread = t := h.thread_of_current (by simp [hcurrent])
  have horder := h.order
  rw [hcurrent, append_assoc, ← queuedBy_self hthread b, ← queuedBy_append] at horder
  subst hpc
  cases b with
  | true =>
    refine ⟨by simpa [Pc.current] using horder, ?_, ?_⟩ <;>
    · intro y hy
      cases hy
  | false =>
    refine ⟨by simpa [Pc.current] using horder, ?_, ?_⟩ <;>
    · intro y hy
      cases hy <;>
      exact ⟨hthread, by simp, hhost⟩

/-- A thread queues its operation: ready, behind others, or to become so by its function. -/
theorem Inv.enqueue (h : Inv prog w) {b : Bool} {pc : Pc}
    (hcurrent : (w.threads t).pc.current = [x]) (hpc : pc = if b then .idle else .launching x)
    (hhead : b = true → w.putQueue ≠ [])
    (hcount : Counted (w.setPc t pc).threads 0) (hsize : size = w.putQueue.length + 1) :
    Inv prog ((State.enqueue { w with putQueueSize := size } ⟨x, b⟩).setPc t pc) := by
  have hmem : x ∈ (w.threads t).pc.current := by simp [hcurrent]
  have hthread : x.thread = t := (h.thread t).thread_of_current hmem
  have hhost : x ∉ w.host := fun hx => (h.thread t).not_mem_queue hmem false (h.hosted x hx)
  refine Inv.of_update rfl ?_ ⟨0, hcount, ?_⟩ (fun p hp hready => ?_) (fun p hp hready => ?_) ?_
    h.hostNodup ((h.thread t).enqueue hcurrent hpc hhost)
    fun s hs => (h.thread s).frame rfl ?_ fun _ _ hmem hhost => ⟨mem_append_left _ hmem, hhost⟩
  · simp [State.enqueue, State.setPc, hsize]
  · simp [State.enqueue, State.setPc, hsize]
  -- an operation at the front is not ready: with an empty queue it is the new one
  · cases hq : w.putQueue with
    | nil =>
      have hpx : ⟨x, b⟩ = p := by simpa [State.enqueue, State.setPc, hq] using hp
      rw [← hpx] at hready
      exact absurd hq (hhead hready)
    | cons q l =>
      refine h.head p ?_ hready
      simpa [State.enqueue, State.setPc, hq] using hp
  · rcases mem_append.mp hp with hp | hp
    · refine (h.waiting p hp hready).imp_right (exists_launching_update ?_)
      exact Pc.not_launching (by rw [State.enqueue, hcurrent]; simp) p.item
    · obtain rfl := mem_singleton.mp hp
      refine .inr ⟨t, ?_⟩
      rw [setPc_self, hpc, if_neg (Bool.eq_false_iff.mp hready)]
  · intro y hy
    exact mem_append_left _ (h.hosted y hy)
  · have hne : x.thread ≠ s := by
      rw [hthread]
      exact hs.symm
    simp [State.enqueue, State.setPc, queuedBy_other hne]

theorem Inv.launch (h : Inv prog w) (hpc : (w.threads t).pc = .launching x) :
    Inv prog { w.setPc t .idle with host := w.host ++ [x] } := by
  obtain ⟨n, hn, hsize⟩ := h.count
  obtain ⟨hthread, hmem, hhost⟩ := (h.thread t).launch x hpc
  refine Inv.of_update rfl h.ok ⟨n, hn.same (by rw [hpc]; rfl), hsize⟩ h.head ?_ ?_ ?_ ⟨?_, ?_, ?_⟩
    fun s hs => (h.thread s).frame rfl rfl fun y hy hmem hhost => ⟨hmem, ?_⟩
  · intro p hp hready
    -- an operation that is not ready waits for its own host function
    by_cases hpx : p.item = x
    · exact .inl (mem_append_right _ (by simp [hpx]))
    · refine (h.waiting p hp hready).imp (mem_append_left _) (exists_launching_update ?_)
      rw [hpc]
      intro heq
      exact hpx (Pc.launching.inj heq).symm
  · intro y hy
    rcases mem_append.mp hy with hy | hy
    · exact h.hosted y hy
    · rwa [mem_singleton.mp hy]
  · exact nodup_append.mpr ⟨h.hostNodup, nodup_singleton x, by
      rintro a ha b hb rfl
      rw [mem_singleton.mp hb] at ha
      exact hhost ha⟩
  · have horder := (h.thread t).order
    rwa [hpc] at horder
  · rintro y ⟨⟩
  · rintro y ⟨⟩
  · intro hmem
    rcases mem_append.mp hmem with hmem | hmem
    · exact hhost hmem
    · rw [mem_singleton.mp hmem, hthread] at hy
      exact hs hy.symm

/-! ## A host function -/

theorem setReady_map_item (x : Item) (queue : List QueuedPut) :
    (setReady x queue).map item = queue.map item := by
  rw [setReady, map_map]
  apply map_congr_left
  intro p _
  simp only [comp_apply]
  split_ifs <;> rfl

theorem queuedBy_setReady (x : Item) (queue : List QueuedPut) :
    queuedBy (setReady x queue) t = queuedBy queue t := by
  rw [queuedBy, setReady_map_item, queuedBy]

theorem setReady_length (x : Item) (queue : List QueuedPut) :
    (setReady x queue).length = queue.length := by
  rw [setReady, length_map]

variable {p : QueuedPut} {l : Label}

theorem mem_setReady_of_ne (hp : p ∈ queue) (hne : p.item ≠ x) : p ∈ setReady x queue :=
  mem_map.mpr ⟨p, hp, if_neg hne⟩

theorem mem_of_mem_setReady (hp : p ∈ setReady x queue) (hready : p.queuedPutReady = false) :
    p ∈ queue ∧ p.item ≠ x := by
  obtain ⟨q, hq, rfl⟩ := mem_map.mp hp
  split_ifs at hready ⊢ with hx
  exact ⟨hq, hx⟩

theorem mem_dropWhile_of_not_ready (hp : p ∈ queue) (hready : p.queuedPutReady = false) :
    p ∈ queue.dropWhile queuedPutReady := by
  rw [← takeWhile_append_dropWhile (p := queuedPutReady) (l := queue)] at hp
  refine (mem_append.mp hp).resolve_left fun htake => ?_
  have := mem_takeWhile_imp htake
  rw [hready] at this
  cases this

theorem ThreadOk.runHost (h : ThreadOk prog sent queue host t th) (hx : x ∈ host) :
    ThreadOk prog sent (setReady x queue) (host.erase x) t th := by
  refine h.frame rfl (queuedBy_setReady x queue) fun y _ hmem hhost => ⟨mem_setReady_of_ne hmem ?_,
    fun hy => hhost (mem_of_mem_erase hy)⟩
  rintro rfl
  exact hhost hx

theorem Inv.runHost (h : Inv prog w) (hx : x ∈ w.host) : Inv prog (runHost w x) where
  ok := h.ok
  count := by
    obtain ⟨n, hn, hsize⟩ := h.count
    exact ⟨n, hn, hsize.trans (by rw [PutQueue.runHost, setReady_length])⟩
  head p hp hready := by
    rw [PutQueue.runHost, setReady, head?_map] at hp
    obtain ⟨q, hq, rfl⟩ := Option.mem_map.mp hp
    split_ifs at hready ⊢ with hqx
    · exact mem_append_right _ (mem_singleton.mpr hqx)
    · exact mem_append_left _ (h.head q hq hready)
  waiting p hp hready := by
    obtain ⟨hmem, hne⟩ := mem_of_mem_setReady hp hready
    exact (h.waiting p hmem hready).imp_left (mem_erase_of_ne hne).mpr
  hosted y hy := by
    obtain ⟨hne, hy⟩ := h.hostNodup.mem_erase_iff.mp hy
    exact mem_setReady_of_ne (h.hosted y hy) hne
  hostNodup := h.hostNodup.erase x
  thread t := (h.thread t).runHost hx

theorem ThreadOk.sendReady (h : ThreadOk prog sent queue host t th) :
    ThreadOk prog (sent ++ (queue.takeWhile queuedPutReady).map item)
      (queue.dropWhile queuedPutReady) host t th where
  order := by
    have horder := h.order
    rw [← takeWhile_append_dropWhile (p := queuedPutReady) (l := queue), queuedBy_append] at horder
    rw [filter_append, append_assoc _ _ (queuedBy _ t)]
    exact horder
  sending y hy := by
    have hqueue := h.sending y hy
    refine sublist_nil.mp (hqueue ▸ ?_)
    exact ((dropWhile_sublist _).map item).filter _
  launch y hy := by
    obtain ⟨hthread, hmem, hhost⟩ := h.launch y hy
    exact ⟨hthread, mem_dropWhile_of_not_ready hmem rfl, hhost⟩

theorem Inv.sendReady (h : Inv prog w) (hx : x ∈ w.putQueue.map item) :
    Inv prog (sendReady w x) where
  ok := isEmpty_eq_false_iff.mpr fun hnil => by
    rw [hnil] at hx
    cases hx
  count := by
    obtain ⟨n, hn, hsize⟩ := h.count
    refine ⟨n, hn, ?_⟩
    have hlen := congrArg List.length (takeWhile_append_dropWhile
      (p := queuedPutReady) (l := w.putQueue))
    rw [length_append] at hlen
    simp only [PutQueue.sendReady]
    omega
  head p hp hready := by
    have hnot := List.head?_dropWhile_not queuedPutReady w.putQueue
    have hhead : (w.putQueue.dropWhile queuedPutReady).head? = some p := hp
    rw [hhead] at hnot
    simp [hready] at hnot
  waiting p hp hready := h.waiting p ((dropWhile_sublist _).subset hp) hready
  hosted y hy := mem_dropWhile_of_not_ready (h.hosted y hy) rfl
  hostNodup := h.hostNodup
  thread t := (h.thread t).sendReady

/-! ## Runs -/

theorem Inv.stepThread (h : Inv prog w) (hu : Undisturbed w (.thread t))
    (hstep : stepThread prog w t = some w') : Inv prog w' := by
  obtain ⟨n, hn, hsize⟩ := h.count
  cases hpc : (w.threads t).pc with
  | idle =>
    simp only [PutQueue.stepThread, hpc, Option.map_eq_some_iff] at hstep
    obtain ⟨x, hx, rfl⟩ := hstep
    exact h.begin hpc hx
  | sending x =>
    simp only [PutQueue.stepThread, hpc, Option.some.injEq] at hstep
    subst hstep
    exact h.send (by rw [hpc]; rfl) (by rw [hpc]; rfl) ((h.thread t).sending x hpc)
  | locking x =>
    simp only [PutQueue.stepThread, hpc] at hstep
    simp only [Undisturbed, hpc] at hu
    have hcounted : (w.threads t).pc.isCounted = false := by rw [hpc]; rfl
    -- without queued operations it is sent at once
    split_ifs at hstep with hzero
    · cases hstep
      refine h.send (by rw [hpc]; rfl) hcounted ?_
      rw [length_eq_zero_iff.mp (show w.putQueue.length = 0 by omega)]
      rfl
    · cases hstep
      have hn0 := hn.eq_zero hcounted (hu hzero)
      subst hn0
      refine h.enqueue (by rw [hpc]; rfl) rfl (fun _ hnil => ?_) (hn.same hcounted.symm) (by omega)
      rw [hnil] at hsize
      exact hzero hsize
  | counted x =>
    simp only [PutQueue.stepThread, hpc, Option.some.injEq] at hstep
    simp only [Undisturbed, hpc] at hu
    subst hstep
    have hcounted : (w.threads t).pc.isCounted = true := by rw [hpc]; rfl
    have hn1 := hn.eq_one hcounted hu
    subst hn1
    exact h.enqueue (by rw [hpc]; rfl) rfl Bool.noConfusion (hn.down hcounted rfl) hsize
  | launching x =>
    simp only [PutQueue.stepThread, hpc, Option.some.injEq] at hstep
    subst hstep
    exact h.launch hpc

theorem Inv.step (h : Inv prog w) (hu : Undisturbed w l)
    (hstep : step prog w l = some w') : Inv prog w' := by
  cases l with
  | thread t =>
    rw [step_thread h.ok] at hstep
    exact h.stepThread hu hstep
  | host x =>
    rw [step_host h.ok] at hstep
    split_ifs at hstep with hx
    cases hstep
    exact h.runHost hx
  | hostLock x =>
    rw [step_hostLock h.ok] at hstep
    split_ifs at hstep with hx
    cases hstep
    exact h.sendReady hu

def RunCorrect (prog : Program) (steps : List (State × Label)) (w : State) : Prop :=
  (∀ p ∈ steps, Correct prog p.1) ∧ Correct prog w

variable {steps : List (State × Label)}

theorem Inv.correct_run (h : Inv prog w) (hrun : Run prog w steps w')
    (hu : ∀ p ∈ steps, Undisturbed p.1 p.2) : RunCorrect prog steps w' := by
  induction hrun with
  | nil w => exact ⟨by simp, h.correct⟩
  | cons hstep hrun ih =>
    rw [forall_mem_cons] at hu
    obtain ⟨hall, hlast⟩ := ih (h.step hu.1 hstep) hu.2
    exact ⟨forall_mem_cons.mpr ⟨h.correct, hall⟩, hlast⟩

end Inv

/-- A run is correct in all its states if no thread queues an operation between another's count and
its critical section, and each host function takes the lock while its put is in the queue. -/
theorem correct_of_undisturbed (prog : Program) {steps : List (State × Label)} {w : State}
    (hrun : Run prog init steps w) (hu : ∀ p ∈ steps, Undisturbed p.1 p.2) :
    RunCorrect prog steps w :=
  Inv.init.correct_run hrun hu

def putsAndCommit : Program
  | 0 => [.putCuda, .commit]
  | 1 => [.putCpu]
  | _ => []

/-- A put of another thread and the commit go behind the put of a CUDA tensor, and are sent with it
when the stream reaches it. -/
theorem correct_two_threads : ∃ steps w, Run putsAndCommit init steps w ∧
    RunCorrect putsAndCommit steps w ∧ Finished putsAndCommit w ∧
    w.sent = [⟨0, 0, .putCuda⟩, ⟨1, 0, .putCpu⟩, ⟨0, 1, .commit⟩] := by
  have hrun : Run putsAndCommit init _ _ :=
    .cons (l := .thread 0) rfl <| .cons (l := .thread 0) rfl <| .cons (l := .thread 0) rfl <|
    .cons (l := .thread 1) rfl <| .cons (l := .thread 1) rfl <| .cons (l := .thread 0) rfl <|
    .cons (l := .thread 0) rfl <| .cons (l := .host ⟨0, 0, .putCuda⟩) rfl <|
    .cons (l := .hostLock ⟨0, 0, .putCuda⟩) rfl <| .nil _
  refine ⟨_, _, hrun, correct_of_undisturbed putsAndCommit hrun ?_, ⟨fun t => ?_, rfl, rfl⟩, rfl⟩
  · simp only [forall_mem_cons]
    refine ⟨trivial, fun s hs => ?_, trivial, trivial, fun _ s hs => ?_, trivial, fun _ s hs => ?_,
      trivial, mem_cons_self, nofun⟩
    all_goals
      rcases s with _ | _ | s
      all_goals first | rfl | exact absurd rfl hs
  · rcases t with _ | _ | t <;> exact ⟨rfl, le_rfl⟩

def twoPuts : Program := fun t => if t < 2 then [.putCuda] else []

/-- Both threads count their put before the first takes the lock: the size is two, and one put is
in the queue. -/
theorem check_fails : ∃ steps w, Run twoPuts init steps w ∧ w.failed = true :=
  ⟨_, _, .cons (l := .thread 0) rfl (.cons (l := .thread 1) rfl
    (.cons (l := .thread 0) rfl (.nil _))), rfl⟩

end PutQueue
