import Moodist.Foundation.Lanes

/-!
# The scheduler of the CPU thread

Model of `enqueue` and of the loop over `activeWorks` in `CpuThreadImpl::entry` of
`core/cputhread.cc`. A work waits in the list of its stream and in the list of its concurrency
index, and runs while it is at the front of both. The thread alternates between taking entries off
its queue and going once over the active works; a work that is stepped is then done or not.

A vector of lists is a function to lists with a size; `none` for `cpuThreadIndex` is `-1`, and
`none` for a state is a failed `CHECK` or the front of an empty list. `enqueued`, `activated` and
`finished` record what has happened and are read by nothing.
-/

namespace CpuThread.Scheduler

open Foundation List Function Option

/-! ## The lists -/

def maxConcurrency : ℕ := 16

/-- An entry of the queue. -/
structure Params (σ : Type*) where
  sd : σ
  concurrencyIndex : ℕ
  deriving DecidableEq, Repr

/-- A work; `serial` tells the objects apart. -/
structure Work (σ : Type*) where
  serial : ℕ
  sd : σ
  streamIndex : ℕ
  concurrencyIndex : ℕ
  deriving DecidableEq, Repr

/-- `position` is how many active works the loop has gone past, if it is in the loop. -/
structure State (σ : Type*) where
  cpuThreadIndex : σ → Option ℕ
  concurrency : ℕ → List (Work σ)
  streams : ℕ → List (Work σ)
  numStreams : ℕ
  activeWorks : List (Work σ)
  numActiveWorks : ℕ
  position : Option ℕ
  enqueued : List (Work σ)
  activated : List (Work σ)
  finished : List (Work σ)

open State

variable {σ : Type*} {v : Work σ}

def init : State σ where
  cpuThreadIndex _ := none
  concurrency _ := []
  streams _ := []
  numStreams := 0
  activeWorks := []
  numActiveWorks := 0
  position := none
  enqueued := []
  activated := []
  finished := []

section Code

variable [DecidableEq σ]

namespace State

def assignStream (s : State σ) (sd : σ) : State σ :=
  if s.cpuThreadIndex sd = none then
    { s with
      cpuThreadIndex := update s.cpuThreadIndex sd (some s.numStreams)
      numStreams := s.numStreams + 1 }
  else s

def activate (s : State σ) (works : List (Work σ)) : State σ :=
  { s with
    activeWorks := s.activeWorks ++ works
    numActiveWorks := s.numActiveWorks + works.length
    activated := s.activated ++ works }

def pushBack (s : State σ) (work : Work σ) : State σ :=
  { s with
    streams := update s.streams work.streamIndex (s.streams work.streamIndex ++ [work])
    concurrency := update s.concurrency work.concurrencyIndex
      (s.concurrency work.concurrencyIndex ++ [work])
    enqueued := s.enqueued ++ [work] }

def popFront (s : State σ) (work : Work σ) : State σ :=
  { s with
    streams := update s.streams work.streamIndex (s.streams work.streamIndex).tail
    concurrency := update s.concurrency work.concurrencyIndex
      (s.concurrency work.concurrencyIndex).tail
    finished := s.finished ++ [work] }

/-- `activeWorks.erase(i)`. -/
def eraseAt (s : State σ) (i : ℕ) : State σ :=
  { s with
    activeWorks := s.activeWorks.eraseIdx i
    numActiveWorks := s.numActiveWorks - 1 }

def FrontOfStream (s : State σ) (work : Work σ) : Prop :=
  (s.streams work.streamIndex).head? = some work

def FrontOfConcurrency (s : State σ) (work : Work σ) : Prop :=
  (s.concurrency work.concurrencyIndex).head? = some work

instance decidableFrontOfStream (s : State σ) (work : Work σ) : Decidable (s.FrontOfStream work) :=
  inferInstanceAs (Decidable (_ = _))

instance decidableFrontOfConcurrency (s : State σ) (work : Work σ) :
    Decidable (s.FrontOfConcurrency work) :=
  inferInstanceAs (Decidable (_ = _))

end State

/-! ## Enqueueing and completing works -/

def allocate (s : State σ) (params : Params σ) : Work σ where
  serial := s.enqueued.length
  sd := params.sd
  streamIndex := (s.cpuThreadIndex params.sd).getD (2 ^ 32 - 1)
  concurrencyIndex := params.concurrencyIndex

/-- `enqueue` after the work has been made. -/
def join (s : State σ) (work : Work σ) : Option (State σ) :=
  if work.streamIndex < s.numStreams then
    if s.concurrency work.concurrencyIndex = [] ∧ s.streams work.streamIndex = [] then
      some ((s.activate [work]).pushBack work)
    else some (s.pushBack work)
  else none

def enqueue (s : State σ) (params : Params σ) : Option (State σ) :=
  if params.concurrencyIndex < maxConcurrency then
    join (s.assignStream params.sd) (allocate (s.assignStream params.sd) params)
  else none

/-- The front of a stream, if it is also at the front of its concurrency list. -/
def nextOfStream (s : State σ) (streamIndex : ℕ) : Option (Work σ) :=
  (s.streams streamIndex).head?.filter fun next => s.FrontOfConcurrency next

def nextOfConcurrency (s : State σ) (concurrencyIndex : ℕ) : Option (Work σ) :=
  (s.concurrency concurrencyIndex).head?.filter fun next => s.FrontOfStream next

/-- The works that become active when `w` has been taken off both lists. The second one is not
looked for if the first one has the same concurrency index. -/
def nextWorks (s : State σ) (w : Work σ) : List (Work σ) :=
  let fromStream := nextOfStream s w.streamIndex
  let queuedThisConcurrency :=
    fromStream.any fun next => next.concurrencyIndex = w.concurrencyIndex
  fromStream.toList ++
    if queuedThisConcurrency then [] else (nextOfConcurrency s w.concurrencyIndex).toList

/-- What the loop does with the work at a position when it is done. -/
def complete (s : State σ) (i : ℕ) (w : Work σ) : Option (State σ) :=
  if s.FrontOfConcurrency w ∧ s.FrontOfStream w then
    some (((s.popFront w).activate (nextWorks (s.popFront w) w)).eraseAt i)
  else none

/-- The thread enqueues an entry, starts the loop, steps an active work, or ends the loop. -/
inductive Step : State σ → State σ → Prop
  | enqueue {s s' : State σ} (params : Params σ) (hout : s.position = none)
      (h : enqueue s params = some s') : Step s s'
  | beginLoop {s : State σ} (hout : s.position = none) : Step s { s with position := some 0 }
  | goOn {s : State σ} {i : ℕ} {w : Work σ} (hin : s.position = some i)
      (hw : s.activeWorks[i]? = some w) : Step s { s with position := some (i + 1) }
  | finish {s s' : State σ} {i : ℕ} {w : Work σ} (hin : s.position = some i)
      (hw : s.activeWorks[i]? = some w) (h : complete s i w = some s') : Step s s'
  | endLoop {s : State σ} {i : ℕ} (hin : s.position = some i)
      (hend : s.activeWorks[i]? = none) : Step s { s with position := none }

inductive Reachable : State σ → Prop
  | init : Reachable init
  | step {s s' : State σ} (h : Reachable s) (hstep : Step s s') : Reachable s'

/-- The active works are those at the front of both their lists, no two of them share a stream or an
index; a work is activated once, and in the order of its stream and of its index; the earliest
work that is not finished is active; and when all are finished, all have been activated. -/
structure Scheduled (s : State σ) : Prop where
  active_iff : ∀ w, w ∈ s.activeWorks ↔ s.FrontOfStream w ∧ s.FrontOfConcurrency w
  stream_ne : s.activeWorks.Pairwise fun v w => v.sd ≠ w.sd
  concurrency_ne : s.activeWorks.Pairwise fun v w => v.concurrencyIndex ≠ w.concurrencyIndex
  once : s.activated.Nodup
  activated_iff : ∀ w, w ∈ s.activated ↔ w ∈ s.activeWorks ∨ w ∈ s.finished
  stream_order : ∀ sd, s.activated.filter (fun w => w.sd = sd) <+:
    s.enqueued.filter (fun w => w.sd = sd)
  concurrency_order : ∀ c, s.activated.filter (fun w => w.concurrencyIndex = c) <+:
    s.enqueued.filter (fun w => w.concurrencyIndex = c)
  earliest : ∀ pre w post, s.enqueued = pre ++ w :: post → (∀ v ∈ pre, v ∈ s.finished) →
    w ∉ s.finished → w ∈ s.activeWorks
  all : (∀ w ∈ s.enqueued, w ∈ s.finished) → s.activated.Perm s.enqueued

end Code

/-! ## The invariant -/

/-- The indices given to the streams. -/
structure Indexed (s : State σ) : Prop where
  lt : ∀ {sd i}, s.cpuThreadIndex sd = some i → i < s.numStreams
  inj : ∀ {sd sd' i}, s.cpuThreadIndex sd = some i → s.cpuThreadIndex sd' = some i → sd = sd'
  work : ∀ w ∈ s.enqueued, s.cpuThreadIndex w.sd = some w.streamIndex

def ActivatedBy (key : Work σ → ℕ) (s : State σ) : Prop :=
  Lanes key s.activated s.finished fun k => s.activeWorks.filter fun w => key w = k

/-- What the lists hold between the statements of the thread. -/
structure Inv (s : State σ) : Prop where
  indexed : Indexed s
  serials : s.enqueued.map Work.serial = range s.enqueued.length
  streams : Lanes Work.streamIndex s.enqueued s.finished s.streams
  concurrency : Lanes Work.concurrencyIndex s.enqueued s.finished s.concurrency
  active_iff : ∀ w, w ∈ s.activeWorks ↔ s.FrontOfStream w ∧ s.FrontOfConcurrency w
  active_nodup : s.activeWorks.Nodup
  activatedStreams : ActivatedBy Work.streamIndex s
  activatedConcurrency : ActivatedBy Work.concurrencyIndex s
  count : s.numActiveWorks = s.activeWorks.length

namespace Inv

variable {s : State σ}

theorem enqueued_nodup (h : Inv s) : s.enqueued.Nodup := by
  refine Nodup.of_map Work.serial ?_
  rw [h.serials]
  exact nodup_range

variable {w : Work σ}

variable (h : Inv s)

include h

theorem eq_of_streamIndex (hv : v ∈ s.activeWorks) (hw : w ∈ s.activeWorks)
    (heq : v.streamIndex = w.streamIndex) : v = w := by
  have hv' : (s.streams v.streamIndex).head? = some v := ((h.active_iff v).mp hv).1
  rw [heq, show (s.streams w.streamIndex).head? = some w from ((h.active_iff w).mp hw).1] at hv'
  exact (some.inj hv').symm

theorem eq_of_concurrencyIndex (hv : v ∈ s.activeWorks) (hw : w ∈ s.activeWorks)
    (heq : v.concurrencyIndex = w.concurrencyIndex) : v = w := by
  have hv' : (s.concurrency v.concurrencyIndex).head? = some v := ((h.active_iff v).mp hv).2
  rw [heq,
    show (s.concurrency w.concurrencyIndex).head? = some w from ((h.active_iff w).mp hw).2] at hv'
  exact (some.inj hv').symm

theorem mem_enqueued (hw : w ∈ s.activeWorks) : w ∈ s.enqueued :=
  h.streams.mem_all_of_mem (mem_of_mem_head? ((h.active_iff w).mp hw).1)

theorem prefix_of_lanes {key : Work σ → ℕ} {lanes : ℕ → List (Work σ)}
    (hlanes : Lanes key s.enqueued s.finished lanes) (hactivated : ActivatedBy key s)
    (hfront : ∀ w ∈ s.activeWorks, (lanes (key w)).head? = some w) (k : ℕ) :
    s.activated.filter (fun w => key w = k) <+: s.enqueued.filter fun w => key w = k := by
  rw [hactivated k, hlanes k, prefix_append_right_inj]
  exact Lanes.filter_prefix h.active_nodup hfront

theorem stream_prefix (i : ℕ) : s.activated.filter (fun w => w.streamIndex = i) <+:
      s.enqueued.filter fun w => w.streamIndex = i :=
  h.prefix_of_lanes h.streams h.activatedStreams (fun w hw => ((h.active_iff w).mp hw).1) i

theorem concurrency_prefix (c : ℕ) : s.activated.filter (fun w => w.concurrencyIndex = c) <+:
      s.enqueued.filter fun w => w.concurrencyIndex = c :=
  h.prefix_of_lanes h.concurrency h.activatedConcurrency (fun w hw => ((h.active_iff w).mp hw).2) c

theorem activated_iff (w : Work σ) : w ∈ s.activated ↔ w ∈ s.activeWorks ∨ w ∈ s.finished := by
  have hmem : w ∈ s.activated.filter (fun v => v.streamIndex = w.streamIndex) ↔
      w ∈ s.finished.filter (fun v => v.streamIndex = w.streamIndex) ++
        s.activeWorks.filter fun v => v.streamIndex = w.streamIndex := by
    rw [h.activatedStreams w.streamIndex]
  simpa [or_comm] using hmem

theorem mem_enqueued_of_activated (hw : w ∈ s.activated) : w ∈ s.enqueued :=
  ((h.activated_iff w).mp hw).elim h.mem_enqueued h.streams.mem_all_of_mem_gone

end Inv

theorem inv_init : Inv (init : State σ) where
  indexed := ⟨nofun, nofun, nofun⟩
  serials := rfl
  streams := Lanes.nil
  concurrency := Lanes.nil
  active_iff w := by simp [init, FrontOfStream]
  active_nodup := nodup_nil
  activatedStreams := Lanes.nil
  activatedConcurrency := Lanes.nil
  count := rfl

variable {s : State σ}

theorem Inv.setPosition (h : Inv s) (position : Option ℕ) :
    Inv { s with position := position } where
  indexed := ⟨h.indexed.lt, h.indexed.inj, h.indexed.work⟩
  serials := h.serials
  streams := h.streams
  concurrency := h.concurrency
  active_iff := h.active_iff
  active_nodup := h.active_nodup
  activatedStreams := h.activatedStreams
  activatedConcurrency := h.activatedConcurrency
  count := h.count

theorem frontOfStream_pushBack (s : State σ) (w v : Work σ) :
    (s.pushBack w).FrontOfStream v ↔
      s.FrontOfStream v ∨ (v = w ∧ s.streams w.streamIndex = []) :=
  Lanes.head?_push_iff Work.streamIndex s.streams w v

theorem frontOfConcurrency_pushBack (s : State σ) (w v : Work σ) :
    (s.pushBack w).FrontOfConcurrency v ↔
      s.FrontOfConcurrency v ∨ (v = w ∧ s.concurrency w.concurrencyIndex = []) :=
  Lanes.head?_push_iff Work.concurrencyIndex s.concurrency w v

variable {w : Work σ}

theorem Inv.notMem_of_serial (h : Inv s) (hserial : w.serial = s.enqueued.length) :
    w ∉ s.enqueued := by
  intro hw
  have hmem := mem_map_of_mem (f := Work.serial) hw
  rw [h.serials, mem_range, hserial] at hmem
  exact hmem.false

theorem frontOfStream_popFront_of_ne (hne : v.streamIndex ≠ w.streamIndex) :
    (s.popFront w).FrontOfStream v ↔ s.FrontOfStream v :=
  iff_of_eq (congrArg (· = some v) (Lanes.head?_pop_of_ne Work.streamIndex s.streams hne))

theorem frontOfConcurrency_popFront_of_ne (hne : v.concurrencyIndex ≠ w.concurrencyIndex) :
    (s.popFront w).FrontOfConcurrency v ↔ s.FrontOfConcurrency v :=
  iff_of_eq (congrArg (· = some v)
    (Lanes.head?_pop_of_ne Work.concurrencyIndex s.concurrency hne))

variable {i : ℕ}

theorem eraseIdx_append_of_getElem? {l : List (Work σ)} (works : List (Work σ))
    (h : l[i]? = some w) : ∃ front back, l = front ++ w :: back ∧
      (l ++ works).eraseIdx i = front ++ back ++ works := by
  obtain ⟨hi, rfl⟩ := List.getElem?_eq_some_iff.mp h
  refine ⟨l.take i, l.drop (i + 1), ?_, ?_⟩
  · rw [getElem_cons_drop, take_append_drop]
  · rw [eraseIdx_append_of_lt_length hi, eraseIdx_eq_take_drop_succ]

variable [DecidableEq σ]

theorem Inv.assignStream (h : Inv s) (sd : σ) : Inv (s.assignStream sd) := by
  unfold State.assignStream
  split_ifs with hnone
  · have hindexed : Indexed { s with
        cpuThreadIndex := update s.cpuThreadIndex sd (some s.numStreams)
        numStreams := s.numStreams + 1 } := by
      refine ⟨?_, ?_, ?_⟩
      · intro sd' i hi
        simp only [update_apply] at hi
        split_ifs at hi with heq
        · have := some.inj hi
          dsimp only
          omega
        · exact (h.indexed.lt hi).trans (Nat.lt_succ_self _)
      · intro sd' sd'' i hi hi'
        simp only [update_apply] at hi hi'
        split_ifs at hi hi' with h' h''
        · rw [h', h'']
        · have := h.indexed.lt hi'
          have := some.inj hi
          omega
        · have := h.indexed.lt hi
          have := some.inj hi'
          omega
        · exact h.indexed.inj hi hi'
      · intro w hw
        have hindex := h.indexed.work w hw
        have hne : w.sd ≠ sd := by
          intro heq
          rw [heq, hnone] at hindex
          cases hindex
        exact (update_of_ne hne _ _).trans hindex
    exact ⟨hindexed, h.serials, h.streams, h.concurrency, h.active_iff, h.active_nodup,
      h.activatedStreams, h.activatedConcurrency, h.count⟩
  · exact h

theorem State.assignStream_isSome (s : State σ) (sd : σ) :
    ((s.assignStream sd).cpuThreadIndex sd).isSome := by
  unfold assignStream
  split_ifs with hnone
  · simp
  · exact isSome_iff_ne_none.mpr hnone

variable {s' : State σ} {params : Params σ}

/-- A new work joins both lists, and the active ones if it is alone in both. -/
theorem Inv.of_join (h : Inv s) (hserial : w.serial = s.enqueued.length)
    (hindex : s.cpuThreadIndex w.sd = some w.streamIndex) (hjoin : join s w = some s') :
    Inv s' := by
  have hnew := h.notMem_of_serial hserial
  have hindexed : Indexed (s.pushBack w) := by
    refine ⟨h.indexed.lt, h.indexed.inj, fun v hv => ?_⟩
    obtain hv | hv := mem_append.mp hv
    · exact h.indexed.work v hv
    · rw [mem_singleton.mp hv]
      exact hindex
  have hserials : (s.pushBack w).enqueued.map Work.serial =
      range (s.pushBack w).enqueued.length := by
    simp only [pushBack, map_append, h.serials, length_append, map_singleton,
      length_singleton, range_succ, hserial]
  have hnotStream : ¬ s.FrontOfStream w := fun hw =>
    hnew (h.streams.mem_all_of_mem (mem_of_mem_head? hw))
  -- no work leaves the front of a list, and the new one is there only if it is alone
  have hfront : ∀ v, (s.pushBack w).FrontOfStream v ∧ (s.pushBack w).FrontOfConcurrency v ↔
      v ∈ s.activeWorks ∨
        (v = w ∧ s.concurrency w.concurrencyIndex = [] ∧ s.streams w.streamIndex = []) := by
    intro v
    rw [frontOfStream_pushBack, frontOfConcurrency_pushBack, h.active_iff]
    by_cases hv : v = w
    · subst hv
      have hnotConcurrency : ¬ s.FrontOfConcurrency v := fun hw =>
        hnew (h.concurrency.mem_all_of_mem (mem_of_mem_head? hw))
      simp [hnotStream, hnotConcurrency, and_comm]
    · simp [hv]
  unfold join at hjoin
  split_ifs at hjoin with hlt hempty
  · cases hjoin
    refine ⟨⟨hindexed.lt, hindexed.inj, hindexed.work⟩, hserials, h.streams.push w,
      h.concurrency.push w, fun v => ?_, ?_, h.activatedStreams.append_of_filter [w],
      h.activatedConcurrency.append_of_filter [w], ?_⟩
    · refine Iff.trans ?_ (hfront v).symm
      simp [pushBack, activate, hempty.1, hempty.2]
    · have hnodup : (s.activeWorks ++ [w]).Nodup := by
        rw [nodup_append_comm, singleton_append, nodup_cons]
        exact ⟨fun hw => hnew (h.mem_enqueued hw), h.active_nodup⟩
      exact hnodup
    · simp [pushBack, activate, h.count]
  · cases hjoin
    refine ⟨hindexed, hserials, h.streams.push w, h.concurrency.push w, fun v => ?_,
      h.active_nodup, h.activatedStreams, h.activatedConcurrency, h.count⟩
    rw [hfront v, or_iff_left fun hv => hempty hv.2]
    rfl

/-- The only check of `enqueue` that can fail is the one of the concurrency index. -/
theorem Inv.enqueue_isSome (h : Inv s)
    (hindex : params.concurrencyIndex < maxConcurrency) : (enqueue s params).isSome := by
  obtain ⟨i, hi⟩ := isSome_iff_exists.mp (s.assignStream_isSome params.sd)
  have hlt := (h.assignStream params.sd).indexed.lt hi
  have hwork : (allocate (s.assignStream params.sd) params).streamIndex = i := by
    simp [allocate, hi]
  rw [enqueue, if_pos hindex, join, hwork, if_pos hlt]
  split_ifs <;> rfl

theorem Inv.of_enqueue (h : Inv s) (henqueue : enqueue s params = some s') :
    Inv s' := by
  unfold enqueue at henqueue
  split_ifs at henqueue
  obtain ⟨i, hi⟩ := isSome_iff_exists.mp (s.assignStream_isSome params.sd)
  refine (h.assignStream params.sd).of_join rfl ?_ henqueue
  simp [allocate, hi]

/-! ## Completing a work -/

theorem nextOfStream_eq_some_iff :
    nextOfStream s i = some v ↔ (s.streams i).head? = some v ∧ s.FrontOfConcurrency v := by
  simp [nextOfStream, filter_eq_some_iff]

theorem nextOfConcurrency_eq_some_iff {c : ℕ} :
    nextOfConcurrency s c = some v ↔ (s.concurrency c).head? = some v ∧ s.FrontOfStream v := by
  simp [nextOfConcurrency, filter_eq_some_iff]

theorem option_toList_nodup {α : Type*} (o : Option α) : o.toList.Nodup := by
  cases o <;> simp

section NextWorks

variable (hstreams : Lanes Work.streamIndex s.enqueued s.finished s.streams)
  (hconcurrency : Lanes Work.concurrencyIndex s.enqueued s.finished s.concurrency)

include hstreams in
theorem frontOfStream_of_nextOfStream (h : nextOfStream s w.streamIndex = some v) :
    v.streamIndex = w.streamIndex ∧ s.FrontOfStream v ∧ s.FrontOfConcurrency v := by
  obtain ⟨hhead, hfront⟩ := nextOfStream_eq_some_iff.1 h
  have hindex := hstreams.key_eq_of_mem (mem_of_mem_head? hhead)
  refine ⟨hindex, ?_, hfront⟩
  rw [FrontOfStream, hindex]
  exact hhead

include hconcurrency in
theorem frontOfConcurrency_of_nextOfConcurrency
    (h : nextOfConcurrency s w.concurrencyIndex = some v) :
    v.concurrencyIndex = w.concurrencyIndex ∧ s.FrontOfStream v ∧ s.FrontOfConcurrency v := by
  obtain ⟨hhead, hfront⟩ := nextOfConcurrency_eq_some_iff.1 h
  have hindex := hconcurrency.key_eq_of_mem (mem_of_mem_head? hhead)
  refine ⟨hindex, hfront, ?_⟩
  rw [FrontOfConcurrency, hindex]
  exact hhead

theorem any_nextOfStream_iff (c : ℕ) :
    ((nextOfStream s w.streamIndex).any fun next => next.concurrencyIndex = c) = true ↔
      ∃ next, nextOfStream s w.streamIndex = some next ∧ next.concurrencyIndex = c := by
  cases nextOfStream s w.streamIndex <;> simp

include hstreams hconcurrency in
/-- The works at the front of both lists, one of which is a list of `w`. -/
theorem mem_nextWorks_iff (v : Work σ) :
    v ∈ nextWorks s w ↔ (s.FrontOfStream v ∧ s.FrontOfConcurrency v) ∧
      (v.streamIndex = w.streamIndex ∨ v.concurrencyIndex = w.concurrencyIndex) := by
  rw [nextWorks, mem_append]
  constructor
  · rintro (hv | hv)
    · obtain ⟨hindex, hfront⟩ := frontOfStream_of_nextOfStream hstreams (mem_toList.mp hv)
      exact ⟨hfront, .inl hindex⟩
    · split_ifs at hv
      · cases hv
      · obtain ⟨hindex, hfront⟩ :=
          frontOfConcurrency_of_nextOfConcurrency hconcurrency (mem_toList.mp hv)
        exact ⟨hfront, .inr hindex⟩
  · rintro ⟨⟨hstream, hconc⟩, hindex⟩
    by_cases hsame : v.streamIndex = w.streamIndex
    · refine .inl (mem_toList.mpr (nextOfStream_eq_some_iff.2 ⟨?_, hconc⟩))
      rw [← hsame]
      exact hstream
    · have hconcIndex := hindex.resolve_left hsame
      have hhead : (s.concurrency w.concurrencyIndex).head? = some v := by
        rw [← hconcIndex]
        exact hconc
      refine .inr ?_
      rw [if_neg]
      · exact mem_toList.mpr (nextOfConcurrency_eq_some_iff.2 ⟨hhead, hstream⟩)
      · -- a work of the stream with the index of `w` is at the front of that list, so it is `v`
        intro hqueued
        obtain ⟨next, hnext, heq⟩ := (any_nextOfStream_iff _).mp hqueued
        obtain ⟨hnextIndex, -, hfront⟩ := frontOfStream_of_nextOfStream hstreams hnext
        rw [FrontOfConcurrency, heq, hhead] at hfront
        exact hsame (some.inj hfront ▸ hnextIndex)

include hconcurrency in
theorem nextWorks_nodup : (nextWorks s w).Nodup := by
  rw [nextWorks, nodup_append]
  refine ⟨option_toList_nodup _, ?_, ?_⟩
  · split_ifs
    · exact nodup_nil
    · exact option_toList_nodup _
  · intro v hv v' hv' heq
    subst heq
    split_ifs at hv' with hqueued
    · cases hv'
    · obtain ⟨hindex, -⟩ := frontOfConcurrency_of_nextOfConcurrency hconcurrency (mem_toList.mp hv')
      exact hqueued ((any_nextOfStream_iff _).mpr ⟨v, mem_toList.mp hv, hindex⟩)

end NextWorks

/-- The works that become active are those that were behind `w` in one of its lists. -/
theorem Inv.of_complete (h : Inv s) (hw : s.activeWorks[i]? = some w)
    (hcomplete : complete s i w = some s') : Inv s' := by
  unfold complete at hcomplete
  split_ifs at hcomplete with hfront
  obtain ⟨hconc, hstream⟩ := hfront
  cases hcomplete
  have hstreams := h.streams.pop hstream
  have hconcurrency := h.concurrency.pop hconc
  have hnext := mem_nextWorks_iff (s := s.popFront w) (w := w) hstreams hconcurrency
  have hnextNodup := nextWorks_nodup (s := s.popFront w) (w := w) hconcurrency
  generalize nextWorks (s.popFront w) w = works at hnext hnextNodup
  obtain ⟨front, back, heq, herase⟩ := eraseIdx_append_of_getElem? works hw
  have hwmem : w ∈ s.activeWorks := mem_of_getElem? hw
  have hmiddle : (w :: (front ++ back)).Nodup := by
    rw [← nodup_middle, ← heq]
    exact h.active_nodup
  have hmem : ∀ v, v ∈ s.activeWorks ↔ v = w ∨ v ∈ front ++ back := by
    intro v
    rw [heq, mem_append, mem_cons, mem_append]
    tauto
  have hother : ∀ v ∈ front ++ back, v ∈ s.activeWorks ∧ v ≠ w := by
    intro v hv
    refine ⟨(hmem v).mpr (.inr hv), fun hvw => (nodup_cons.mp hmiddle).1 ?_⟩
    exact hvw ▸ hv
  -- no other active work is in a list of `w`: there `w` is in front
  have hstreamNe : ∀ v ∈ front ++ back, v.streamIndex ≠ w.streamIndex := fun v hv hindex =>
    (hother v hv).2 (h.eq_of_streamIndex (hother v hv).1 hwmem hindex)
  have hconcNe : ∀ v ∈ front ++ back, v.concurrencyIndex ≠ w.concurrencyIndex := fun v hv hindex =>
    (hother v hv).2 (h.eq_of_concurrencyIndex (hother v hv).1 hwmem hindex)
  have hactive : ∀ v, v ∈ front ++ back ++ works ↔
      (s.popFront w).FrontOfStream v ∧ (s.popFront w).FrontOfConcurrency v := by
    intro v
    rw [mem_append, hnext v]
    -- the works of the lists of `w` are those of `nextWorks`; the others were active before
    by_cases hrel : v.streamIndex = w.streamIndex ∨ v.concurrencyIndex = w.concurrencyIndex
    · have hv : v ∉ front ++ back := fun hv => hrel.elim (hstreamNe v hv) (hconcNe v hv)
      simp [hv, hrel]
    · obtain ⟨hs, hc⟩ := not_or.mp hrel
      have hvw : v ≠ w := fun heq => hs (heq ▸ rfl)
      rw [frontOfStream_popFront_of_ne hs, frontOfConcurrency_popFront_of_ne hc, ← h.active_iff,
        hmem]
      simp [hvw, hrel]
  have hnodup : (front ++ back ++ works).Nodup := by
    rw [nodup_append]
    refine ⟨(nodup_cons.mp hmiddle).2, hnextNodup, ?_⟩
    rintro v hv v' hv' rfl
    exact ((hnext v).mp hv').2.elim (hstreamNe v hv) (hconcNe v hv)
  have hactivatedStreams := h.activatedStreams
  have hactivatedConcurrency := h.activatedConcurrency
  rw [ActivatedBy, heq] at hactivatedStreams hactivatedConcurrency
  refine ⟨⟨h.indexed.lt, h.indexed.inj, h.indexed.work⟩, h.serials, hstreams, hconcurrency,
    fun v => ?_, ?_, ?_, ?_, ?_⟩
  · refine Iff.trans ?_ (hactive v)
    exact iff_of_eq (congrArg (v ∈ ·) herase)
  · rw [← herase] at hnodup
    exact hnodup
  · have hlanes := (hactivatedStreams.remove_of_filter hstreamNe).append_of_filter works
    rw [← herase] at hlanes
    exact hlanes
  · have hlanes := (hactivatedConcurrency.remove_of_filter hconcNe).append_of_filter works
    rw [← herase] at hlanes
    exact hlanes
  · have hlength := congrArg length herase
    have hcount := h.count
    rw [heq] at hcount
    simp only [length_append, length_cons] at hlength hcount
    simp only [eraseAt, activate, popFront]
    rw [hlength]
    omega

theorem Inv.complete_isSome (h : Inv s) (hw : s.activeWorks[i]? = some w) :
    (complete s i w).isSome := by
  obtain ⟨hstream, hconc⟩ := (h.active_iff w).mp (mem_of_getElem? hw)
  rw [complete, if_pos ⟨hconc, hstream⟩]
  rfl

theorem Inv.step (h : Inv s) (hstep : Step s s') : Inv s' := by
  cases hstep with
  | enqueue params _ henqueue => exact h.of_enqueue henqueue
  | beginLoop | goOn | endLoop => exact h.setPosition _
  | finish _ hw hcomplete => exact h.of_complete hw hcomplete

theorem Reachable.inv (h : Reachable s) : Inv s := by
  induction h with
  | init => exact inv_init
  | step _ hstep ih => exact ih.step hstep

/-! ## The order of activation -/

section Order

theorem Inv.activated_nodup (h : Inv s) : s.activated.Nodup := by
  rw [nodup_iff_count_le_one]
  intro w
  calc s.activated.count w
      = (s.activated.filter fun v => v.streamIndex = w.streamIndex).count w :=
        (count_filter (by simp)).symm
    _ ≤ (s.enqueued.filter fun v => v.streamIndex = w.streamIndex).count w :=
        (h.stream_prefix w.streamIndex).sublist.count_le w
    _ ≤ 1 := nodup_iff_count_le_one.mp (h.enqueued_nodup.filter _) w

theorem Inv.filter_sd (h : Inv s) {sd : σ} {i : ℕ} (hi : s.cpuThreadIndex sd = some i)
    {works : List (Work σ)} (hworks : ∀ w ∈ works, w ∈ s.enqueued) :
    works.filter (fun w => w.sd = sd) = works.filter fun w => w.streamIndex = i := by
  refine filter_congr fun w hw => ?_
  have hindex := h.indexed.work w (hworks w hw)
  rw [decide_eq_decide]
  constructor
  · intro hsd
    rw [hsd, hi] at hindex
    exact (some.inj hindex).symm
  · intro hwi
    rw [hwi] at hindex
    exact h.indexed.inj hindex hi

theorem Inv.sd_prefix (h : Inv s) (sd : σ) :
    s.activated.filter (fun w => w.sd = sd) <+: s.enqueued.filter fun w => w.sd = sd := by
  cases hi : s.cpuThreadIndex sd with
  | some i =>
    rw [h.filter_sd hi fun w hw => h.mem_enqueued_of_activated hw, h.filter_sd hi fun w hw => hw]
    exact h.stream_prefix i
  | none =>
    have hnone : s.activated.filter (fun w => w.sd = sd) = [] := by
      rw [filter_eq_nil_iff]
      intro w hw hsd
      have hindex := h.indexed.work w (h.mem_enqueued_of_activated hw)
      rw [of_decide_eq_true hsd, hi] at hindex
      cases hindex
    rw [hnone]
    exact nil_prefix

theorem Inv.scheduled (h : Inv s) : Scheduled s where
  active_iff := h.active_iff
  stream_ne := h.active_nodup.imp_of_mem fun {v w} hv hw hne hsd => hne <| by
    have hindex := h.indexed.work v (h.mem_enqueued hv)
    rw [hsd, h.indexed.work w (h.mem_enqueued hw)] at hindex
    exact h.eq_of_streamIndex hv hw (some.inj hindex).symm
  concurrency_ne := h.active_nodup.imp_of_mem fun hv hw hne hindex =>
    hne (h.eq_of_concurrencyIndex hv hw hindex)
  once := h.activated_nodup
  activated_iff := h.activated_iff
  stream_order := h.sd_prefix
  concurrency_order := h.concurrency_prefix
  earliest pre w post heq hpre hw := (h.active_iff w).mpr
    ⟨h.streams.head?_of_earliest h.enqueued_nodup heq hpre hw,
      h.concurrency.head?_of_earliest h.enqueued_nodup heq hpre hw⟩
  all hall := (perm_ext_iff_of_nodup h.activated_nodup h.enqueued_nodup).mpr fun w =>
    ⟨h.mem_enqueued_of_activated, fun hw => (h.activated_iff w).mpr (.inr (hall w hw))⟩

end Order

/-- Whatever is enqueued and in whatever order the works are done, every state is scheduled, and no
check fails but the one of a concurrency index that is too large. -/
theorem scheduled_of_reachable {s : State σ} (h : Reachable s) :
    Scheduled s ∧ s.numActiveWorks = s.activeWorks.length ∧
      (∀ params : Params σ, params.concurrencyIndex < maxConcurrency →
        (enqueue s params).isSome) ∧
      ∀ i w, s.activeWorks[i]? = some w → (complete s i w).isSome :=
  ⟨h.inv.scheduled, h.inv.count, fun _ => h.inv.enqueue_isSome, fun _ _ => h.inv.complete_isSome⟩

/-- Two works of one stream, the first of which has been finished. -/
def secondWork : State Bool :=
  (((enqueue init ⟨true, 3⟩).bind fun s => enqueue s ⟨true, 5⟩).bind fun s =>
    complete { s with position := some 0 } 0 ⟨0, true, 0, 3⟩).getD init

theorem reachable_secondWork : Reachable secondWork := by
  have hone : Reachable ((enqueue (init : State Bool) ⟨true, 3⟩).get rfl) :=
    .step .init (.enqueue ⟨true, 3⟩ rfl (some_get _).symm)
  have htwo := hone.step (.enqueue ⟨true, 5⟩ rfl (some_get (by rfl)).symm)
  have hloop := htwo.step (.beginLoop rfl)
  exact hloop.step (.finish rfl rfl (some_get (by rfl)).symm)

theorem scheduled_secondWork : Scheduled secondWork ∧ secondWork.activeWorks = [⟨1, true, 0, 5⟩] :=
  ⟨(scheduled_of_reachable reachable_secondWork).1, by decide⟩

end CpuThread.Scheduler
