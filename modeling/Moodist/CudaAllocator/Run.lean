import Moodist.CudaAllocator.Allocate

/-!
# Runs of the allocator

A run is a sequence of calls, in any order and by callers that free only what they have. A call that
throws leaves the state as it was when it threw.
-/

namespace CudaAllocator

open Foundation

/-! ## Calls -/

/-- `work` is not a call of the allocator: its user puts work into a stream. -/
inductive Call where
  | allocate (bytes : ℕ) (stream : Stream)
  | free (a : Allocation)
  | recordStream (ptr : ℕ) (stream : Stream)
  | freePending (p : Place)
  | freeSomePending (p : Place)
  | freeStreamMemory (reqbytes : ℕ)
  | work (stream : Stream)
  deriving DecidableEq, Repr

def State.use (w : State) (a : Allocation) : State := { w with live := w.live ++ [a] }

def allocate (bytes : ℕ) (stream : Stream) : M Unit := do
  let n := alignedBytes bytes
  match ← allocateLoop n stream ((← get).load + 2) with
  | some ptr => modify fun w => w.use ⟨⟨ptr, ptr + n⟩, stream⟩
  | none => return ()

def State.work (w : State) (stream : Stream) : State :=
  w.withDriver { w.driver with log := w.driver.log ++ [.work stream] }

def perform : Call → M Unit
  | .allocate bytes stream => allocate bytes stream
  | .free a => free a
  | .recordStream ptr stream => recordStream ptr stream
  | .freePending p => do let _ ← freePending p
  | .freeSomePending p => do let _ ← freeSomePending p
  | .freeStreamMemory reqbytes => do let _ ← freeStreamMemory reqbytes
  | .work stream => modify fun w => w.work stream

/-- Only allocations in use are freed, and only maps of pending memory are asked for it. -/
def Call.Legal (w : State) : Call → Prop
  | .free a => a ∈ w.live
  | .freePending p => p.IsPending
  | .freeSomePending p => p.IsPending
  | _ => True

def Call.next (c : Call) (w : State) : State :=
  match perform c w with
  | .ok _ w' => w'
  | .error _ w' => w'

def State.initial (d : Driver) : State where
  mapped := []
  regions _ := {}
  streams := []
  nextStream := 0
  pendingStreams := []
  pendingDeallocations := []
  streamUses := []
  live := []
  recorded := []
  freed := []
  driver := d

/-- The states that allowed calls lead to. -/
inductive Run (allowed : State → Call → Prop) (d : Driver) : State → Prop
  | start : Run allowed d (.initial d)
  | call {w} (h : Run allowed d w) {c : Call} (hc : allowed w c) : Run allowed d (c.next w)

/-- The call does not end with an error of the driver. -/
def Call.Quiet (w : State) (c : Call) : Prop := ∀ w', perform c w ≠ .error .cuda w'

/-- A mapped byte is in exactly one of a live allocation, a region of one of the maps, and the
queue of deallocations; the regions of each map do not overlap and are indexed by address and
size, with their events sorted and inside. -/
structure Partitioned (w : State) : Prop where
  once : ∀ b, w.isMapped b = true → w.held b = 1
  mapped : ∀ b, 0 < w.held b → w.isMapped b = true
  places : ∀ p, p ∉ w.places → (w.regions p).map = []
  nodup : w.places.Nodup
  regions : ∀ p, (w.regions p).Ok

/-! ## The calls keep the partition -/

section Good

variable {w : State} {hand : List (Span × List Stream)} {users : List Stream} {a : Allocation}

theorem Good.initial (d : Driver) : Good ⟨.initial d, []⟩ where
  inv := by
    refine ⟨fun p => Regions.ok_empty, fun p _ => rfl, ?_, fun b => rfl, .nil, ?_, ?_, ?_, ?_,
      fun p _ => rfl⟩
    · show [Place.free, Place.pending].Nodup
      decide
    all_goals simp [State.initial]
  hand := by simp

theorem Good.use {span : Span} (h : Good ⟨w, (span, users) :: hand⟩)
    (stream : Stream) : Good ⟨w.use ⟨span, stream⟩, hand⟩ := by
  obtain ⟨hinv, hspan, -, hhand⟩ := h.tail
  refine ⟨⟨hinv.ok, hinv.absent, hinv.nodup, fun b => ?_, hinv.mapped, hinv.mapped_lt, hinv.queued,
    fun a ha => ?_, hinv.next, hinv.noPending⟩, hhand⟩
  · have hbytes := hinv.bytes b
    have huse : (w.use ⟨span, stream⟩).inUse b = w.inUse b + span.ind b := by
      simp [State.inUse, State.use]
    simp only [State.held, huse] at hbytes ⊢
    show w.inRegions b + w.inQueue b + (w.inUse b + span.ind b) + inHand hand b =
      if w.isMapped b then 1 else 0
    omega
  · rcases List.mem_append.mp ha with ha | ha
    · exact hinv.live a ha
    · rw [List.mem_singleton.mp ha]
      exact hspan

theorem Good.release (h : Good ⟨w, hand⟩) (ha : a ∈ w.live)
    (husers : users ≠ []) : Good ⟨w.release a, (a.span, users) :: hand⟩ := by
  have hinv := h.inv
  refine ⟨⟨hinv.ok, hinv.absent, hinv.nodup, fun b => ?_, hinv.mapped, hinv.mapped_lt, hinv.queued,
    fun x hx => hinv.live x (List.mem_of_mem_erase hx), hinv.next, hinv.noPending⟩, fun v hv => ?_⟩
  · have hbytes := hinv.bytes b
    have huse : a.span.ind b + (w.release a).inUse b = w.inUse b :=
      List.sum_map_erase (fun a : Allocation => a.span.ind b) ha
    have hhand := congrFun (inHand_cons (a.span, users) hand) b
    simp only [State.held] at hbytes ⊢
    show w.inRegions b + w.inQueue b + (w.release a).inUse b + _ =
      if w.isMapped b then 1 else 0
    rw [hhand, ← hbytes]
    show _ = w.inRegions b + w.inQueue b + w.inUse b + inHand hand b
    simp only
    omega
  · rcases List.mem_cons.mp hv with rfl | hv
    · exact ⟨hinv.live a ha, husers⟩
    · exact h.hand v hv

theorem Good.uses (h : Good ⟨w, hand⟩) (uses : List (ℕ × List Stream))
    (recorded : List (Allocation × Stream)) :
    Good ⟨{ w with streamUses := uses, recorded := recorded }, hand⟩ :=
  ⟨⟨h.inv.ok, h.inv.absent, h.inv.nodup, h.inv.bytes, h.inv.mapped, h.inv.mapped_lt, h.inv.queued,
    h.inv.live, h.inv.next, h.inv.noPending⟩, h.hand⟩

theorem alignedBytes_pos (bytes : ℕ) : 0 < alignedBytes bytes :=
  lt_of_lt_of_le (by decide : 0 < alignment) (le_max_left _ _)

/-- `freeStreamMemory` moves regions, whatever it is asked for. -/
theorem freeStreamLoop_moves (todo : List (Stream × Region)) (reqbytes : ℕ) (w : State) :
    ∃ enough moved rest, todo = moved ++ rest ∧
      freeStreamLoop todo reqbytes w = (enough, w.moveAll moved) := by
  induction todo generalizing reqbytes w with
  | nil => exact ⟨false, [], [], rfl, rfl⟩
  | cons v todo ih =>
    obtain ⟨s, r⟩ := v
    rw [freeStreamLoop]
    split
    · exact ⟨true, [(s, r)], todo, rfl, rfl⟩
    · obtain ⟨enough, moved, rest, rfl, heq⟩ := ih (reqbytes - r.span.bytes) (w.moveRegion s r)
      exact ⟨enough, (s, r) :: moved, rest, rfl, heq⟩

theorem freeStreamMemory_cases (h : Good ⟨w, hand⟩) (reqbytes : ℕ) :
    ∃ enough w', freeStreamMemory reqbytes w = .ok enough w' ∧ Edits ⟨w, hand⟩ ⟨w', hand⟩ := by
  obtain ⟨enough, moved, rest, hsplit, heq⟩ := freeStreamLoop_moves w.streamRegions reqbytes w
  refine ⟨enough, w.moveAll moved, ?_, (moveAll_spec h hsplit).1⟩
  rw [freeStreamMemory, get_bind, heq]
  rfl

variable (h : Good ⟨w, []⟩)

include h

theorem allocate_spec (bytes : ℕ) (stream : Stream) :
    wp (allocate bytes stream)
      (fun _ w' => ∃ w₁ ptr, Edits ⟨w, []⟩ ⟨w₁, [(⟨ptr, ptr + alignedBytes bytes⟩, [stream])]⟩ ∧
        w' = w₁.use ⟨⟨ptr, ptr + alignedBytes bytes⟩, stream⟩)
      (Ends w.driver fun w' => Edits ⟨w, []⟩ ⟨w', []⟩) w := by
  rw [allocate, wp_bind, wp_get, wp_bind]
  refine (allocateLoop_spec (alignedBytes_pos bytes) h (.inl le_rfl)).mono (fun res w₁ hw₁ => ?_)
    fun _ _ he => he
  obtain ⟨ptr, rfl, hedits⟩ := hw₁
  exact ⟨w₁, ptr, hedits, rfl⟩

theorem free_spec (ha : a ∈ w.live) {I : State → Prop} :
    wp (free a)
      (fun _ w' => ∃ w₁,
        Edits ⟨w.release a, [(a.span, w.usersOf a)]⟩ ⟨w₁, []⟩ ∧ w' = w₁.eraseUses a.span.start)
      (Ends w.driver I) w := by
  have husers : w.usersOf a ≠ [] := List.cons_ne_nil _ _
  rw [free, wp_bind, wp_get, wp_bind, wp_modify, wp_bind]
  refine (deallocate_spec (h.release ha husers)).mono (fun _ w₁ hw₁ => ?_) fun _ _ he => he
  exact ⟨w₁, hw₁.1, rfl⟩

/-- What a legal call does when it returns or runs out of memory. -/
inductive Performs (w : State) : Call → State → Prop
  | edits {c w'} (h : Edits ⟨w, []⟩ ⟨w', []⟩) : Performs w c w'
  | allocate {bytes stream w₁ ptr}
      (h : Edits ⟨w, []⟩ ⟨w₁, [(⟨ptr, ptr + alignedBytes bytes⟩, [stream])]⟩) :
      Performs w (.allocate bytes stream) (w₁.use ⟨⟨ptr, ptr + alignedBytes bytes⟩, stream⟩)
  | free {a w₁} (ha : a ∈ w.live)
      (h : Edits ⟨w.release a, [(a.span, w.usersOf a)]⟩ ⟨w₁, []⟩) :
      Performs w (.free a) (w₁.eraseUses a.span.start)
  | recordStream (ptr : ℕ) (stream : Stream) :
      Performs w (.recordStream ptr stream) (w.noteUse ptr stream)
  | work (stream : Stream) : Performs w (.work stream) (w.work stream)

variable {c : Call}

theorem perform_spec (hc : c.Legal w) :
    wp (perform c) (fun _ => Performs w c) (Ends w.driver (Performs w c)) w := by
  cases c with
  | allocate bytes stream =>
    refine (allocate_spec h bytes stream).mono (fun _ w' hw' => ?_)
      fun e w' => Ends.mono .rfl fun _ => .edits
    obtain ⟨w₁, ptr, hedits, rfl⟩ := hw'
    exact .allocate hedits
  | free a =>
    refine (free_spec h hc).mono (fun _ w' hw' => ?_) fun _ _ he => he
    obtain ⟨w₁, hedits, rfl⟩ := hw'
    exact .free hc hedits
  | recordStream ptr stream => exact .recordStream ptr stream
  | freePending p =>
    show wp (freePending p >>= fun _ => pure ()) _ _ w
    rw [wp_bind, wp_ok (freePending_ok h hc)]
    exact .edits .refl
  | freeSomePending p =>
    show wp (freeSomePending p >>= fun _ => pure ()) _ _ w
    rw [wp_bind, wp_ok (freeSomePending_ok h hc)]
    exact .edits (.single (.called []))
  | freeStreamMemory reqbytes =>
    obtain ⟨enough, w', heq, hedits⟩ := freeStreamMemory_cases h reqbytes
    show wp (freeStreamMemory reqbytes >>= fun _ => pure ()) _ _ w
    rw [wp_bind, wp_ok heq]
    exact .edits hedits
  | work stream => exact .work stream

theorem Call.next_performs (hc : c.Legal w) (hquiet : c.Quiet w) : Performs w c (c.next w) := by
  have hspec := perform_spec h hc
  rw [wp] at hspec
  unfold Call.next
  cases hres : perform c w with
  | ok _ w' =>
    rw [hres] at hspec
    exact hspec
  | error e w' =>
    rw [hres] at hspec
    cases e with
    | check => exact hspec.elim
    | cuda => exact absurd hres (hquiet w')
    | outOfMemory => exact hspec

theorem perform_ne_check (hc : c.Legal w) (w' : State) :
    perform c w ≠ .error .check w' := by
  intro hres
  have hspec := perform_spec h hc
  rw [wp_error hres] at hspec
  exact hspec

/-- A legal call keeps the partition, if the driver does not fail. -/
theorem Performs.good {w' : State} (hperforms : Performs w c w') : Good ⟨w', []⟩ := by
  cases hperforms with
  | edits hedits => exact hedits.good h
  | allocate hedits => exact (hedits.good h).use _
  | free ha hedits => exact (hedits.good (h.release ha (List.cons_ne_nil _ _))).uses _ _
  | recordStream ptr stream => exact h.uses _ _
  | work stream => exact ⟨h.inv.withDriver _, h.hand⟩

theorem Good.partitioned : Partitioned w where
  once b hb := by
    have hbytes := h.inv.bytes b
    rw [if_pos hb] at hbytes
    exact hbytes
  mapped b hb := by
    have hbytes := h.inv.bytes b
    by_contra hnot
    rw [if_neg hnot] at hbytes
    have hle : w.held b ≤ 0 := hbytes ▸ Nat.le_add_right _ _
    omega
  places p hp := by
    have habsent := h.inv.absent p hp
    rw [habsent]
  nodup := h.inv.nodup
  regions := h.inv.ok

omit h

theorem Run.good {d : Driver} (h : Run (fun w c => c.Legal w ∧ c.Quiet w) d w) : Good ⟨w, []⟩ := by
  induction h with
  | start => exact .initial d
  | call _ hc ih => exact (Call.next_performs ih hc.1 hc.2).good ih

theorem Performs.eventOk {w' : State} (h : Performs w c w') :
    w'.driver.eventOk = w.driver.eventOk := by
  cases h with
  | edits hedits | allocate hedits | free _ hedits => exact hedits.kept.2
  | recordStream | work => rfl

/-- If no event call of the driver fails, all calls of a run are quiet. -/
theorem Run.quiet {d : Driver} (hd : d.Reliable) (h : Run (fun w c => c.Legal w) d w) :
    Run (fun w c => c.Legal w ∧ c.Quiet w) d w := by
  suffices hall : w.driver.eventOk = d.eventOk ∧ Run (fun w c => c.Legal w ∧ c.Quiet w) d w from
    hall.2
  induction h with
  | start => exact ⟨rfl, .start⟩
  | @call w _ c hc ih =>
    have hquiet : c.Quiet w := by
      intro w' hres
      have hspec := perform_spec ih.2.good hc
      rw [wp_error hres] at hspec
      refine hspec fun n => ?_
      rw [ih.1, hd n]
    exact ⟨(Call.next_performs ih.2.good hc hquiet).eventOk.trans ih.1, ih.2.call ⟨hc, hquiet⟩⟩

/-- After every call of a run without errors of the driver, each mapped byte is in one place. No
check fails in the next call. -/
theorem run_partitioned {d : Driver} (h : Run (fun w c => c.Legal w ∧ c.Quiet w) d w) :
    Partitioned w ∧ ∀ c : Call, c.Legal w → ∀ w', perform c w ≠ .error .check w' :=
  ⟨h.good.partitioned, fun _ hc w' => perform_ne_check h.good hc w'⟩

end Good

/-! ## A failure while the queue is taken apart -/

/-- A driver that maps once, at address 4096. Its event calls succeed up to some number. -/
def onceDriver (free okCalls : ℕ) : Driver where
  log := []
  calls := 0
  verbose := false
  eventOk n := n < okCalls
  completed _ _ := true
  memFree _ := free
  memAlloc _ mapped _ := if mapped = [] then some 4096 else none
  order l := l
  memAlloc_fresh := by
    intro n mapped bytes addr h
    split at h
    · next hnil =>
      cases h
      rw [hnil]
      exact ⟨by decide, by simp⟩
    · cases h
  order_perm l := .refl l

def Call.returns (c : Call) (w : State) : Bool :=
  match perform c w with
  | .ok _ _ => true
  | .error _ _ => false

/-- The result is no error, and the state after it passes the test. -/
def returnsIn (test : State → Bool) (res : EStateM.Result Error State Unit) : Bool :=
  match res with
  | .ok _ w => test w
  | .error _ _ => false

theorem Call.quiet_of_returns {c : Call} {w : State} (h : c.returns w = true) : c.Quiet w := by
  intro w' hres
  rw [Call.returns, hres] at h
  cases h

instance Place.decidableIsPending (p : Place) : Decidable p.IsPending :=
  match p with
  | .free => .isFalse id
  | .pending => .isTrue trivial
  | .stream _ => .isFalse id
  | .streamPending _ => .isTrue trivial

instance Call.decidableLegal (w : State) (c : Call) : Decidable (c.Legal w) :=
  match c with
  | .allocate _ _ => .isTrue trivial
  | .free a => inferInstanceAs (Decidable (a ∈ w.live))
  | .recordStream _ _ => .isTrue trivial
  | .freePending p => inferInstanceAs (Decidable p.IsPending)
  | .freeSomePending p => inferInstanceAs (Decidable p.IsPending)
  | .freeStreamMemory _ => .isTrue trivial
  | .work _ => .isTrue trivial

def calls (w : State) (cs : List Call) : State := cs.foldl (fun w c => c.next w) w

/-- The test holds for each of the calls. -/
def testAll (test : State → Call → Bool) : State → List Call → Bool
  | _, [] => true
  | w, c :: cs => test w c && testAll test (c.next w) cs

theorem Run.calls {allowed : State → Call → Prop} {test : State → Call → Bool} {d : Driver}
    {w : State} (h : Run allowed d w) (htest : ∀ w c, test w c = true → allowed w c)
    {cs : List Call} (hcs : testAll test w cs = true) : Run allowed d (calls w cs) := by
  induction cs generalizing w with
  | nil => exact h
  | cons c cs ih =>
    rw [testAll, Bool.and_eq_true] at hcs
    exact ih (h.call (htest w c hcs.1)) hcs.2

theorem run_of_legal {d : Driver} {cs : List Call}
    (h : testAll (fun w c => decide (c.Legal w)) (.initial d) cs = true) :
    Run (fun w c => c.Legal w) d (calls (.initial d) cs) :=
  Run.calls .start (fun _ _ => of_decide_eq_true) h

theorem run_of_returns {d : Driver} {cs : List Call}
    (h : testAll (fun w c => decide (c.Legal w) && c.returns w) (.initial d) cs = true) :
    Run (fun w c => c.Legal w ∧ c.Quiet w) d (calls (.initial d) cs) := by
  refine Run.calls .start (fun w c hc => ?_) h
  rw [Bool.and_eq_true, decide_eq_true_eq] at hc
  exact ⟨hc.1, Call.quiet_of_returns hc.2⟩

/-- 256 bytes are used and freed again. -/
def firstCalls : List Call := [.allocate 256 1, .free ⟨⟨4096, 4352⟩, 1⟩]

theorem freed_run : Run (fun w c => c.Legal w ∧ c.Quiet w) (onceDriver 1024 1000)
    (calls (.initial (onceDriver 1024 1000)) firstCalls) :=
  run_of_returns (by decide +kernel)

theorem run_partitioned_free :
    Partitioned (calls (.initial (onceDriver 1024 1000)) firstCalls) :=
  (run_partitioned freed_run).1

/-- The event of a free fails, and so does the second attempt in the next `allocate`. The bytes are
then neither free nor in use, and not in the queue. -/
theorem drain_loses_bytes :
    ∃ w, Run (fun w c => c.Legal w) (onceDriver 1024 518) w ∧
      w.isMapped 4096 = true ∧ w.held 4096 = 0 := by
  refine ⟨_, @run_of_legal _ (firstCalls ++ [.allocate 256 1]) ?_, ?_, ?_⟩
  all_goals decide +kernel

end CudaAllocator
