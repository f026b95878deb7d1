import Moodist.Foundation.StateSpec
import Moodist.CudaAllocator.Regions

/-!
# Every byte is in one place

Every mapped byte is in exactly one of a live allocation, a region of one of the maps, or the queue
of deallocations. While a call is at work some bytes are in transit: they have been taken out of
one place and not yet put into the next.
-/

namespace CudaAllocator

open Foundation List Function State

/-! ## The invariant -/

def State.places (w : State) : List Place :=
  .free :: .pending :: (w.streams.map Place.stream ++ w.pendingStreams.map Place.streamPending)

def State.inRegions (w : State) (b : ℕ) : ℕ := (w.places.map fun p => (w.regions p).count b).sum

def State.inQueue (w : State) (b : ℕ) : ℕ := (w.pendingDeallocations.map fun v => v.1.ind b).sum

def State.inUse (w : State) (b : ℕ) : ℕ := (w.live.map fun a => a.span.ind b).sum

def State.held (w : State) (b : ℕ) : ℕ := w.inRegions b + w.inQueue b + w.inUse b

def State.isMapped (w : State) (b : ℕ) : Bool := w.mapped.any fun s => s.has b

def Place.IsPending : Place → Prop
  | .free => False
  | .pending => True
  | .stream _ => False
  | .streamPending _ => True

/-- The invariant between and within the calls; `transit` counts the bytes in transit. -/
structure Inv (w : State) (transit : ℕ → ℕ) : Prop where
  ok : ∀ p, (w.regions p).Ok
  absent : ∀ p, p ∉ w.places → w.regions p = {}
  nodup : w.places.Nodup
  bytes : ∀ b, w.held b + transit b = if w.isMapped b then 1 else 0
  mapped : Apart (w.mapped.map fun s => ⟨s, []⟩)
  mapped_lt : ∀ s ∈ w.mapped, s.start < s.stop
  queued : ∀ v ∈ w.pendingDeallocations, v.1.start < v.1.stop ∧ v.2 ≠ []
  live : ∀ a ∈ w.live, a.span.start < a.span.stop
  next : w.streams ≠ [] → w.nextStream < w.streams.length
  noPending : ∀ p : Place, p.IsPending → w.regions p = {}

@[simp] theorem setRegions_self (w : State) (p : Place) (rs : Regions) :
    (w.setRegions p rs).regions p = rs := update_self ..

theorem setRegions_ne (w : State) {p q : Place} (rs : Regions) (h : q ≠ p) :
    (w.setRegions p rs).regions q = w.regions q := update_of_ne h ..

theorem setRegions_eq_self {w : State} {p : Place} {rs : Regions} (h : w.regions p = rs) :
    w.setRegions p rs = w := by
  rw [setRegions, ← h, update_eq_self]

section Bytes

variable {p : Place}

/-- One summand changes. -/
theorem sum_update {l : List Place} (hl : l.Nodup) (hp : p ∈ l) (f : Place → Regions)
    (rs : Regions) (g : Regions → ℕ) :
    (l.map fun q => g (update f p rs q)).sum + g (f p) =
      (l.map fun q => g (f q)).sum + g rs := by
  induction l with
  | nil => simp at hp
  | cons q l ih =>
    obtain ⟨hq, hl⟩ := nodup_cons.mp hl
    rw [map_cons, map_cons, sum_cons, sum_cons]
    rcases mem_cons.mp hp with rfl | hp
    · have hsame : (l.map fun q => g (update f p rs q)) = l.map fun q => g (f q) := by
        refine map_congr_left fun x hx => ?_
        rw [update_of_ne]
        rintro rfl
        exact hq hx
      rw [hsame, update_self]
      omega
    · have hne : q ≠ p := by
        rintro rfl
        exact hq hp
      have := ih hl hp
      rw [update_of_ne hne]
      omega

variable {w : State} {transit : ℕ → ℕ}

variable (h : Inv w transit)

include h

variable (hp : p ∈ w.places)

include hp

theorem Inv.sum_setRegions (rs : Regions) (b : ℕ) :
    (w.setRegions p rs).held b + (w.regions p).count b = w.held b + rs.count b := by
  have := sum_update h.nodup hp w.regions rs fun rs => rs.count b
  simp only [held, inRegions] at *
  show (w.places.map fun q => (update w.regions p rs q).count b).sum + w.inQueue b +
    w.inUse b + _ = _
  omega

/-- A map is replaced by one that has the bytes in transit, or has lost them. -/
theorem Inv.setRegions (hpend : ¬ p.IsPending) {rs : Regions} (hrs : rs.Ok) {transit' : ℕ → ℕ}
    (hbytes : ∀ b, rs.count b + transit' b = (w.regions p).count b + transit b) :
    Inv (w.setRegions p rs) transit' where
  ok q := by
    show (update w.regions p rs q).Ok
    by_cases hq : q = p
    · subst hq
      rwa [update_self]
    · rw [update_of_ne hq]
      exact h.ok q
  absent q hq := by
    show update w.regions p rs q = {}
    have hne : q ≠ p := by
      rintro rfl
      exact hq hp
    rw [update_of_ne hne]
    exact h.absent q hq
  nodup := h.nodup
  bytes b := by
    have hsum := h.sum_setRegions hp rs b
    have hold := h.bytes b
    have := hbytes b
    show (w.setRegions p rs).held b + transit' b = if w.isMapped b then 1 else 0
    omega
  mapped := h.mapped
  mapped_lt := h.mapped_lt
  queued := h.queued
  live := h.live
  next := h.next
  noPending q hq := by
    show update w.regions p rs q = {}
    have hne : q ≠ p := by
      rintro rfl
      exact hpend hq
    rw [update_of_ne hne]
    exact h.noPending q hq

omit hp

theorem Inv.count_eq_zero {b : ℕ} (hb : 0 < transit b) (p : Place) :
    (w.regions p).count b = 0 := by
  by_cases hp : p ∈ w.places
  · have hle : (w.regions p).count b ≤ w.inRegions b :=
      single_le_sum (by simp) _ (mem_map.mpr ⟨p, hp, rfl⟩)
    have hbytes := h.bytes b
    have hone : (if w.isMapped b then 1 else 0) ≤ 1 := by split <;> omega
    simp only [held] at hbytes
    omega
  · rw [h.absent p hp]
    rfl

omit h

variable {span : Span} {events : List EventRegion} {r : Region}

theorem fresh_of_count {map : List Region} (hspan : span.start < span.stop)
    (hok : ∀ r ∈ map, r.Ok) (h : ∀ b, span.has b = true → countIn map b = 0) : Fresh map span := by
  intro r hr
  by_contra hover
  have hlt := (hok r hr).lt
  have hb : span.has (max r.span.start span.start) = true := by
    rw [Span.has_iff]
    omega
  have hzero := h _ hb
  rw [countIn, countP_eq_zero] at hzero
  refine hzero r hr ?_
  rw [Span.has_iff]
  omega

theorem Inv.fresh (h : Inv w (fun b => transit b + span.ind b)) (hspan : span.start < span.stop)
    (p : Place) : Fresh (w.regions p).map span := by
  refine fresh_of_count hspan (h.ok p).region fun b hb => ?_
  refine h.count_eq_zero ?_ p
  simp only [Span.ind, hb, if_true]
  omega

theorem Inv.insert (h : Inv w (fun b => transit b + span.ind b))
    (hp : p ∈ w.places) (hpend : ¬ p.IsPending) (hspan : span.start < span.stop)
    (hevents : EventsOk span events) :
    Inv (w.setRegions p ((w.regions p).insertRegion span events)) transit := by
  have hfresh := h.fresh hspan p
  refine h.setRegions hp hpend ((h.ok p).insertRegion hspan hfresh hevents) fun b => ?_
  rw [Regions.count_insertRegion (h.ok p) hspan hfresh hevents b]
  omega

include h

include hp

theorem Inv.remove (hpend : ¬ p.IsPending)
    (hr : r ∈ (w.regions p).map) : Inv (w.setRegions p ((w.regions p).remove r.span.start))
      (fun b => transit b + r.span.ind b) := by
  obtain ⟨hok, hcount⟩ := (h.ok p).remove hr
  refine h.setRegions hp hpend hok fun b => ?_
  have := hcount b
  omega

theorem Inv.shrink (hpend : ¬ p.IsPending) (hr : r ∈ (w.regions p).map) {bytes : ℕ}
    (hbytes : bytes < r.span.bytes) (hpos : 0 < bytes)
    (hevents : EventsOk ⟨r.span.start + bytes, r.span.stop⟩ events) :
    Inv (w.setRegions p ((w.regions p).shrink r bytes events))
      (fun b => transit b + (⟨r.span.start, r.span.start + bytes⟩ : Span).ind b) := by
  obtain ⟨hok, hcount⟩ := (h.ok p).shrink hr hbytes hpos hevents
  refine h.setRegions hp hpend hok fun b => ?_
  have := hcount b
  omega

omit hp

theorem Inv.driver (d : Driver) : Inv { w with driver := d } transit :=
  ⟨h.ok, h.absent, h.nodup, h.bytes, h.mapped, h.mapped_lt, h.queued, h.live, h.next, h.noPending⟩

omit h

theorem stream_mem_places {s : Stream} (hs : s ∈ w.streams) : Place.stream s ∈ w.places := by
  simp [places, hs]

theorem free_mem_places : Place.free ∈ w.places := by simp [places]

include h

/-- A map that is created is empty. -/
theorem Inv.of_places {w' : State} (hp : p ∉ w.places)
    (hperm : w'.places.Perm (p :: w.places)) (hregions : w'.regions = w.regions)
    (hmapped : w'.mapped = w.mapped) (hqueue : w'.pendingDeallocations = w.pendingDeallocations)
    (hlive : w'.live = w.live) (hnext : w'.streams ≠ [] → w'.nextStream < w'.streams.length) :
    Inv w' transit where
  ok q := hregions ▸ h.ok q
  absent q hq := by
    rw [hregions]
    refine h.absent q fun hmem => hq ?_
    exact hperm.mem_iff.mpr (mem_cons_of_mem _ hmem)
  nodup := hperm.nodup_iff.mpr (nodup_cons.mpr ⟨hp, h.nodup⟩)
  bytes b := by
    have hsum : w'.inRegions b = w.inRegions b := by
      rw [inRegions, (hperm.map _).sum_eq, map_cons, sum_cons, hregions, h.absent p hp]
      exact Nat.zero_add _
    have hold := h.bytes b
    simp only [held, inQueue, inUse, isMapped, hqueue, hlive, hmapped, hsum] at hold ⊢
    exact hold
  mapped := hmapped ▸ h.mapped
  mapped_lt := hmapped ▸ h.mapped_lt
  queued := hqueue ▸ h.queued
  live := hlive ▸ h.live
  next := hnext
  noPending q hq := hregions ▸ h.noPending q hq

theorem Inv.openStream (s : Stream) : Inv (w.openStream s) transit := by
  unfold State.openStream
  split
  · exact h
  · next hs =>
    have hperm := w.driver.order_perm (s :: w.streams)
    refine h.of_places (p := .stream s) (by simp [places, hs]) ?_ rfl rfl rfl rfl ?_
    · have := (hperm.map Place.stream).append_right (w.pendingStreams.map Place.streamPending)
      refine ((this.cons Place.pending).cons Place.free).trans ?_
      exact ((Perm.swap _ _ _).cons _).trans (Perm.swap _ _ _)
    · intro _
      rw [hperm.length_eq]
      exact Nat.succ_pos _

omit h

theorem mem_openStream (w : State) (s : Stream) : s ∈ (w.openStream s).streams := by
  unfold State.openStream
  split
  · assumption
  · exact (w.driver.order_perm _).mem_iff.mpr mem_cons_self

theorem Inv.openPending (h : Inv w transit) (s : Stream) : Inv (w.openPending s) transit := by
  unfold State.openPending
  split
  · exact h
  · next hs =>
    have hperm := w.driver.order_perm (s :: w.pendingStreams)
    refine h.of_places (p := .streamPending s) (by simp [places, hs]) ?_ rfl rfl rfl rfl h.next
    have := (hperm.map Place.streamPending).append_left (w.streams.map Place.stream)
    refine ((this.cons Place.pending).cons Place.free).trans ?_
    exact (((perm_middle).cons _).trans (Perm.swap _ _ _)).cons _ |>.trans
      (Perm.swap _ _ _)

end Bytes

end CudaAllocator
