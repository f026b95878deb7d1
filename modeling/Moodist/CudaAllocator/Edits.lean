import Moodist.CudaAllocator.Calls

/-!
# What a call does to the allocator

A call changes the state in a few ways only. Between two of them spans may be in hand: bytes that
have been taken for a stream, or that were freed and not yet given back.
-/

namespace CudaAllocator

open Foundation List

/-! ## Edits -/

/-- A state and the spans in hand, with the streams that have to be waited for. -/
structure Config where
  state : State
  hand : List (Span × List Stream)

def inHand (hand : List (Span × List Stream)) (b : ℕ) : ℕ := (hand.map fun v => v.1.ind b).sum

structure Good (c : Config) : Prop where
  inv : Inv c.state (inHand c.hand)
  hand : ∀ v ∈ c.hand, v.1.start < v.1.stop ∧ v.2 ≠ []

def State.addMemory (w : State) (d : Driver) (span : Span) (e : EventRegion) : State :=
  let w : State := { w with mapped := addSpan w.mapped span, driver := d }
  w.setRegions .free ((w.regions .free).insertRegion span [e])

inductive Edit : Config → Config → Prop
  | driver {w hand} (d : Driver) (ops : List Op) (hd : w.driver.Later ops d) :
      Edit ⟨w, hand⟩ ⟨w.withDriver d, hand⟩
  | openStream {w hand} (s : Stream) : Edit ⟨w, hand⟩ ⟨w.openStream s, hand⟩
  | openPending {w hand} (s : Stream) : Edit ⟨w, hand⟩ ⟨w.openPending s, hand⟩
  | next {w hand} (n : ℕ) (hn : w.streams ≠ [] → n < w.streams.length) :
      Edit ⟨w, hand⟩ ⟨{ w with nextStream := n }, hand⟩
  | take {w hand} {p : Place} {r : Region} {bytes : ℕ} {stream : Stream} (d : Driver)
      (ops : List Op) (hd : w.driver.Later ops d)
      (hp : p ∈ w.places) (hpend : ¬ p.IsPending) (hr : r ∈ (w.regions p).map)
      (hle : bytes ≤ r.span.bytes) (hpos : 0 < bytes)
      (hwait : ∀ e ∈ r.events, e.span.start < r.span.start + bytes → e.eventStream ≠ stream →
        Op.wait stream e.event ∈ ops) :
      Edit ⟨w, hand⟩ ⟨(w.withDriver d).setRegions p ((w.regions p).take r bytes),
        (⟨r.span.start, r.span.start + bytes⟩, [stream]) :: hand⟩
  | move {w hand} {s : Stream} {r : Region} (hs : s ∈ w.streams)
      (hr : r ∈ (w.regions (.stream s)).map) : Edit ⟨w, hand⟩ ⟨w.moveRegion s r, hand⟩
  | unqueue {w} : Edit ⟨w, []⟩ ⟨{ w with pendingDeallocations := [] }, w.pendingDeallocations⟩
  | giveBack {w hand} {span : Span} {users : List Stream} {own : Stream} {evs : List EventRegion}
      (d : Driver) (ops : List Op) (hd : w.driver.Later ops d)
      (hevs : ∀ e ∈ evs, e.span = span ∧ w.driver.log.length ≤ e.event ∧
        d.log[e.event]? = some (.record e.eventStream))
      (husers : ∀ s ∈ users, ∃ e ∈ evs, e.eventStream = s) :
      Edit ⟨w, (span, users) :: hand⟩
        ⟨((w.withDriver d).openStream own).giveBack own span evs, hand⟩
  | enqueue {w hand} {span : Span} {users keys : List Stream} (hne : keys ≠ [])
      (hkeys : ∀ s ∈ users, s ∈ keys) :
      Edit ⟨w, (span, users) :: hand⟩
        ⟨{ w with pendingDeallocations := w.pendingDeallocations ++ [(span, keys)] }, hand⟩
  | addMemory {w hand} {span : Span} {e : EventRegion} (d : Driver) (ops : List Op)
      (hd : w.driver.Later ops d)
      (hspan : span.start < span.stop) (he : e.span = span)
      (hrecord : d.log[e.event]? = some (.record e.eventStream))
      (hfresh : ∀ s ∈ w.mapped, span.stop ≤ s.start ∨ s.stop ≤ span.start) :
      Edit ⟨w, hand⟩ ⟨w.addMemory d span e, hand⟩

def Edits : Config → Config → Prop := Relation.ReflTransGen Edit

/-! ## The partition -/

section Partition

variable {w : State} {hand : List (Span × List Stream)} {span : Span} {spans : List Span}
  {transit : ℕ → ℕ} {c c' : Config}

theorem inHand_cons (v : Span × List Stream) (hand : List (Span × List Stream)) :
    inHand (v :: hand) = fun b => inHand hand b + v.1.ind b := by
  funext b
  rw [inHand, map_cons, sum_cons, add_comm]
  rfl

theorem Good.tail {v : Span × List Stream} (h : Good ⟨w, v :: hand⟩) :
    Inv w (fun b => inHand hand b + v.1.ind b) ∧ v.1.start < v.1.stop ∧ v.2 ≠ [] ∧
      ∀ x ∈ hand, x.1.start < x.1.stop ∧ x.2 ≠ [] := by
  obtain ⟨hinv, hhand⟩ := h
  obtain ⟨hv, husers⟩ := hhand v mem_cons_self
  exact ⟨inHand_cons v hand ▸ hinv, hv, husers, fun x hx => hhand x (mem_cons_of_mem _ hx)⟩

/-- A span goes from the hand to the queue. -/
theorem Inv.enqueue {keys : List Stream}
    (h : Inv w (fun b => transit b + span.ind b)) (hspan : span.start < span.stop)
    (hkeys : keys ≠ []) :
    Inv { w with pendingDeallocations := w.pendingDeallocations ++ [(span, keys)] } transit where
  ok := h.ok
  absent := h.absent
  nodup := h.nodup
  bytes b := by
    have hbytes := h.bytes b
    simp only [State.held, State.inQueue, map_append, sum_append, map_cons,
      map_nil, sum_cons, sum_nil] at hbytes ⊢
    show w.inRegions b + (_ + (span.ind b + 0)) + w.inUse b + transit b =
      if w.isMapped b then 1 else 0
    omega
  mapped := h.mapped
  mapped_lt := h.mapped_lt
  queued v hv := by
    rcases mem_append.mp hv with hv | hv
    · exact h.queued v hv
    · rw [mem_singleton.mp hv]
      exact ⟨hspan, hkeys⟩
  live := h.live
  next := h.next
  noPending := h.noPending

/-- The queue goes into the hand. -/
theorem Inv.unqueue (h : Inv w (inHand [])) :
    Inv { w with pendingDeallocations := [] } (inHand w.pendingDeallocations) where
  ok := h.ok
  absent := h.absent
  nodup := h.nodup
  bytes b := by
    have hbytes := h.bytes b
    simp only [State.held] at hbytes ⊢
    show w.inRegions b + 0 + w.inUse b + w.inQueue b = if w.isMapped b then 1 else 0
    have hnil : inHand [] b = 0 := rfl
    omega
  mapped := h.mapped
  mapped_lt := h.mapped_lt
  queued := by simp
  live := h.live
  next := h.next
  noPending := h.noPending

theorem Inv.move (h : Inv w transit) {s : Stream} (hs : s ∈ w.streams)
    {r : Region} (hr : r ∈ (w.regions (.stream s)).map) : Inv (w.moveRegion s r) transit := by
  have hrok := (h.ok (.stream s)).region r hr
  have hremove := h.remove (stream_mem_places hs) (fun hp => hp) hr
  exact hremove.insert free_mem_places (fun hp => hp) hrok.lt hrok.events

theorem isMapped_eq_count (hap : Apart (spans.map fun s => ⟨s, []⟩))
    (hlt : ∀ s ∈ spans, s.start < s.stop) (b : ℕ) :
    (if spans.any fun s => s.has b then 1 else 0) = countIn (spans.map fun s => ⟨s, []⟩) b := by
  have hone := countIn_le_one hap (fun r hr => by
    obtain ⟨s, hs, rfl⟩ := mem_map.mp hr
    exact hlt s hs) b
  have hpos : 0 < countIn (spans.map fun s => ⟨s, []⟩) b ↔ (spans.any fun s => s.has b) = true := by
    rw [countIn, countP_pos_iff, any_eq_true]
    simp
  split
  · next h =>
    have := hpos.mpr h
    omega
  · next h =>
    have := mt hpos.mp h
    omega

theorem map_span_addSpan (spans : List Span) (span : Span) :
    (addSpan spans span).map (fun s => (⟨s, []⟩ : Region)) =
      insertSpan (spans.map fun s => ⟨s, []⟩) span [] := by
  rw [addSpan, map_map]
  conv_rhs => rw [← map_id (insertSpan _ span [])]
  refine map_congr_left fun r hr => ?_
  have hmap : ∀ x ∈ spans.map fun s => (⟨s, []⟩ : Region), x.events = [] := by
    intro x hx
    obtain ⟨s, -, rfl⟩ := mem_map.mp hx
    rfl
  have hnil : r.events = [] := by
    rcases mem_insertSpan hr with hr | rfl
    · exact hmap r hr
    · have hof : ∀ o : Option Region, (∀ x, o = some x → x ∈ spans.map fun s => ⟨s, []⟩) →
          eventsOf o = [] := by
        rintro (- | x) hmem
        · rfl
        · exact hmap x (hmem x rfl)
      simp [joined, hof _ fun _ => mem_of_leftOf, hof _ fun _ => mem_of_rightOf]
  obtain ⟨span, events⟩ := r
  exact congrArg (Region.mk span) hnil.symm

theorem regions_ok (hlt : ∀ s ∈ spans, s.start < s.stop)
    (hfresh : ∀ s ∈ spans, span.stop ≤ s.start ∨ s.stop ≤ span.start) :
    (∀ r ∈ spans.map fun s => (⟨s, []⟩ : Region), r.Ok) ∧
      Fresh (spans.map fun s => ⟨s, []⟩) span := by
  constructor <;> rintro r hr <;> obtain ⟨s, hs, rfl⟩ := mem_map.mp hr
  · exact ⟨hlt s hs, ⟨.nil, by simp⟩⟩
  · exact (hfresh s hs).symm

/-- Adding a span keeps the mapped memory apart, and adds the bytes of the span. -/
theorem addSpan_spec
    (hap : Apart (spans.map fun s => ⟨s, []⟩)) (hlt : ∀ s ∈ spans, s.start < s.stop)
    (hspan : span.start < span.stop)
    (hfresh : ∀ s ∈ spans, span.stop ≤ s.start ∨ s.stop ≤ span.start) :
    Apart ((addSpan spans span).map fun s => ⟨s, []⟩) ∧
      (∀ s ∈ addSpan spans span, s.start < s.stop) ∧
      ∀ b, (if (addSpan spans span).any fun s => s.has b then 1 else 0) =
        (if spans.any fun s => s.has b then 1 else 0) + span.ind b := by
  obtain ⟨hok, hnew⟩ := regions_ok hlt hfresh
  obtain ⟨hap', hok', hcount⟩ := insertSpan_spec hok hap hspan hnew ⟨.nil, by simp⟩
  have heq := map_span_addSpan spans span
  have hlt' : ∀ s ∈ addSpan spans span, s.start < s.stop := by
    intro s hs
    obtain ⟨r, hr, rfl⟩ := mem_map.mp hs
    exact (hok' r hr).lt
  refine ⟨heq ▸ hap', hlt', fun b => ?_⟩
  have hafter := isMapped_eq_count (heq ▸ hap') hlt' b
  rwa [heq, hcount b, ← isMapped_eq_count hap hlt b] at hafter

/-- Mapped memory is in transit until it is put into a map. -/
theorem Inv.addSpan (h : Inv w transit) (hspan : span.start < span.stop)
    (hfresh : ∀ s ∈ w.mapped, span.stop ≤ s.start ∨ s.stop ≤ span.start) (d : Driver) :
    Inv { w with mapped := addSpan w.mapped span, driver := d }
      (fun b => transit b + span.ind b) := by
  obtain ⟨hap, hlt, hmapped⟩ := addSpan_spec h.mapped h.mapped_lt hspan hfresh
  refine ⟨h.ok, h.absent, h.nodup, fun b => ?_, hap, hlt, h.queued, h.live, h.next, h.noPending⟩
  show w.held b + (transit b + span.ind b) =
    if (CudaAllocator.addSpan w.mapped span).any fun s => s.has b then 1 else 0
  rw [hmapped b, show (if w.mapped.any fun s => s.has b then 1 else 0) = _ from (h.bytes b).symm]
  omega

theorem Inv.addMemory (h : Inv w transit) {e : EventRegion}
    (hspan : span.start < span.stop) (he : e.span = span)
    (hfresh : ∀ s ∈ w.mapped, span.stop ≤ s.start ∨ s.stop ≤ span.start) (d : Driver) :
    Inv (w.addMemory d span e) transit := by
  have hevents : EventsOk span [e] := eventsOk_of_span hspan (by simpa using he)
  exact (h.addSpan hspan hfresh d).insert free_mem_places (fun hp => hp) hspan hevents

/-- Every edit keeps the partition. -/
theorem Edit.good (h : Edit c c') (hc : Good c) : Good c' := by
  cases h with
  | driver d ops hd => exact ⟨hc.inv.withDriver d, hc.hand⟩
  | openStream s => exact ⟨hc.inv.openStream s, hc.hand⟩
  | openPending s => exact ⟨hc.inv.openPending s, hc.hand⟩
  | next n hn =>
    have h := hc.inv
    exact ⟨⟨h.ok, h.absent, h.nodup, h.bytes, h.mapped, h.mapped_lt, h.queued, h.live, hn,
      h.noPending⟩, hc.hand⟩
  | take d ops hd hp hpend hr hle hpos hwait =>
    refine ⟨?_, fun v hv => ?_⟩
    · rw [inHand_cons]
      exact (hc.inv.withDriver d).take hp hpend hr hle hpos
    · rcases mem_cons.mp hv with rfl | hv
      · exact ⟨Nat.lt_add_of_pos_right hpos, cons_ne_nil _ _⟩
      · exact hc.hand v hv
  | move hs hr => exact ⟨hc.inv.move hs hr, hc.hand⟩
  | unqueue => exact ⟨hc.inv.unqueue, hc.inv.queued⟩
  | @giveBack w hand span users own evs d ops hd hevs husers =>
    obtain ⟨hinv, hspan, -, hhand⟩ := hc.tail
    refine ⟨?_, hhand⟩
    have hopen := (hinv.withDriver d).openStream own
    have hmem := mem_openStream (w.withDriver d) own
    have hevents := eventsOk_of_span hspan fun e he => (hevs e he).1
    exact hopen.insert (stream_mem_places hmem) (fun hp => hp) hspan hevents
  | enqueue hne hkeys =>
    obtain ⟨hinv, hspan, -, hhand⟩ := hc.tail
    exact ⟨hinv.enqueue hspan hne, hhand⟩
  | addMemory d ops hd hspan he hrecord hfresh =>
    exact ⟨hc.inv.addMemory hspan he hfresh d, hc.hand⟩

theorem Edits.good (h : Edits c c') (hc : Good c) : Good c' := by
  induction h with
  | refl => exact hc
  | tail _ hstep ih => exact hstep.good ih

/-- An edit keeps the allocations in use, and which event calls of the driver fail. -/
theorem Edit.kept (h : Edit c c') :
    c'.state.live = c.state.live ∧ c'.state.driver.eventOk = c.state.driver.eventOk := by
  have hopen (w : State) (s : Stream) : (w.openStream s).live = w.live ∧
      (w.openStream s).driver = w.driver := by
    unfold State.openStream
    split <;> exact ⟨rfl, rfl⟩
  cases h with
  | driver _ _ hd | take _ _ hd | addMemory _ _ hd => exact ⟨rfl, hd.eventOk⟩
  | @openStream w _ s => exact ⟨(hopen w s).1, congrArg _ (hopen w s).2⟩
  | openPending s =>
    dsimp only
    unfold State.openPending
    split <;> exact ⟨rfl, rfl⟩
  | @giveBack w _ _ _ own _ d _ hd =>
    exact ⟨(hopen (w.withDriver d) own).1,
      (congrArg _ (hopen (w.withDriver d) own).2).trans hd.eventOk⟩
  | _ => exact ⟨rfl, rfl⟩

theorem Edits.kept (h : Edits c c') :
    c'.state.live = c.state.live ∧ c'.state.driver.eventOk = c.state.driver.eventOk := by
  induction h with
  | refl => exact ⟨rfl, rfl⟩
  | tail _ hstep ih => exact ⟨hstep.kept.1.trans ih.1, hstep.kept.2.trans ih.2⟩

theorem Edits.reliable (h : Edits c c') :
    c'.state.driver.Reliable ↔ c.state.driver.Reliable := by
  rw [Driver.Reliable, h.kept.2, Driver.Reliable]

end Partition

end CudaAllocator
