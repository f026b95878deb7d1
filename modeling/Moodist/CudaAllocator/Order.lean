import Moodist.CudaAllocator.Run

/-!
# Memory is reused in order

Streams run in order, and a stream that waits for an event does what follows only when everything
put into the stream of the event before it was recorded is done. Work that may use an allocation is
on its stream or one recorded for it.
-/

namespace CudaAllocator

open Foundation List Option

/-! ## The order of streams and events -/

/-- The work at place `i` of the log is done before what is put into the stream from place `n` on:
it is in the stream, or the stream waits for an event that was recorded behind it. -/
inductive Ordered (log : List Op) : ℕ → ℕ → Stream → Prop
  | same {n i s} (hi : i < n) (hwork : log[i]? = some (.work s)) : Ordered log n i s
  | wait {n i s t j e} (hj : j < n) (hwait : log[j]? = some (.wait s e)) (he : e < j)
      (hrecord : log[e]? = some (.record t)) (h : Ordered log e i t) : Ordered log n i s

/-- The work at place `i` may use the span that was freed. -/
def Freed.Uses (f : Freed) (log : List Op) (i : ℕ) : Prop :=
  i < f.time ∧ ∃ t ∈ f.users, log[i]? = some (.work t)

section Order

variable {log ops : List Op} {freed : List Freed}

theorem getElem?_append_of_some {i : ℕ} {op : Op} (h : log[i]? = some op) :
    (log ++ ops)[i]? = some op := by
  obtain ⟨hi, -⟩ := List.getElem?_eq_some_iff.mp h
  rwa [List.getElem?_append_left hi]

theorem Ordered.append {n n' i : ℕ} {s : Stream} (h : Ordered log n i s) (hn : n ≤ n') :
    Ordered (log ++ ops) n' i s := by
  induction h generalizing n' with
  | same hi hwork => exact .same (hi.trans_le hn) (getElem?_append_of_some hwork)
  | wait hj hwait he hrecord _ ih =>
    exact .wait (hj.trans_le hn) (getElem?_append_of_some hwait) he
      (getElem?_append_of_some hrecord) (ih le_rfl)

theorem Freed.Uses.of_append {f : Freed} {i : ℕ} (hf : f.time ≤ log.length)
    (h : f.Uses (log ++ ops) i) : f.Uses log i := by
  obtain ⟨hi, t, ht, hwork⟩ := h
  rw [List.getElem?_append_left (hi.trans_le hf)] at hwork
  exact ⟨hi, t, ht, hwork⟩

/-! ## What a span waits for -/

/-- Work that may use a byte of the span is ordered before one of the streams. -/
def Awaited (log : List Op) (freed : List Freed) (span : Span) (users : List Stream) : Prop :=
  ∀ f ∈ freed, ∀ b, f.span.has b = true → span.has b = true → ∀ i, f.Uses log i →
    ∃ s ∈ users, Ordered log log.length i s

/-- Work that may use a byte of the region is ordered before an event of that byte. -/
def Region.Covered (log : List Op) (freed : List Freed) (r : Region) : Prop :=
  ∀ f ∈ freed, ∀ b, f.span.has b = true → r.span.has b = true → ∀ i, f.Uses log i →
    ∃ e ∈ r.events, e.span.has b = true ∧ Ordered log e.event i e.eventStream

structure Region.Safe (log : List Op) (freed : List Freed) (r : Region) : Prop where
  covered : r.Covered log freed
  events : ∀ e ∈ r.events, log[e.event]? = some (.record e.eventStream)

variable {span : Span}

theorem Awaited.append {users : List Stream} (h : Awaited log freed span users)
    (hfreed : ∀ f ∈ freed, f.time ≤ log.length) : Awaited (log ++ ops) freed span users := by
  intro f hf b hfb hb i hi
  obtain ⟨s, hs, hord⟩ := h f hf b hfb hb i (hi.of_append (hfreed f hf))
  exact ⟨s, hs, hord.append (by simp)⟩

variable {r : Region}

theorem Region.Safe.append (h : r.Safe log freed) (hfreed : ∀ f ∈ freed, f.time ≤ log.length) :
    r.Safe (log ++ ops) freed where
  covered f hf b hfb hb i hi := by
    obtain ⟨e, he, heb, hord⟩ := h.covered f hf b hfb hb i (hi.of_append (hfreed f hf))
    exact ⟨e, he, heb, hord.append le_rfl⟩
  events e he := getElem?_append_of_some (h.events e he)

theorem Region.Covered.of_parts (h : ∀ b, r.span.has b = true → ∃ x : Region, x.Covered log freed
      ∧ x.span.has b = true ∧ x.events ⊆ r.events) : r.Covered log freed := by
  intro f hf b hfb hb i hi
  obtain ⟨x, hx, hxb, hsub⟩ := h b hb
  obtain ⟨e, he, heb, hord⟩ := hx f hf b hfb hxb i hi
  exact ⟨e, hsub he, heb, hord⟩

variable {map : List Region} {rs : Regions}

theorem mem_of_countIn_toList {o : Option Region} {b : ℕ} (h : 0 < countIn o.toList b) :
    ∃ x, o = some x ∧ x.span.has b = true := by
  obtain ⟨x, hx, hb⟩ := countP_pos_iff.mp h
  exact ⟨x, mem_toList.mp hx, hb⟩

theorem safe_insertRegion (hok : rs.Ok) {events : List EventRegion}
    (hspan : span.start < span.stop) (hfresh : Fresh rs.map span)
    (h : ∀ r ∈ rs.map, r.Safe log freed) (hnew : Region.Safe log freed ⟨span, events⟩) :
    ∀ r ∈ (rs.insertRegion span events).map, r.Safe log freed := by
  intro r hr
  rcases mem_insertSpan hr with hr | rfl
  · exact h r hr
  · refine ⟨.of_parts fun b hb => ?_, fun e he => ?_⟩
    · have hind := joined_ind hok.region hok.apart hspan hfresh events b
      rw [Span.ind, if_pos hb] at hind
      by_cases hleft : 0 < countIn (leftOf rs.map span).toList b
      · obtain ⟨p, hp, hpb⟩ := mem_of_countIn_toList hleft
        refine ⟨p, (h p (mem_of_leftOf hp)).covered, hpb, fun e he => ?_⟩
        simp [joined, eventsOf, hp, he]
      · by_cases hright : 0 < countIn (rightOf rs.map span).toList b
        · obtain ⟨p, hp, hpb⟩ := mem_of_countIn_toList hright
          refine ⟨p, (h p (mem_of_rightOf hp)).covered, hpb, fun e he => ?_⟩
          simp [joined, eventsOf, hp, he]
        · refine ⟨⟨span, events⟩, hnew.covered, ?_, fun e he => ?_⟩
          · by_contra hnot
            rw [Span.ind, if_neg hnot] at hind
            omega
          · have he' : e ∈ events := he
            simp [joined, he']
    · have hof : ∀ o : Option Region, (∀ x, o = some x → x ∈ rs.map) → e ∈ eventsOf o →
          log[e.event]? = some (.record e.eventStream) := by
        rintro (- | x) hmem he
        · cases he
        · exact (h x (hmem x rfl)).events e he
      rcases mem_append.mp he with he | he
      · rcases mem_append.mp he with he | he
        · exact hof _ (fun x hx => mem_of_leftOf hx) he
        · exact hnew.events e he
      · exact hof _ (fun x hx => mem_of_rightOf hx) he

theorem Region.Safe.trim (h : r.Safe log freed) (bytes : ℕ) :
    Region.Safe log freed ⟨⟨r.span.start + bytes, r.span.stop⟩,
      r.events.filterMap (trim (r.span.start + bytes))⟩ where
  covered f hf b hfb hb i hi := by
    rw [Span.has_iff] at hb
    simp only at hb
    obtain ⟨e, he, heb, hord⟩ := h.covered f hf b hfb (Span.has_iff.mpr (by omega)) i hi
    rw [Span.has_iff] at heb
    refine ⟨{ e with span := ⟨max e.span.start (r.span.start + bytes), e.span.stop⟩ }, ?_, ?_, hord⟩
    · refine mem_filterMap.mpr ⟨e, he, ?_⟩
      rw [CudaAllocator.trim, if_pos (by omega)]
    · rw [Span.has_iff]
      simp only
      omega
  events e he := by
    obtain ⟨x, hx, he⟩ := mem_filterMap.mp he
    rw [CudaAllocator.trim] at he
    split at he
    · cases he
      exact h.events x hx
    · cases he

theorem safe_take (hr : r ∈ rs.map) (h : ∀ x ∈ rs.map, x.Safe log freed)
    (bytes : ℕ) : ∀ x ∈ (rs.take r bytes).map, x.Safe log freed := by
  intro x hx
  unfold Regions.take at hx
  split at hx
  · exact h x (mem_filter.mp hx).1
  · obtain ⟨y, hy, rfl⟩ := mem_map.mp hx
    split
    · exact (h r hr).trim bytes
    · exact h y hy

end Order

/-! ## The invariant -/

/-- What the bytes wait for in each place. `uses` says that no stream is forgotten that was recorded
for an allocation in use. -/
structure Safe (c : Config) : Prop where
  regions : ∀ p, ∀ r ∈ (c.state.regions p).map, r.Safe c.state.driver.log c.state.freed
  queue : ∀ v ∈ c.state.pendingDeallocations, Awaited c.state.driver.log c.state.freed v.1 v.2
  hand : ∀ v ∈ c.hand, Awaited c.state.driver.log c.state.freed v.1 v.2
  live : ∀ a ∈ c.state.live, Awaited c.state.driver.log c.state.freed a.span [a.stream]
  time : ∀ f ∈ c.state.freed, f.time ≤ c.state.driver.log.length
  mapped : ∀ f ∈ c.state.freed, ∀ b, f.span.has b = true → c.state.isMapped b = true
  uses : ∀ x ∈ c.state.recorded, x.1 ∈ c.state.live ∧
    x.2 ∈ (c.state.streamUses.lookup x.1.span.start).getD []

section Safe

variable {w : State} {hand : List (Span × List Stream)}

variable {d : Driver} {ops : List Op} {stream : Stream} {span : Span}

section

variable (h : Safe ⟨w, hand⟩) {p : Place}

include h

/-- The log grows, and nothing else changes. -/
theorem Safe.withDriver (hlog : d.log = w.driver.log ++ ops) : Safe ⟨w.withDriver d, hand⟩ where
  regions p r hr := by
    show r.Safe d.log w.freed
    rw [hlog]
    exact (h.regions p r hr).append h.time
  queue v hv := by
    show Awaited d.log w.freed v.1 v.2
    rw [hlog]
    exact (h.queue v hv).append h.time
  hand v hv := by
    show Awaited d.log w.freed v.1 v.2
    rw [hlog]
    exact (h.hand v hv).append h.time
  live a ha := by
    show Awaited d.log w.freed a.span [a.stream]
    rw [hlog]
    exact (h.live a ha).append h.time
  time f hf := by
    show f.time ≤ d.log.length
    rw [hlog, length_append]
    exact (h.time f hf).trans (Nat.le_add_right _ _)
  mapped := h.mapped
  uses := h.uses

theorem Safe.setRegions {rs : Regions}
    (hrs : ∀ r ∈ rs.map, r.Safe w.driver.log w.freed) : Safe ⟨w.setRegions p rs, hand⟩ where
  regions q r hr := by
    by_cases hq : q = p
    · subst hq
      have hself : ((w.setRegions q rs).regions q) = rs := setRegions_self w q rs
      exact hrs r (hself ▸ hr)
    · have hne : ((w.setRegions p rs).regions q) = w.regions q := setRegions_ne w rs hq
      exact h.regions q r (hne ▸ hr)
  queue := h.queue
  hand := h.hand
  live := h.live
  time := h.time
  mapped := h.mapped
  uses := h.uses

theorem Safe.openStream (s : Stream) : Safe ⟨w.openStream s, hand⟩ := by
  unfold State.openStream
  split
  · exact h
  · exact ⟨h.regions, h.queue, h.hand, h.live, h.time, h.mapped, h.uses⟩

theorem Safe.openPending (s : Stream) : Safe ⟨w.openPending s, hand⟩ := by
  unfold State.openPending
  split
  · exact h
  · exact ⟨h.regions, h.queue, h.hand, h.live, h.time, h.mapped, h.uses⟩

theorem Safe.withHand {hand' : List (Span × List Stream)}
    (hhand : ∀ v ∈ hand', Awaited w.driver.log w.freed v.1 v.2) : Safe ⟨w, hand'⟩ :=
  ⟨h.regions, h.queue, hhand, h.live, h.time, h.mapped, h.uses⟩

theorem Safe.awaited_take {r : Region} (hr : r ∈ (w.regions p).map) {bytes : ℕ}
    (hle : bytes ≤ r.span.bytes) (hwait : ∀ e ∈ r.events, e.span.start <
      r.span.start + bytes → e.eventStream ≠ stream → Op.wait stream e.event ∈ ops) :
    Awaited (w.driver.log ++ ops) w.freed ⟨r.span.start, r.span.start + bytes⟩ [stream] := by
  intro f hf b hfb hb i hi
  have hsafe : r.Safe w.driver.log w.freed := h.regions p r hr
  rw [Span.has_iff] at hb
  simp only at hb
  have hrb : r.span.has b = true := by
    rw [Span.bytes] at hle
    exact Span.has_iff.mpr (by omega)
  obtain ⟨e, he, heb, hord⟩ := hsafe.covered f hf b hfb hrb i (hi.of_append (h.time f hf))
  have hrecord := hsafe.events e he
  obtain ⟨hlt, -⟩ := List.getElem?_eq_some_iff.mp hrecord
  refine ⟨stream, mem_singleton_self _, ?_⟩
  by_cases hown : e.eventStream = stream
  · rw [← hown]
    exact hord.append (by simp; omega)
  · rw [Span.has_iff] at heb
    obtain ⟨j, hj, hget⟩ := getElem_of_mem (hwait e he (by omega) hown)
    have hplace : (w.driver.log ++ ops)[w.driver.log.length + j]? =
        some (.wait stream e.event) := by
      rw [List.getElem?_append_right (by omega), Nat.add_sub_cancel_left,
        List.getElem?_eq_getElem hj, hget]
    exact .wait (by rw [length_append]; omega) hplace (by omega)
      (getElem?_append_of_some hrecord) (hord.append le_rfl)

end

/-- The regions stay safe when what was in hand is given back with events recorded behind it. -/
theorem Safe.region_giveBack {users : List Stream} (h : Awaited w.driver.log w.freed span users)
    (htime : ∀ f ∈ w.freed, f.time ≤ w.driver.log.length) (hlog : d.log = w.driver.log ++ ops)
    {evs : List EventRegion} (hevs : ∀ e ∈ evs, e.span = span ∧ w.driver.log.length ≤ e.event ∧
      d.log[e.event]? = some (.record e.eventStream))
    (husers : ∀ s ∈ users, ∃ e ∈ evs, e.eventStream = s) :
    Region.Safe d.log w.freed ⟨span, evs⟩ where
  covered f hf b hfb hb i hi := by
    rw [hlog] at hi ⊢
    obtain ⟨s, hs, hord⟩ := h f hf b hfb hb i (hi.of_append (htime f hf))
    obtain ⟨e, he, rfl⟩ := husers s hs
    obtain ⟨hspan, hle, -⟩ := hevs e he
    exact ⟨e, he, hspan ▸ hb, hord.append hle⟩
  events e he := (hevs e he).2.2

variable {c' c : Config}

/-- Every edit keeps what the bytes wait for. -/
theorem Edit.safe (hedit : Edit c c') (hc : Good c) (h : Safe c) : Safe c' := by
  cases hedit with
  | driver d ops hd => exact h.withDriver hd.log
  | openStream s => exact h.openStream s
  | openPending s => exact h.openPending s
  | next n hn => exact ⟨h.regions, h.queue, h.hand, h.live, h.time, h.mapped, h.uses⟩
  | @take w hand p r bytes stream d ops hd hp hpend hr hle hpos hwait =>
    have hnew := h.withDriver hd.log
    refine (hnew.setRegions (safe_take hr (hnew.regions p) bytes)).withHand fun v hv => ?_
    rcases mem_cons.mp hv with rfl | hv
    · show Awaited d.log w.freed _ _
      rw [hd.log]
      exact h.awaited_take hr hle hwait
    · exact hnew.hand v hv
  | @move w hand s r hs hr =>
    -- the bytes go to the free regions with what they wait for
    have hrok := (hc.inv.ok (.stream s)).region r hr
    have hremove := hc.inv.remove (stream_mem_places hs) (fun hp => hp) hr
    have hleft : Safe ⟨w.setRegions (.stream s) ((w.regions (.stream s)).remove r.span.start),
        hand⟩ := h.setRegions fun x hx => h.regions (.stream s) x (mem_filter.mp hx).1
    refine hleft.setRegions (safe_insertRegion (hremove.ok .free) hrok.lt
      (hremove.fresh hrok.lt .free) (hleft.regions .free) ?_)
    exact h.regions (.stream s) r hr
  | @unqueue w => exact ⟨h.regions, by simp, h.queue, h.live, h.time, h.mapped, h.uses⟩
  | @giveBack w hand span users own evs d ops hd hevs husers =>
    obtain ⟨hinv, hspan, -, -⟩ := hc.tail
    have hopen := (hinv.withDriver d).openStream own
    have hnew : Safe ⟨(w.withDriver d).openStream own, hand⟩ :=
      ((h.withDriver hd.log).withHand fun v hv =>
        (h.withDriver hd.log).hand v (mem_cons_of_mem _ hv)).openStream own
    have hstate : ((w.withDriver d).openStream own).driver.log = d.log ∧
        ((w.withDriver d).openStream own).freed = w.freed := by
      unfold State.openStream
      split <;> exact ⟨rfl, rfl⟩
    refine hnew.setRegions (safe_insertRegion (hopen.ok _) hspan (hopen.fresh hspan _)
      (hnew.regions _) ?_)
    rw [hstate.1, hstate.2]
    exact Safe.region_giveBack (h.hand (span, users) mem_cons_self) h.time hd.log hevs husers
  | @enqueue w hand span users keys hne hkeys =>
    refine ⟨h.regions, fun v hv => ?_, fun v hv => h.hand v (mem_cons_of_mem _ hv), h.live,
      h.time, h.mapped, h.uses⟩
    rcases mem_append.mp hv with hv | hv
    · exact h.queue v hv
    · rw [mem_singleton.mp hv]
      -- events will be recorded on all streams that used the bytes
      intro f hf b hfb hb i hi
      obtain ⟨s, hs, hord⟩ := h.hand (span, users) mem_cons_self f hf b hfb hb i hi
      exact ⟨s, hkeys s hs, hord⟩
  | @addMemory w hand span e d ops hd hspan he hrecord hfresh =>
    have hnew := h.withDriver hd.log
    obtain ⟨-, -, hcount⟩ := addSpan_spec hc.inv.mapped hc.inv.mapped_lt hspan hfresh
    have hadd := hc.inv.addSpan hspan hfresh d
    have hsafe : Safe ⟨{ w with mapped := addSpan w.mapped span, driver := d }, hand⟩ := by
      refine ⟨hnew.regions, hnew.queue, hnew.hand, hnew.live, hnew.time, fun f hf b hb => ?_,
        hnew.uses⟩
      have hold : w.mapped.any (fun s => s.has b) = true := h.mapped f hf b hb
      have := hcount b
      rw [if_pos hold] at this
      by_contra hnot
      have hnot' : ¬ ((addSpan w.mapped span).any fun s => s.has b) = true := hnot
      rw [if_neg hnot'] at this
      omega
    refine hsafe.setRegions (safe_insertRegion (hadd.ok .free) hspan (hadd.fresh hspan .free)
      (hsafe.regions .free) ⟨?_, ?_⟩)
    · -- nothing that was freed is in memory that was not mapped
      intro f hf b hfb hb i hi
      obtain ⟨s, hs, hsb⟩ := any_eq_true.mp (h.mapped f hf b hfb)
      rw [Span.has_iff] at hsb hb
      have := hfresh s hs
      simp only at hb
      omega
    · intro x hx
      rw [mem_singleton.mp hx]
      exact hrecord

theorem Edits.safe (hedits : Edits c c') (hc : Good c) (h : Safe c) : Safe c' := by
  induction hedits with
  | refl => exact h
  | tail hedits hstep ih => exact hstep.safe (Edits.good hedits hc) ih

/-! ## The calls -/

theorem Safe.initial (d : Driver) : Safe ⟨.initial d, []⟩ := by
  refine ⟨fun p r hr => ?_, ?_, ?_, ?_, ?_, ?_, ?_⟩
  · cases hr
  all_goals simp [State.initial]

/-- Bytes in hand become an allocation of the stream that has waited for them. -/
theorem Safe.use (h : Safe ⟨w, [(span, [stream])]⟩) :
    Safe ⟨w.use ⟨span, stream⟩, []⟩ := by
  refine ⟨h.regions, h.queue, by simp, fun a ha => ?_, h.time, h.mapped, fun x hx => ?_⟩
  · rcases mem_append.mp ha with ha | ha
    · exact h.live a ha
    · rw [mem_singleton.mp ha]
      exact h.hand (span, [stream]) mem_cons_self
  · obtain ⟨hlive, huse⟩ := h.uses x hx
    exact ⟨mem_append_left _ hlive, huse⟩

theorem Safe.work (h : Safe ⟨w, hand⟩) (stream : Stream) : Safe ⟨w.work stream, hand⟩ :=
  h.withDriver rfl

variable {a : Allocation}

/-- A byte in use is nowhere else. -/
theorem Inv.elsewhere {transit : ℕ → ℕ} (h : Inv w transit) (ha : a ∈ w.live) {b : ℕ}
    (hb : a.span.has b = true) :
    (∀ p, (w.regions p).count b = 0) ∧ w.inQueue b = 0 ∧
      ∀ x ∈ w.live.erase a, x.span.has b = false := by
  have huse : a.span.ind b + ((w.live.erase a).map fun a => a.span.ind b).sum = w.inUse b :=
    sum_map_erase (fun a : Allocation => a.span.ind b) ha
  have hone : a.span.ind b = 1 := if_pos hb
  have hbytes := h.bytes b
  have hle : (if w.isMapped b then 1 else 0) ≤ 1 := by split <;> omega
  rw [State.held] at hbytes
  refine ⟨fun p => ?_, by omega, fun x hx => ?_⟩
  · by_cases hp : p ∈ w.places
    · have hcount : (w.regions p).count b ≤ w.inRegions b :=
        single_le_sum (by simp) _ (mem_map.mpr ⟨p, hp, rfl⟩)
      omega
    · rw [h.absent p hp]
      rfl
  · have hind : x.span.ind b ≤ ((w.live.erase a).map fun a => a.span.ind b).sum :=
      single_le_sum (by simp) _ (mem_map.mpr ⟨x, hx, rfl⟩)
    by_contra hxb
    have : x.span.ind b = 1 := if_pos (Bool.eq_true_of_not_eq_false hxb)
    omega

theorem mem_recordedFor {t : Stream} (h : Safe ⟨w, hand⟩) (ht : t ∈ w.recordedFor a) :
    t ∈ w.usersOf a := by
  rcases mem_cons.mp ht with rfl | ht
  · exact mem_cons_self
  · obtain ⟨x, hx, rfl⟩ := mem_map.mp ht
    obtain ⟨hmem, hxa⟩ := mem_filter.mp hx
    obtain rfl : x.1 = a := of_decide_eq_true hxa
    exact mem_cons_of_mem _ (h.uses x hmem).2

/-- What used an allocation is ordered before the streams that are waited for. -/
theorem Safe.release (h : Safe ⟨w, []⟩) (hgood : Good ⟨w, []⟩) (ha : a ∈ w.live) :
    Safe ⟨w.release a, [(a.span, w.usersOf a)]⟩ := by
  have hinv : Inv w (inHand []) := hgood.inv
  have hzero : ∀ b, a.span.has b = true → ∀ p, ∀ r ∈ (w.regions p).map, r.span.has b = false := by
    intro b hb p r hr
    have hcount := (hinv.elsewhere ha hb).1 p
    by_contra hrb
    have := (countP_eq_zero.mp hcount) r hr
    exact this (Bool.eq_true_of_not_eq_false hrb)
  refine ⟨fun p r hr => ⟨fun f hf b hfb hb i hi => ?_, (h.regions p r hr).events⟩,
    fun v hv f hf b hfb hb i hi => ?_, fun v hv f hf b hfb hb i hi => ?_,
    fun x hx f hf b hfb hb i hi => ?_, fun f hf => ?_, fun f hf b hb => ?_, fun x hx => ?_⟩
  -- the bytes of the allocation are in no region, nor in the queue or in another allocation
  · rcases mem_cons.mp hf with rfl | hf
    · rw [hzero b hfb p r hr] at hb
      cases hb
    · exact (h.regions p r hr).covered f hf b hfb hb i hi
  · rcases mem_cons.mp hf with rfl | hf
    · have hqueue : w.inQueue b = 0 := (hinv.elsewhere ha hfb).2.1
      have hle : v.1.ind b ≤ w.inQueue b := single_le_sum (by simp) _ (mem_map.mpr ⟨v, hv, rfl⟩)
      have : v.1.ind b = 1 := if_pos hb
      omega
    · exact h.queue v hv f hf b hfb hb i hi
  -- work that used the allocation is on a stream for which events are recorded
  · rw [mem_singleton.mp hv] at hb ⊢
    rcases mem_cons.mp hf with rfl | hf
    · obtain ⟨hlt, t, ht, hwork⟩ := hi
      exact ⟨t, mem_recordedFor h ht, .same hlt hwork⟩
    · obtain ⟨s, hs, hord⟩ := h.live a ha f hf b hfb hb i hi
      rw [mem_singleton.mp hs] at hord
      exact ⟨a.stream, mem_cons_self, hord⟩
  · rcases mem_cons.mp hf with rfl | hf
    · rw [(hinv.elsewhere ha hfb).2.2 x hx] at hb
      cases hb
    · exact h.live x (mem_of_mem_erase hx) f hf b hfb hb i hi
  · rcases mem_cons.mp hf with rfl | hf
    · exact le_rfl
    · exact h.time f hf
  · rcases mem_cons.mp hf with rfl | hf
    · have hbytes := hinv.bytes b
      have huse : a.span.ind b ≤ w.inUse b := single_le_sum (by simp) _ (mem_map.mpr ⟨a, ha, rfl⟩)
      have hone : a.span.ind b = 1 := if_pos hb
      by_contra hnot
      have hnot' : ¬ w.isMapped b = true := hnot
      rw [if_neg hnot', State.held] at hbytes
      omega
    · exact h.mapped f hf b hb
  · obtain ⟨hx, hne⟩ := mem_filter.mp hx
    obtain ⟨hlive, huse⟩ := h.uses x hx
    exact ⟨(mem_erase_of_ne (of_decide_eq_true hne)).mpr hlive, huse⟩

theorem lookup_filter_ne {uses : List (ℕ × List Stream)} {ptr ptr' : ℕ} (h : ptr' ≠ ptr) :
    (uses.filter fun u => u.1 ≠ ptr).lookup ptr' = uses.lookup ptr' := by
  induction uses with
  | nil => rfl
  | cons u uses ih =>
    obtain ⟨k, l⟩ := u
    by_cases hk : k = ptr
    · subst hk
      rw [filter_cons_of_neg (by simp), ih, lookup_cons, show (ptr' == k) = false by simpa using h]
    · rw [filter_cons_of_pos (by simpa using hk), lookup_cons, lookup_cons, ih]

/-- A stream is noted for an allocation. -/
theorem Safe.noteUse (h : Safe ⟨w, hand⟩) (ptr : ℕ) (stream : Stream) :
    Safe ⟨w.noteUse ptr stream, hand⟩ := by
  refine ⟨h.regions, h.queue, h.hand, h.live, h.time, h.mapped, fun x hx => ?_⟩
  show x.1 ∈ w.live ∧ x.2 ∈ (List.lookup x.1.span.start ((ptr, _) :: _)).getD []
  rcases mem_append.mp hx with hx | hx
  · obtain ⟨a, ha, rfl⟩ := mem_map.mp hx
    obtain ⟨ha, hptr⟩ := mem_filter.mp ha
    have hptr : a.span.start = ptr := of_decide_eq_true hptr
    refine ⟨ha, ?_⟩
    rw [hptr, lookup_cons_self]
    simp
  · obtain ⟨hlive, huse⟩ := h.uses x hx
    refine ⟨hlive, ?_⟩
    by_cases hptr : x.1.span.start = ptr
    · rw [hptr, lookup_cons_self]
      rw [hptr] at huse
      exact mem_append_left _ huse
    · rw [lookup_cons, show (x.1.span.start == ptr) = false by simpa using hptr,
        lookup_filter_ne hptr]
      exact huse

theorem Safe.eraseUses (h : Safe ⟨w, hand⟩) {ptr : ℕ} (hptr : ∀ a ∈ w.live, a.span.start ≠ ptr) :
    Safe ⟨w.eraseUses ptr, hand⟩ := by
  refine ⟨h.regions, h.queue, h.hand, h.live, h.time, h.mapped, fun x hx => ?_⟩
  obtain ⟨hlive, huse⟩ := h.uses x hx
  refine ⟨hlive, ?_⟩
  show x.2 ∈ (List.lookup _ (w.streamUses.filter fun u => u.1 ≠ ptr)).getD []
  rwa [lookup_filter_ne (hptr x.1 hlive)]

/-- A legal call keeps what the bytes wait for, if the driver does not fail. -/
theorem Performs.safe {c : Call} {w' : State} (hperforms : Performs w c w')
    (hgood : Good ⟨w, []⟩) (h : Safe ⟨w, []⟩) : Safe ⟨w', []⟩ := by
  cases hperforms with
  | edits hedits => exact hedits.safe hgood h
  | allocate hedits => exact (hedits.safe hgood h).use
  | @free a w₁ ha hedits =>
    have husers : w.usersOf a ≠ [] := cons_ne_nil _ _
    refine (hedits.safe (hgood.release ha husers) (h.release hgood ha)).eraseUses fun x hx => ?_
    -- no other allocation in use starts where this one did
    have hlt : a.span.start < a.span.stop := hgood.inv.live a ha
    have hb : a.span.has a.span.start = true := Span.has_iff.mpr ⟨le_rfl, hlt⟩
    have hlive : w₁.live = w.live.erase a := hedits.kept.1
    have hx' : x ∈ w.live.erase a := hlive ▸ hx
    have hother := (Inv.elsewhere hgood.inv ha hb).2.2 x hx'
    have hxlt : x.span.start < x.span.stop := hgood.inv.live x (mem_of_mem_erase hx')
    intro hstart
    rw [← hstart, Span.has_iff.mpr ⟨le_rfl, hxlt⟩] at hother
    cases hother
  | recordStream ptr stream => exact h.noteUse ptr stream
  | work stream => exact h.work stream

theorem Run.safe (h : Run (fun w c => c.Legal w ∧ c.Quiet w) d w) : Safe ⟨w, []⟩ := by
  induction h with
  | start => exact .initial d
  | call hrun hc ih => exact (Call.next_performs hrun.good hc.1 hc.2).safe hrun.good ih

/-- An allocation for a stream is ordered behind all work that may have used its bytes: whatever
was put into the stream of an earlier allocation with one of the bytes, or into one recorded for
it, before that was freed. -/
theorem allocate_ordered {d : Driver} (h : Run (fun w c => c.Legal w ∧ c.Quiet w) d w) {bytes : ℕ}
    {stream : Stream} {w' : State} (hret : perform (.allocate bytes stream) w = .ok () w') :
    ∃ a : Allocation, w'.live = w.live ++ [a] ∧ a.stream = stream ∧
      ∀ f ∈ w'.freed, ∀ b, f.span.has b = true → a.span.has b = true → ∀ t ∈ f.users, ∀ i < f.time,
        w'.driver.log[i]? = some (.work t) →
        Ordered w'.driver.log w'.driver.log.length i stream := by
  obtain ⟨w₁, ptr, hedits, rfl⟩ := (wp_ok hret).mp (allocate_spec h.good bytes stream)
  have hsafe := (hedits.safe h.good h.safe).use
  refine ⟨⟨⟨ptr, ptr + alignedBytes bytes⟩, stream⟩, ?_, rfl,
    fun f hf b hfb hb t ht i hi hwork => ?_⟩
  · exact congrArg (· ++ _) hedits.kept.1
  · obtain ⟨s, hs, hord⟩ := hsafe.live _ (mem_append_right _ (mem_singleton_self _)) f hf b
      hfb hb i ⟨hi, t, ht, hwork⟩
    rwa [mem_singleton.mp hs] at hord

end Safe

theorem Call.perform_of_returns {c : Call} {w : State} (h : c.returns w = true) :
    perform c w = .ok () (c.next w) := by
  unfold Call.returns at h
  unfold Call.next
  cases hres : perform c w with
  | ok _ w' => rfl
  | error e w' =>
    rw [hres] at h
    cases h

/-- The memory of two streams is joined, after one of them has done some work. -/
def joinCalls : List Call :=
  [.allocate 256 1, .allocate 256 2, .work 1, .free ⟨⟨4096, 4352⟩, 1⟩, .free ⟨⟨4352, 4608⟩, 2⟩,
    .freeStreamMemory 512]

/-- A third stream waits for that work. -/
theorem allocate_ordered_joined :
    ∃ w w', Run (fun w c => c.Legal w ∧ c.Quiet w) (onceDriver 1024 1000) w ∧
      perform (.allocate 512 3) w = .ok () w' ∧ w'.live = [⟨⟨4096, 4608⟩, 3⟩] ∧
      w'.driver.log[2]? = some (.work 1) ∧ Ordered w'.driver.log w'.driver.log.length 2 3 := by
  have hrun : Run (fun w c => c.Legal w ∧ c.Quiet w) (onceDriver 1024 1000)
      (calls (.initial (onceDriver 1024 1000)) joinCalls) := run_of_returns (by decide +kernel)
  have hret : (Call.allocate 512 3).returns (calls (.initial (onceDriver 1024 1000)) joinCalls) =
      true := by decide +kernel
  obtain ⟨a, hlive, hstream, hordered⟩ := allocate_ordered hrun (Call.perform_of_returns hret)
  have hone :
      ((Call.allocate 512 3).next (calls (.initial (onceDriver 1024 1000)) joinCalls)).live =
      [⟨⟨4096, 4608⟩, 3⟩] := by decide +kernel
  have hnone : (calls (.initial (onceDriver 1024 1000)) joinCalls).live = [] := by decide +kernel
  have hwork : ((Call.allocate 512 3).next
      (calls (.initial (onceDriver 1024 1000)) joinCalls)).driver.log[2]? = some (.work 1) := by
    decide +kernel
  rw [hone, hnone, nil_append] at hlive
  obtain rfl := singleton_injective hlive
  exact ⟨_, _, hrun, Call.perform_of_returns hret, hone, hwork,
    hordered ⟨⟨4096, 4352⟩, [1], 3⟩ (by decide +kernel) 4096 rfl rfl 1 (by decide) 2 (by decide)
      hwork⟩

/-! ## A wait that fails -/

/-- Decides the order for a given log. The number of events in a row is bounded. -/
def orderedIn (log : List Op) : ℕ → ℕ → ℕ → Stream → Bool
  | 0, _, _, _ => false
  | fuel + 1, n, i, s =>
    (decide (i < n) && decide (log[i]? = some (.work s))) ||
      (List.range n).any fun j =>
        match log[j]? with
        | some (.wait s' e) =>
          decide (s' = s) && decide (e < j) &&
            match log[e]? with
            | some (.record t) => orderedIn log fuel e i t
            | _ => false
        | _ => false

theorem Ordered.orderedIn {log : List Op} {n i : ℕ} {s : Stream} (h : Ordered log n i s) {fuel : ℕ}
    (hfuel : n < fuel) : orderedIn log fuel n i s = true := by
  induction h generalizing fuel with
  | same hi hwork =>
    obtain ⟨fuel, rfl⟩ := Nat.exists_eq_succ_of_ne_zero (by omega : fuel ≠ 0)
    simp [CudaAllocator.orderedIn, hi, hwork]
  | @wait n i s t j e hj hwait he hrecord _ ih =>
    obtain ⟨fuel, rfl⟩ := Nat.exists_eq_succ_of_ne_zero (by omega : fuel ≠ 0)
    rw [CudaAllocator.orderedIn, Bool.or_eq_true]
    right
    refine any_eq_true.mpr ⟨j, mem_range.mpr hj, ?_⟩
    simp only [hwait, hrecord, he, decide_true, Bool.true_and]
    exact ih (by omega)

def failOnce (call : ℕ) : Driver := { onceDriver 1024 0 with eventOk := fun n => n ≠ call }

/-- The third stream cannot wait for both. -/
def failedWait : State := calls (.initial (failOnce 525)) (joinCalls ++ [.allocate 512 3])

/-- A fourth stream then gets the bytes of the first, without waiting for its work. -/
theorem allocate_unordered :
    ∃ w w', Run (fun w c => c.Legal w) (failOnce 525) w ∧
      perform (.allocate 512 4) w = .ok () w' ∧
      ∃ a ∈ w'.live, ∃ f ∈ w'.freed, ∃ b t i, a.stream = 4 ∧ a.span.has b = true ∧
        f.span.has b = true ∧ t ∈ f.users ∧ i < f.time ∧ w'.driver.log[i]? = some (.work t) ∧
        ¬ Ordered w'.driver.log w'.driver.log.length i 4 := by
  have hrun : Run (fun w c => c.Legal w) (failOnce 525) failedWait :=
    run_of_legal (by decide +kernel)
  have hret : (Call.allocate 512 4).returns failedWait = true := by decide +kernel
  refine ⟨failedWait, _, hrun, Call.perform_of_returns hret, ⟨⟨4096, 4608⟩, 4⟩, by decide +kernel,
    ⟨⟨4096, 4352⟩, [1], 3⟩, by decide +kernel, 4096, 1, 2, rfl, rfl, rfl, by decide, by decide,
    by decide +kernel, fun hord => ?_⟩
  have hlog : ((Call.allocate 512 4).next failedWait).driver.log =
      [.record 1, .wait 2 0, .work 1, .record 1, .record 2, .wait 3 3, .wait 4 4] := by
    decide +kernel
  rw [hlog] at hord
  exact absurd (hord.orderedIn (Nat.lt_succ_self _)) (by decide +kernel)

end CudaAllocator
