import Moodist.CudaAllocator.Partition

/-!
# What the functions of the allocator do

One lemma for each function says how it ends and in which state. A call that is checked and fails
ends with an error of the driver; all that is said then is that event calls of the driver can fail.
-/

namespace CudaAllocator

open Foundation List

/-! ## Events -/

def State.withDriver (w : State) (d : Driver) : State := { w with driver := d }

/-- No event call fails. -/
def Driver.Reliable (d : Driver) : Prop := ∀ n, d.eventOk n = true

/-- The driver after it has done some operations. -/
structure Driver.Later (d : Driver) (ops : List Op) (d' : Driver) : Prop where
  log : d'.log = d.log ++ ops
  eventOk : d'.eventOk = d.eventOk

theorem Driver.Later.refl (d : Driver) : d.Later [] d := ⟨(append_nil _).symm, rfl⟩

theorem Driver.Later.trans {d d' d'' : Driver} {ops ops' : List Op} (h : d.Later ops d')
    (h' : d'.Later ops' d'') : d.Later (ops ++ ops') d'' :=
  ⟨by rw [h'.log, h.log, append_assoc], h'.eventOk.trans h.eventOk⟩

theorem Driver.Later.reliable {d d' : Driver} {ops : List Op} (h : d.Later ops d') :
    d'.Reliable ↔ d.Reliable := by
  rw [Reliable, h.eventOk, Reliable]

theorem eventCall_cases (op : Op) (w : State) :
    (∃ d, w.driver.Later [op] d ∧
      eventCall op w = .ok (some w.driver.log.length) (w.withDriver d)) ∨
    ∃ d, w.driver.Later [] d ∧ ¬ w.driver.Reliable ∧
      eventCall op w = .ok none (w.withDriver d) := by
  by_cases h : w.driver.eventOk w.driver.calls = true
  · left
    refine ⟨{ w.driver with log := w.driver.log ++ [op], calls := w.driver.calls + 1 },
      ⟨rfl, rfl⟩, ?_⟩
    simp only [eventCall, bind, EStateM.bind, MonadState.get, getThe, MonadStateOf.get, EStateM.get,
      h, if_true]
    rfl
  · right
    refine ⟨{ w.driver with calls := w.driver.calls + 1 }, ⟨(append_nil _).symm, rfl⟩,
      fun hall => h (hall _), ?_⟩
    simp only [eventCall, bind, EStateM.bind, MonadState.get, getThe, MonadStateOf.get, EStateM.get,
      h]
    rfl

/-- What is left of an event when the bytes up to `ptrEnd` are taken. -/
def trim (ptrEnd : ℕ) (e : EventRegion) : Option EventRegion :=
  if ptrEnd < e.span.stop then
    some { e with span := ⟨max e.span.start ptrEnd, e.span.stop⟩ }
  else
    none

theorem filterMap_trim_self {ptrEnd : ℕ} {events : List EventRegion}
    (h : ∀ e ∈ events, ptrEnd ≤ e.span.start ∧ e.span.start < e.span.stop) :
    events.filterMap (trim ptrEnd) = events := by
  induction events with
  | nil => rfl
  | cons e es ih =>
    have he := h e mem_cons_self
    have htrim : trim ptrEnd e = some e := by
      rw [trim, if_pos (by omega), max_eq_left he.1]
    rw [filterMap_cons_some htrim, ih fun x hx => h x (mem_cons_of_mem _ hx)]

variable {span : Span}

theorem EventsOk.trim {events : List EventRegion} (h : EventsOk span events) (ptrEnd : ℕ) :
    EventsOk ⟨ptrEnd, span.stop⟩ (events.filterMap (trim ptrEnd)) := by
  constructor
  · refine List.Pairwise.filterMap _ (fun a a' ha b hb b' hb' => ?_) h.sorted
    simp only [CudaAllocator.trim] at hb hb'
    split at hb <;> simp only [Option.some.injEq, reduceCtorEq] at hb
    split at hb' <;> simp only [Option.some.injEq, reduceCtorEq] at hb'
    subst hb hb'
    simp only
    omega
  · intro e he
    obtain ⟨x, hx, he⟩ := mem_filterMap.mp he
    have := h.inside x hx
    simp only [CudaAllocator.trim] at he
    split at he <;> simp only [Option.some.injEq, reduceCtorEq] at he
    subst he
    simp only
    omega

theorem waitEvent_spec (stream : Stream) (e : EventRegion) (w : State) :
    ∃ waited ops d, waitEvent stream e w = .ok waited (w.withDriver d) ∧ w.driver.Later ops d ∧
      (waited = true → e.eventStream ≠ stream → Op.wait stream e.event ∈ ops) ∧
      (waited = false → ¬ w.driver.Reliable) := by
  unfold waitEvent
  by_cases hs : e.eventStream ≠ stream
  · rw [if_pos hs, map_eq_pure_bind]
    rcases eventCall_cases (.wait stream e.event) w with ⟨d, hd, heq⟩ | ⟨d, hd, hfail, heq⟩
    · rw [bind_ok heq]
      exact ⟨true, [.wait stream e.event], d, rfl, hd, fun _ _ => by simp, nofun⟩
    · rw [bind_ok heq]
      exact ⟨false, [], d, rfl, hd, nofun, fun _ => hfail⟩
  · rw [if_neg hs]
    exact ⟨true, [], w.driver, rfl, .refl _, fun _ h => absurd h hs, nofun⟩

/-- The loop over the events waits for every event in front of `ptrEnd`. -/
theorem waitEvents_spec (stream : Stream) (ptrEnd : ℕ) (events : List EventRegion)
    (hev : EventsOk span events) (w : State) :
    ∃ evs ok ops d, waitEvents stream ptrEnd events w = .ok (evs, ok) (w.withDriver d) ∧
      w.driver.Later ops d ∧
      (ok = true → evs = events.filterMap (trim ptrEnd) ∧
        ∀ e ∈ events, e.span.start < ptrEnd → e.eventStream ≠ stream →
          Op.wait stream e.event ∈ ops) ∧
      (ok = false → ¬ w.driver.Reliable) := by
  induction events generalizing w with
  | nil => exact ⟨[], true, [], w.driver, rfl, .refl _, by simp, nofun⟩
  | cons e es ih =>
    have hes : EventsOk span es := ⟨hev.sorted.of_cons, fun x hx =>
      hev.inside x (mem_cons_of_mem _ hx)⟩
    have he := hev.inside e mem_cons_self
    by_cases hstop : e.span.start ≥ ptrEnd
    · -- the events behind the first that starts late start late as well
      have hlate : ∀ x ∈ e :: es, ptrEnd ≤ x.span.start := by
        intro x hx
        rcases mem_cons.mp hx with rfl | hx
        · exact hstop
        · exact hstop.le.trans (rel_of_pairwise_cons hev.sorted hx)
      refine ⟨e :: es, true, [], w.driver, ?_, .refl _, fun _ => ⟨?_, fun x hx hlt => ?_⟩, nofun⟩
      · rw [waitEvents, if_pos hstop]
        rfl
      · exact (filterMap_trim_self fun x hx => ⟨hlate x hx, (hev.inside x hx).2.1⟩).symm
      · exact absurd (hlate x hx) (not_le.mpr hlt)
    · obtain ⟨waited, ops₁, d₁, hcall, hd₁, hwait, hfail₁⟩ := waitEvent_spec stream e w
      rw [waitEvents, if_neg hstop, bind_ok hcall]
      cases waited with
      | false => exact ⟨e :: es, false, ops₁, d₁, rfl, hd₁, nofun, hfail₁⟩
      | true =>
        obtain ⟨evs, ok, ops, d, hrec, hd, hok, hfail⟩ := ih hes (w.withDriver d₁)
        have hfail' : ok = false → ¬ w.driver.Reliable := fun h => hd₁.reliable.not.mp (hfail h)
        have hall : ok = true → ∀ x ∈ e :: es, x.span.start < ptrEnd → x.eventStream ≠ stream →
            Op.wait stream x.event ∈ ops₁ ++ ops := by
          intro h x hx hlt hs
          rcases mem_cons.mp hx with rfl | hx
          · exact mem_append_left _ (hwait rfl hs)
          · exact mem_append_right _ ((hok h).2 x hx hlt hs)
        rw [show (!true) = false from rfl, if_neg Bool.false_ne_true, bind_ok hrec]
        by_cases hlong : e.span.stop > ptrEnd
        · refine ⟨_, ok, _, d, by simp only [if_pos hlong]; rfl, hd₁.trans hd,
            fun h => ⟨?_, hall h⟩, hfail'⟩
          have htrim : trim ptrEnd e = some { e with span := ⟨ptrEnd, e.span.stop⟩ } := by
            rw [trim, if_pos hlong, max_eq_right (by omega)]
          rw [filterMap_cons_some htrim, (hok h).1]
        · refine ⟨_, ok, _, d, by simp only [if_neg hlong]; rfl, hd₁.trans hd,
            fun h => ⟨?_, hall h⟩, hfail'⟩
          have htrim : trim ptrEnd e = none := by rw [trim, if_neg hlong]
          rw [filterMap_cons_none htrim, (hok h).1]

/-! ## Taking bytes -/

def Regions.take (rs : Regions) (r : Region) (bytes : ℕ) : Regions :=
  if r.span.bytes = bytes then
    rs.remove r.span.start
  else
    rs.shrink r bytes (r.events.filterMap (trim (r.span.start + bytes)))

/-- `allocateFrom` finds no region, or takes the first bytes of one after waiting for its events
there. -/
theorem allocateFrom_cases {w : State} {p : Place} (hok : (w.regions p).Ok) (bytes : ℕ)
    (stream : Stream) :
    ((∀ r ∈ (w.regions p).map, r.span.bytes < bytes) ∧
      allocateFrom p bytes stream w = .ok none w) ∨
    ∃ r ∈ (w.regions p).map, bytes ≤ r.span.bytes ∧
      ((∃ w', allocateFrom p bytes stream w = .error .cuda w' ∧ ¬ w.driver.Reliable) ∨
      ∃ d ops, w.driver.Later ops d ∧
        (∀ e ∈ r.events, e.span.start < r.span.start + bytes → e.eventStream ≠ stream →
          Op.wait stream e.event ∈ ops) ∧
        allocateFrom p bytes stream w = .ok (some r.span.start)
          ((w.withDriver d).setRegions p ((w.regions p).take r bytes))) := by
  rw [allocateFrom, get_bind]
  cases hfind : (w.regions p).sizes.find? fun e => bytes ≤ e.1 with
  | none =>
    left
    exact ⟨hok.find_size_none hfind, rfl⟩
  | some e =>
    right
    obtain ⟨r, hr, hmap, rfl, hle⟩ := hok.find_size hfind
    refine ⟨r, hr, hle, ?_⟩
    have hkey : ¬ r.span.bytes ≠ r.key.1 := fun h => h rfl
    have hrok := hok.region r hr
    obtain ⟨evs, ok, ops, d, hwaits, hd, hevs, hfail⟩ :=
      waitEvents_spec stream (r.span.start + bytes) r.events hrok.events w
    simp only [hmap, if_neg hkey]
    rw [bind_ok hwaits]
    cases ok with
    | false => exact .inl ⟨_, rfl, hfail rfl⟩
    | true =>
      obtain ⟨rfl, hwait⟩ := hevs rfl
      refine .inr ⟨d, ops, hd, hwait, ?_⟩
      by_cases hall : r.span.bytes = bytes
      · have hnil : r.events.filterMap (trim (r.span.start + bytes)) = [] := by
          refine filterMap_eq_nil_iff.mpr fun e he => ?_
          have := (hrok.events.inside e he).2.2
          have hlt := hrok.lt
          rw [Span.bytes] at hall
          rw [trim, if_neg (by omega)]
        have hkey' : r.key.1 = bytes := hall
        simp only [hnil, hkey', Regions.take, if_pos hall]
        rfl
      · have hkey' : ¬ r.key.1 = bytes := hall
        simp only [hkey', Regions.take, if_neg hall]
        rfl

section Take

variable {w : State} {transit : ℕ → ℕ} {p : Place} {bytes : ℕ} {stream : Stream}

theorem Inv.take (h : Inv w transit) (hp : p ∈ w.places) (hpend : ¬ p.IsPending) {r : Region}
    (hr : r ∈ (w.regions p).map) (hle : bytes ≤ r.span.bytes) (hpos : 0 < bytes) :
    Inv (w.setRegions p ((w.regions p).take r bytes))
      (fun b => transit b + (⟨r.span.start, r.span.start + bytes⟩ : Span).ind b) := by
  have hrok := (h.ok p).region r hr
  unfold Regions.take
  split
  case isTrue hall =>
    have hspan : (⟨r.span.start, r.span.start + bytes⟩ : Span) = r.span := by
      have := hrok.lt
      rw [Span.bytes] at hall
      rw [show r.span.start + bytes = r.span.stop by omega]
    rw [hspan]
    exact h.remove hp hpend hr
  case isFalse hall =>
    exact h.shrink hp hpend hr (by omega) hpos (hrok.events.trim _)

theorem Inv.withDriver (h : Inv w transit) (d : Driver) : Inv (w.withDriver d) transit := h.driver d

/-- What is known when a call ends with an error: no check fails, and for a driver whose event calls
do not fail, it is not an error of the driver. -/
def Ends (d : Driver) (I : State → Prop) : Error → State → Prop
  | .check, _ => False
  | .cuda, _ => ¬ d.Reliable
  | .outOfMemory _ _ _ _ _ _, w => I w

theorem Ends.mono {d d' : Driver} {I J : State → Prop} (hd : d'.Reliable ↔ d.Reliable)
    (h : ∀ w, I w → J w) {e : Error} {w : State} (he : Ends d' I e w) : Ends d J e w := by
  cases e with
  | check => exact he
  | cuda => exact hd.not.mp he
  | outOfMemory => exact h w he

end Take

/-! ## Giving bytes back -/

theorem recordEvents_spec (span : Span) (keys : List Stream) (w : State) :
    ∃ res ops d, recordEvents span keys w = .ok res (w.withDriver d) ∧ w.driver.Later ops d ∧
      (∀ evs, res = some evs → (∀ e ∈ evs, e.span = span ∧ w.driver.log.length ≤ e.event ∧
          d.log[e.event]? = some (.record e.eventStream)) ∧
        evs.map EventRegion.eventStream = keys) ∧
      (res = none → ¬ w.driver.Reliable) := by
  induction keys generalizing w with
  | nil =>
    refine ⟨some [], [], w.driver, rfl, .refl _, fun evs h => ?_, nofun⟩
    cases h
    exact ⟨by simp, rfl⟩
  | cons s keys ih =>
    rcases eventCall_cases (.record s) w with ⟨d₁, hd₁, hcall⟩ | ⟨d₁, hd₁, hfail, hcall⟩
    · obtain ⟨res, ops, d, hrec, hd, hres, hfail⟩ := ih (w.withDriver d₁)
      have hd' : w.driver.Later ([.record s] ++ ops) d := hd₁.trans hd
      refine ⟨res.map fun rest => ⟨span, w.driver.log.length, s⟩ :: rest, [.record s] ++ ops, d, ?_,
        hd', fun evs h => ?_, fun h => hd₁.reliable.not.mp (hfail (Option.map_eq_none_iff.mp h))⟩
      · rw [recordEvents, bind_ok hcall]
        simp only
        rw [bind_ok hrec]
        rfl
      · cases res with
        | none => cases h
        | some rest =>
          cases h
          obtain ⟨hrest, hkeys⟩ := hres rest rfl
          refine ⟨fun e he => ?_, by simp [hkeys]⟩
          rcases mem_cons.mp he with rfl | he
          · refine ⟨rfl, le_rfl, ?_⟩
            rw [hd'.log, getElem?_append_right le_rfl]
            simp
          · obtain ⟨hspan, hle, hget⟩ := hrest e he
            refine ⟨hspan, ?_, hget⟩
            have hlen : (w.withDriver d₁).driver.log.length = w.driver.log.length + 1 := by
              rw [show (w.withDriver d₁).driver = d₁ from rfl, hd₁.log]
              simp
            omega
    · refine ⟨none, [], d₁, ?_, hd₁, nofun, fun _ => hfail⟩
      rw [recordEvents, bind_ok hcall]
      rfl

theorem eventsOk_of_span {evs : List EventRegion} (hspan : span.start < span.stop)
    (h : ∀ e ∈ evs, e.span = span) : EventsOk span evs := by
  refine ⟨List.pairwise_iff_forall_sublist.mpr fun {a b} hab => ?_, fun e he => ?_⟩
  · rw [h a (hab.subset (by simp)), h b (hab.subset (by simp))]
  · rw [h e he]
    omega

theorem deallocate_cases (allowErrors : Bool) (span : Span) (own : Stream) (users : List Stream)
    (w : State) :
    ∃ d ops, w.driver.Later ops d ∧
      ((∃ evs, (∀ e ∈ evs, e.span = span ∧ w.driver.log.length ≤ e.event ∧
            d.log[e.event]? = some (.record e.eventStream)) ∧
          (∀ s ∈ own :: users, ∃ e ∈ evs, e.eventStream = s) ∧
          deallocate allowErrors span (own :: users) w =
            .ok () (((w.withDriver d).openStream own).giveBack own span evs)) ∨
        (allowErrors = true ∧ ¬ w.driver.Reliable ∧
          deallocate allowErrors span (own :: users) w = .error .cuda (w.withDriver d)) ∨
        ∃ keys, keys ≠ [] ∧ (∀ s ∈ own :: users, s ∈ keys) ∧ allowErrors = false ∧
          deallocate allowErrors span (own :: users) w =
            .ok () { w.withDriver d with
              pendingDeallocations := w.pendingDeallocations ++ [(span, keys)] }) := by
  set keys := w.driver.order (own :: users).dedup with hkeys
  have hmem : ∀ s ∈ own :: users, s ∈ keys := fun s hs =>
    (w.driver.order_perm _).mem_iff.mpr (mem_dedup.mpr hs)
  obtain ⟨res, ops, d, hrec, hd, hres, hfail⟩ := recordEvents_spec span keys w
  refine ⟨d, ops, hd, ?_⟩
  have hstart : deallocate allowErrors span (own :: users) w =
      (recordEvents span keys >>= giveBackOrQueue allowErrors span own keys) w := rfl
  rw [hstart, bind_ok hrec]
  cases res with
  | some evs =>
    obtain ⟨hevs, hstreams⟩ := hres evs rfl
    refine .inl ⟨evs, hevs, fun s hs => ?_, rfl⟩
    have := hmem s hs
    rw [← hstreams] at this
    obtain ⟨e, he, rfl⟩ := mem_map.mp this
    exact ⟨e, he, rfl⟩
  | none =>
    cases allowErrors with
    | true => exact .inr (.inl ⟨rfl, hfail rfl, rfl⟩)
    | false =>
      refine .inr (.inr ⟨keys, ?_, hmem, rfl, rfl⟩)
      exact ne_nil_of_mem (hmem own mem_cons_self)

/-! ## The number of regions -/

def State.streamLoad (w : State) : ℕ :=
  ((w.streams.map Place.stream).map fun p => (w.regions p).map.length).sum

section Load

variable {w : State} {transit : ℕ → ℕ}

theorem Inv.nodup_streams (h : Inv w transit) : (w.streams.map Place.stream).Nodup := by
  have := h.nodup
  simp only [State.places, nodup_cons, nodup_append] at this
  exact this.2.2.1

theorem Inv.streamLoad_setRegions (h : Inv w transit) {s : Stream} (hs : s ∈ w.streams)
    (rs : Regions) : (w.setRegions (.stream s) rs).streamLoad +
      (w.regions (.stream s)).map.length = w.streamLoad + rs.map.length :=
  sum_update h.nodup_streams (mem_map_of_mem hs) w.regions rs fun rs => rs.map.length

theorem Inv.streamLoad_openStream (h : Inv w transit) (s : Stream) :
    (w.openStream s).streamLoad = w.streamLoad := by
  unfold State.openStream
  split
  · rfl
  · next hs =>
    have hperm := (w.driver.order_perm (s :: w.streams)).map Place.stream
    have habsent : w.regions (.stream s) = {} := h.absent _ (by simp [State.places, hs])
    rw [State.streamLoad, (hperm.map _).sum_eq]
    simp [State.streamLoad, habsent]

theorem insertSpan_length_le (map : List Region) (span : Span) (events : List EventRegion) :
    (insertSpan map span events).length ≤ map.length + 1 := by
  have hbefore : (keptBefore map span).length ≤ (before map span).length := by
    unfold keptBefore
    split
    · simp
    · exact le_rfl
  have hafter : (keptAfter map span).length ≤ (after map span).length := by
    unfold keptAfter
    split
    · simp
    · exact le_rfl
  have hlen := congrArg length (show before map span ++ after map span = map from
    before_append_after)
  rw [length_append] at hlen
  rw [insertSpan, length_append, length_cons]
  omega

end Load

end CudaAllocator
