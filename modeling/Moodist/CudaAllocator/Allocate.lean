import Moodist.CudaAllocator.Edits

/-!
# The loops of `allocate`

`allocate` takes bytes from a region it finds, or moves regions of the streams and starts again, or
asks for new memory. Each time it starts again the streams have fewer regions.
-/

namespace CudaAllocator

open Foundation List State

/-! ## Giving back -/

section Drain

variable {w : State} {hand : List (Span × List Stream)} {I : State → Prop}

theorem openStream_regions (w : State) (s : Stream) : (w.openStream s).regions = w.regions := by
  unfold openStream
  split <;> rfl

theorem openStream_queue (w : State) (s : Stream) :
    (w.openStream s).pendingDeallocations = w.pendingDeallocations := by
  unfold openStream
  split <;> rfl

theorem deallocate_spec {span : Span} {users : List Stream} {allowErrors : Bool}
    (h : Good ⟨w, (span, users) :: hand⟩) :
    wp (deallocate allowErrors span users)
      (fun _ w' => Edits ⟨w, (span, users) :: hand⟩ ⟨w', hand⟩ ∧
        w'.regions .free = w.regions .free ∧
        (allowErrors = true → w'.pendingDeallocations = w.pendingDeallocations) ∧
        w'.streamLoad + w'.pendingDeallocations.length ≤
          w.streamLoad + w.pendingDeallocations.length + 1)
      (Ends w.driver I) w := by
  obtain ⟨hinv, hspan, husers, -⟩ := h.tail
  obtain ⟨own, users, rfl⟩ := exists_cons_of_ne_nil husers
  obtain ⟨d, ops, hd, ⟨evs, hevs, hall, heq⟩ | ⟨-, hfail, heq⟩ | ⟨keys, hne, hkeys, hallow, heq⟩⟩ :=
    deallocate_cases allowErrors span own users w
  · rw [wp_ok heq]
    have hedit : Edit ⟨w, (span, own :: users) :: hand⟩
        ⟨((w.withDriver d).openStream own).giveBack own span evs, hand⟩ :=
      .giveBack d ops hd hevs hall
    have hopen := (hinv.withDriver d).openStream own
    have hload := hopen.streamLoad_setRegions (mem_openStream (w.withDriver d) own)
      (((w.withDriver d).openStream own).regions (.stream own) |>.insertRegion span evs)
    have hlen := insertSpan_length_le (((w.withDriver d).openStream own).regions (.stream own)).map
      span evs
    have hsame := (hinv.withDriver d).streamLoad_openStream own
    have hdriver : (w.withDriver d).streamLoad = w.streamLoad := rfl
    have hqueue := openStream_queue (w.withDriver d) own
    have hqueue' : (((w.withDriver d).openStream own).giveBack own span evs).pendingDeallocations =
        w.pendingDeallocations := hqueue
    refine ⟨.single hedit, ?_, fun _ => hqueue', ?_⟩
    · rw [giveBack, setRegions_ne _ _ (by simp), openStream_regions]
      rfl
    · rw [hqueue']
      simp only [giveBack, Regions.insertRegion] at *
      omega
  · rw [wp_error heq]
    exact hfail
  · rw [wp_ok heq]
    have hdriver : Edit ⟨w, (span, own :: users) :: hand⟩
        ⟨w.withDriver d, (span, own :: users) :: hand⟩ := .driver d ops hd
    refine ⟨.tail (.single hdriver) (.enqueue hne hkeys), rfl, fun h' => ?_, ?_⟩
    · rw [h'] at hallow
      cases hallow
    · show w.streamLoad + (w.pendingDeallocations ++ [(span, keys)]).length ≤ _
      rw [length_append]
      exact le_rfl

/-- All queued spans are given back. -/
theorem drainDeallocations_spec (h : Good ⟨w, []⟩) :
    wp drainDeallocations
      (fun _ w' => Edits ⟨w, []⟩ ⟨w', []⟩ ∧ w'.regions .free = w.regions .free ∧
        w'.pendingDeallocations = [] ∧
        w'.streamLoad ≤ w.streamLoad + w.pendingDeallocations.length)
      (Ends w.driver I) w := by
  have hstart : drainDeallocations w =
      (w.pendingDeallocations.forM fun v => deallocate true v.1 v.2)
        { w with pendingDeallocations := [] } := rfl
  have hwp : ∀ Q : Unit → State → Prop, wp drainDeallocations Q (Ends w.driver I) w ↔
      wp (w.pendingDeallocations.forM fun v => deallocate true v.1 v.2) Q (Ends w.driver I)
        { w with pendingDeallocations := [] } := by
    intro Q
    rw [wp, wp, hstart]
  rw [hwp]
  refine (wp_forM
    (I := fun todo w' => Edits ⟨w, []⟩ ⟨w', todo⟩ ∧ w'.regions .free = w.regions .free ∧
      w'.pendingDeallocations = [] ∧
      w'.streamLoad + todo.length ≤ w.streamLoad + w.pendingDeallocations.length) ?_ _ _ ?_).mono
      (fun _ w' hw' => hw') fun _ _ he => he
  · rintro ⟨span, users⟩ todo w' ⟨hedits, hfree, hqueue, hload⟩
    refine (deallocate_spec (hedits.good h)).mono (fun _ w'' hw'' => ?_)
      fun _ _ => Ends.mono hedits.reliable fun _ => id
    obtain ⟨hedits', hfree', hqueue', hload'⟩ := hw''
    have hnil := (hqueue' rfl).trans hqueue
    refine ⟨hedits.trans hedits', hfree'.trans hfree, hnil, ?_⟩
    rw [hnil, hqueue, length_nil] at hload'
    rw [length_cons] at hload
    omega
  · exact ⟨.single .unqueue, rfl, rfl, le_rfl⟩

end Drain

/-! ## Moving regions of the streams -/

section Move

def State.moveAll (w : State) (moved : List (Stream × Region)) : State :=
  moved.foldl (fun w v => w.moveRegion v.1 v.2) w

def bytesOf (moved : List (Stream × Region)) : ℕ := (moved.map fun v => v.2.span.bytes).sum

theorem bytesOf_cons (v : Stream × Region) (l : List (Stream × Region)) :
    bytesOf (v :: l) = v.2.span.bytes + bytesOf l := rfl

/-- A batch: the first regions that have the bytes asked for together. -/
structure IsBatch (reqbytes : ℕ) (moved : List (Stream × Region)) : Prop where
  ne_nil : moved ≠ []
  enough : reqbytes ≤ bytesOf moved
  first : bytesOf moved.dropLast < reqbytes

theorem freeStreamLoop_cases (todo : List (Stream × Region)) {reqbytes : ℕ} (hpos : 0 < reqbytes)
    (w : State) :
    (∃ moved rest, todo = moved ++ rest ∧ IsBatch reqbytes moved ∧
      freeStreamLoop todo reqbytes w = (true, w.moveAll moved)) ∨
    (bytesOf todo < reqbytes ∧ freeStreamLoop todo reqbytes w = (false, w.moveAll todo)) := by
  induction todo generalizing reqbytes w with
  | nil => exact .inr ⟨hpos, rfl⟩
  | cons v todo ih =>
    obtain ⟨s, r⟩ := v
    by_cases hn : r.span.bytes ≥ reqbytes
    · left
      refine ⟨[(s, r)], todo, rfl, ⟨by simp, hn, hpos⟩, ?_⟩
      simp only [freeStreamLoop, if_pos hn]
      rfl
    · have hstep : freeStreamLoop ((s, r) :: todo) reqbytes w =
          freeStreamLoop todo (reqbytes - r.span.bytes) (w.moveRegion s r) := by
        simp only [freeStreamLoop, if_neg hn]
      have hleft : 0 < reqbytes - r.span.bytes := by omega
      rcases ih hleft (w.moveRegion s r) with ⟨moved, rest, rfl, hbatch, heq⟩ | ⟨hlt, heq⟩
      · refine .inl ⟨(s, r) :: moved, rest, rfl, ⟨by simp, ?_, ?_⟩, hstep.trans heq⟩
        · have := hbatch.enough
          rw [bytesOf_cons]
          show _ ≤ r.span.bytes + _
          omega
        · have := hbatch.first
          rw [dropLast_cons_of_ne_nil hbatch.ne_nil, bytesOf_cons]
          show r.span.bytes + _ < _
          omega
      · refine .inr ⟨?_, hstep.trans heq⟩
        rw [bytesOf_cons]
        show r.span.bytes + _ < _
        omega

variable {s : Stream} {r : Region} {rest : List (Stream × Region)}

/-- The first element of the lists of all streams is taken away. -/
theorem flatMap_tail {f f' : Stream → List (Stream × Region)} {l : List Stream} (hl : l.Nodup)
    (hf : ∀ s, ∀ v ∈ f s, v.1 = s) (h : l.flatMap f = (s, r) :: rest)
    (hs : ∀ t, f s = (s, r) :: t → f' s = t) (hne : ∀ t, t ≠ s → f' t = f t) :
    l.flatMap f' = rest := by
  induction l with
  | nil => cases h
  | cons a l ih =>
    obtain ⟨ha, hl⟩ := nodup_cons.mp hl
    rw [flatMap_cons] at h ⊢
    cases hfa : f a with
    | nil =>
      have has : a ≠ s := by
        rintro rfl
        rw [hfa, nil_append] at h
        obtain ⟨b, hb, hmem⟩ := mem_flatMap.mp (h ▸ mem_cons_self : (a, r) ∈ l.flatMap f)
        obtain rfl : a = b := hf b _ hmem
        exact ha hb
      rw [hfa, nil_append] at h
      rw [hne a has, hfa, nil_append]
      exact ih hl h
    | cons y t =>
      rw [hfa, cons_append] at h
      obtain ⟨rfl, rfl⟩ := List.cons.inj h
      obtain rfl : s = a := hf a (s, r) (hfa ▸ mem_cons_self)
      rw [hs t hfa]
      congr 1
      refine flatMap_congr fun b hb => hne b ?_
      rintro rfl
      exact ha hb

variable {w : State} {hand : List (Span × List Stream)} {transit : ℕ → ℕ}

theorem Inv.streams_nodup (h : Inv w transit) : w.streams.Nodup := h.nodup_streams.of_map _

theorem streamLoad_eq (w : State) : w.streamLoad = w.streamRegions.length := by
  rw [streamLoad, streamRegions, length_flatMap, map_map]
  congr 1
  refine map_congr_left fun s _ => ?_
  simp

theorem mem_streamRegions :
    (s, r) ∈ w.streamRegions ↔ s ∈ w.streams ∧ r ∈ (w.regions (.stream s)).map := by
  simp only [streamRegions, mem_flatMap, mem_map, Prod.mk.injEq]
  constructor
  · rintro ⟨t, ht, x, hx, rfl, rfl⟩
    exact ⟨ht, hx⟩
  · rintro ⟨hs, hr⟩
    exact ⟨s, hs, r, hr, rfl, rfl⟩

/-- The region that is visited first is moved. -/
theorem Inv.streamRegions_move (h : Inv w transit) (heq : w.streamRegions = (s, r) :: rest) :
    (w.moveRegion s r).streamRegions = rest := by
  refine flatMap_tail h.streams_nodup ?_ heq (fun t ht => ?_) fun t ht => ?_
  · intro t v hv
    obtain ⟨x, -, rfl⟩ := mem_map.mp hv
    rfl
  · cases hmap : (w.regions (.stream s)).map with
    | nil =>
      rw [hmap] at ht
      cases ht
    | cons x l =>
      rw [hmap, map_cons] at ht
      obtain ⟨hx, rfl⟩ := List.cons.inj ht
      obtain rfl : x = r := congrArg Prod.snd hx
      have hok := h.ok (.stream s)
      have hfilter := filter_start_ne (l := []) (hmap ▸ hok.region) (hmap ▸ hok.apart)
      have hregions : ((w.moveRegion s x).regions (.stream s)).map = l := by
        rw [moveRegion, setRegions_ne _ _ (by simp), setRegions_self, Regions.remove, hmap]
        exact hfilter
      rw [hregions]
  · have hregions : (w.moveRegion s r).regions (.stream t) = w.regions (.stream t) := by
      rw [moveRegion, setRegions_ne _ _ (by simp), setRegions_ne _ _ (by simpa using ht)]
    rw [hregions]

/-- The regions in `moved` have been moved from the streams, which are left with `rest`. -/
structure AfterMove (w : State) (moved rest : List (Stream × Region)) (w' : State) : Prop where
  streamRegions : w'.streamRegions = rest
  streams : w'.streams = w.streams
  queue : w'.pendingDeallocations = w.pendingDeallocations
  count : ∀ b, (w'.regions .free).count b =
    (w.regions .free).count b + (moved.map fun v => v.2.span.ind b).sum

theorem moveAll_spec {moved : List (Stream × Region)} (h : Good ⟨w, hand⟩)
    (heq : w.streamRegions = moved ++ rest) :
    Edits ⟨w, hand⟩ ⟨w.moveAll moved, hand⟩ ∧ AfterMove w moved rest (w.moveAll moved) := by
  induction moved generalizing w with
  | nil => exact ⟨.refl, heq, rfl, rfl, fun b => rfl⟩
  | cons v moved ih =>
    obtain ⟨s, r⟩ := v
    obtain ⟨hs, hr⟩ := mem_streamRegions.1 (heq ▸ mem_cons_self : (s, r) ∈ w.streamRegions)
    have hedit : Edit ⟨w, hand⟩ ⟨w.moveRegion s r, hand⟩ := .move hs hr
    have hmove := h.inv.streamRegions_move heq
    obtain ⟨hedits, hafter⟩ := ih (hedit.good h) hmove
    refine ⟨.head hedit hedits, hafter.streamRegions, hafter.streams, hafter.queue, fun b => ?_⟩
    have hrok := (h.inv.ok (.stream s)).region r hr
    have hremove := h.inv.remove (stream_mem_places hs) (fun hp => hp) hr
    have hfree : ((w.moveRegion s r).regions .free).count b =
        (w.regions .free).count b + r.span.ind b := by
      have hfresh := hremove.fresh hrok.lt .free
      have hok := hremove.ok .free
      rw [moveRegion, setRegions_self]
      rw [Regions.count_insertRegion hok hrok.lt hfresh hrok.events b, setRegions_ne _ _ (by simp)]
    show ((w.moveRegion s r).moveAll moved |>.regions .free).count b = _
    rw [hafter.count b, hfree, map_cons, sum_cons, add_assoc]

end Move

/-! ## New memory -/

section Map

variable {minbytes : ℕ} {tryAlloc : ℕ → ℕ → Option ℕ} {result : ℕ × ℕ}

/-- Whatever the driver grants is large enough. -/
theorem memAllocLoop_spec {fuel call bytes : ℕ}
    (h : memAllocLoop minbytes tryAlloc fuel call bytes = some result) :
    minbytes ≤ result.2 ∧ ∃ call', tryAlloc call' result.2 = some result.1 := by
  induction fuel generalizing call bytes with
  | zero => cases h
  | succ fuel ih =>
    rw [memAllocLoop] at h
    generalize hnext : (if bytes > minbytes + mebi then bytes - mebi else minbytes) = next at h
    cases hcall : tryAlloc call next with
    | some addr =>
      rw [hcall] at h
      cases h
      refine ⟨?_, call, hcall⟩
      show minbytes ≤ next
      split at hnext <;> omega
    | none =>
      rw [hcall] at h
      simp only at h
      split at h
      · cases h
      · exact ih h

/-- More attempts than bytes are not needed. -/
theorem memAllocLoop_fuel {fuel fuel' call bytes : ℕ} (h : bytes < fuel) (h' : bytes < fuel') :
    memAllocLoop minbytes tryAlloc fuel call bytes =
      memAllocLoop minbytes tryAlloc fuel' call bytes := by
  induction fuel generalizing fuel' call bytes with
  | zero => omega
  | succ fuel ih =>
    obtain ⟨fuel', rfl⟩ := Nat.exists_eq_succ_of_ne_zero (by omega : fuel' ≠ 0)
    rw [memAllocLoop, memAllocLoop]
    generalize hnext : (if bytes > minbytes + mebi then bytes - mebi else minbytes) = next
    cases tryAlloc call next with
    | some addr => rfl
    | none =>
      simp only
      split
      · rfl
      · next hgt =>
        -- the loop goes on only after a whole mebibyte less
        have hlt : next < bytes := by
          have : 0 < mebi := by decide
          split at hnext <;> omega
        exact ih (by omega) (by omega)

variable {w : State} {hand : List (Span × List Stream)}

theorem exists_region_insert {rs : Regions} (h : rs.Ok) {span : Span}
    (hspan : span.start < span.stop) (hfresh : Fresh rs.map span) (events : List EventRegion) :
    ∃ r ∈ (rs.insertRegion span events).map, span.bytes ≤ r.span.bytes := by
  refine ⟨joined rs.map span events, by simp [Regions.insertRegion, insertSpan], ?_⟩
  have hind := joined_ind h.region h.apart hspan hfresh events
  have hfirst := hind span.start
  have hlast := hind (span.stop - 1)
  rw [Span.ind_eq, Span.ind_eq] at hfirst hlast
  rw [Span.bytes, Span.bytes]
  split_ifs at hfirst hlast <;> omega

theorem grant_spec {d : Driver} {mapped : List Span} {bytes : ℕ}
    (hle : minbytes ≤ bytes) (h : d.grant mapped minbytes bytes = some result) :
    minbytes ≤ result.2 ∧
      ∀ s ∈ mapped, result.1 + result.2 ≤ s.start ∨ s.stop ≤ result.1 := by
  cases hcall : d.memAlloc d.calls mapped bytes with
  | some addr =>
    simp only [Driver.grant, hcall] at h
    cases h
    exact ⟨hle, (d.memAlloc_fresh _ _ _ _ hcall).2⟩
  | none =>
    simp only [Driver.grant, hcall] at h
    obtain ⟨hmin, call, hcall'⟩ := memAllocLoop_spec h
    exact ⟨hmin, (d.memAlloc_fresh _ _ _ _ hcall').2⟩

def State.hasRegion (w : State) (p : Place) (bytes : ℕ) : Prop :=
  ∃ r ∈ (w.regions p).map, bytes ≤ r.span.bytes

/-- `mapMoreMemory` adds a region that is large enough, or nothing. -/
theorem mapMoreMemory_cases {w : State} {hand : List (Span × List Stream)} (h : Good ⟨w, hand⟩)
    (hpos : 0 < minbytes) (stream : Stream) :
    mapMoreMemory minbytes stream w = .ok false w ∨
    (∃ w', mapMoreMemory minbytes stream w = .error .cuda w' ∧ ¬ w.driver.Reliable) ∨
    ∃ w', mapMoreMemory minbytes stream w = .ok true w' ∧ Edit ⟨w, hand⟩ ⟨w', hand⟩ ∧
      w'.hasRegion .free minbytes := by
  rw [mapMoreMemory, get_bind]
  set bytes := mapBytes minbytes (w.driver.memFree w.driver.calls) w.mapped.isEmpty with hbytes
  by_cases hlt : bytes < minbytes
  · left
    simp only [if_pos hlt]
    rfl
  · simp only [if_neg hlt]
    cases hgrant : w.driver.grant w.mapped minbytes bytes with
    | none =>
      left
      rfl
    | some result =>
      right
      obtain ⟨addr, granted⟩ := result
      obtain ⟨hle, hfresh⟩ := grant_spec (not_lt.mp hlt) hgrant
      set span : Span := ⟨addr, addr + granted⟩ with hspan
      set w₁ : State := { w with
        mapped := addSpan w.mapped span
        driver := { w.driver with calls := w.driver.calls + granted + 3 } } with hw₁
      have hbytes' : minbytes ≤ span.bytes := by
        rw [hspan, Span.bytes]
        simp only
        omega
      have hlt' : span.start < span.stop := by
        rw [Span.bytes] at hbytes'
        omega
      simp only
      rw [set_bind]
      rcases eventCall_cases (.record stream) w₁ with ⟨d, hd, hcall⟩ | ⟨d, hd, hfail, hcall⟩
      · let e : EventRegion := ⟨span, w₁.driver.log.length, stream⟩
        refine .inr ⟨w.addMemory d span e, by rw [bind_ok hcall]; rfl, ?_, ?_⟩
        · refine .addMemory d [.record stream] ⟨hd.log, hd.eventOk⟩ hlt' rfl ?_ hfresh
          rw [hd.log]
          simp [e]
        · -- the new memory is one region, or a part of one
          have hnew := (h.inv.addSpan hlt' hfresh d).fresh hlt' .free
          obtain ⟨r, hr, hler⟩ := exists_region_insert (h.inv.ok .free) hlt' hnew [e]
          refine ⟨r, ?_, hbytes'.trans hler⟩
          rw [addMemory, setRegions_self]
          exact hr
      · exact .inl ⟨_, by rw [bind_ok hcall]; rfl, hfail⟩

end Map

/-! ## One pass -/

section Search

variable {w : State} {hand : List (Span × List Stream)} {bytes : ℕ} {stream : Stream} {p : Place}

/-- The bytes are taken from a map that has them, if the driver makes the stream wait. -/
theorem allocateFrom_edits (h : Good ⟨w, hand⟩) (hp : p ∈ w.places) (hpend : ¬ p.IsPending)
    (hpos : 0 < bytes) (stream : Stream) :
    (¬ w.hasRegion p bytes ∧ allocateFrom p bytes stream w = .ok none w) ∨
    (w.hasRegion p bytes ∧
      ((∃ w', allocateFrom p bytes stream w = .error .cuda w' ∧ ¬ w.driver.Reliable) ∨
      ∃ ptr w', allocateFrom p bytes stream w = .ok (some ptr) w' ∧ w'.streams = w.streams ∧
        w'.nextStream = w.nextStream ∧
        Edits ⟨w, hand⟩ ⟨w', (⟨ptr, ptr + bytes⟩, [stream]) :: hand⟩)) := by
  rcases allocateFrom_cases (h.inv.ok p) bytes stream with
    ⟨hsmall, heq⟩ | ⟨r, hr, hle, herr | ⟨d, ops, hd, hwait, heq⟩⟩
  · refine .inl ⟨?_, heq⟩
    rintro ⟨r, hr, hle⟩
    exact absurd (hsmall r hr) (not_lt.mpr hle)
  · exact .inr ⟨⟨r, hr, hle⟩, .inl herr⟩
  · refine .inr ⟨⟨r, hr, hle⟩, .inr ⟨_, _, heq, rfl, rfl, ?_⟩⟩
    exact .single (.take d ops hd hp hpend hr hle hpos hwait)

/-- The maps of the streams are asked in turn. -/
theorem tryStreams_cases (hpos : 0 < bytes) (n : ℕ) :
    ∀ {w : State}, Good ⟨w, hand⟩ → (n ≠ 0 → w.streams ≠ []) →
    (∃ k, (w.streams ≠ [] → k < w.streams.length) ∧
      tryStreams bytes stream n w = .ok none { w with nextStream := k }) ∨
    ((∃ s ∈ w.streams, w.hasRegion (.stream s) bytes) ∧
      ((∃ w', tryStreams bytes stream n w = .error .cuda w' ∧ ¬ w.driver.Reliable) ∨
        ∃ ptr w', tryStreams bytes stream n w = .ok (some ptr) w' ∧
          Edits ⟨w, hand⟩ ⟨w', (⟨ptr, ptr + bytes⟩, [stream]) :: hand⟩)) := by
  induction n with
  | zero =>
    intro w h _
    exact .inl ⟨w.nextStream, h.inv.next, rfl⟩
  | succ n ih =>
    intro w h hne
    have hnil : w.streams ≠ [] := hne (Nat.succ_ne_zero n)
    have hnext : w.nextStream < w.streams.length := h.inv.next hnil
    obtain ⟨s, hget⟩ : ∃ s, w.streams[w.nextStream]? = some s := ⟨_, List.getElem?_eq_getElem hnext⟩
    have hs : s ∈ w.streams := mem_of_getElem? hget
    set k := if w.nextStream + 1 = w.streams.length then 0 else w.nextStream + 1 with hk
    have hklt : w.streams ≠ [] → k < w.streams.length := by
      intro _
      rw [hk]
      split <;> omega
    rw [tryStreams, get_bind]
    simp only [hget]
    rcases allocateFrom_edits h (stream_mem_places hs) (fun hp => hp) hpos stream with
      ⟨-, heq⟩ | ⟨hhas, ⟨w', heq, hfail⟩ | ⟨ptr, w', heq, hstreams, hnext', hedits⟩⟩
    · rw [bind_ok heq, modify_bind]
      have hedit : Edit ⟨w, hand⟩ ⟨{ w with nextStream := k }, hand⟩ := .next k hklt
      rcases ih (hedit.good h) fun _ => hnil with ⟨k', hk', heq'⟩ | ⟨hhas, herr | hok⟩
      · exact .inl ⟨k', hk', heq'⟩
      · exact .inr ⟨hhas, .inl herr⟩
      · obtain ⟨ptr, w', heq', hedits⟩ := hok
        exact .inr ⟨hhas, .inr ⟨ptr, w', heq', .head hedit hedits⟩⟩
    · exact .inr ⟨⟨s, hs, hhas⟩, .inl ⟨w', bind_error heq, hfail⟩⟩
    · refine .inr ⟨⟨s, hs, hhas⟩, .inr ⟨ptr, _, by rw [bind_ok heq, modify_bind]; rfl, ?_⟩⟩
      refine hedits.tail (.next _ fun _ => ?_)
      rw [hstreams, hnext']
      exact hklt hnil

theorem Inv.isMapped_of_mem {transit : ℕ → ℕ} (h : Inv w transit) (hp : p ∈ w.places) {r : Region}
    (hr : r ∈ (w.regions p).map) {b : ℕ} (hb : r.span.has b = true) :
    ∃ v ∈ w.mapped, v.has b = true := by
  have hcount : 0 < (w.regions p).count b := countP_pos_iff.mpr ⟨r, hr, hb⟩
  have hle : (w.regions p).count b ≤ w.inRegions b :=
    single_le_sum (by simp) _ (mem_map.mpr ⟨p, hp, rfl⟩)
  have hbytes := h.bytes b
  by_contra hnone
  have hmapped : w.isMapped b = false := by
    rw [isMapped, any_eq_false]
    exact fun v hv hvb => hnone ⟨v, hv, hvb⟩
  rw [hmapped, if_neg Bool.false_ne_true, held] at hbytes
  omega

variable (h : Good ⟨w, hand⟩)

include h

theorem Good.freeInside : w.freeInside = true := by
  refine all_eq_true.mpr fun v hv => decide_eq_true ?_
  cases hlast : ((w.regions .free).map.filter fun x =>
      decide (v.start ≤ x.span.start) && decide (x.span.start < v.stop)).getLast? with
  | none => exact (h.inv.mapped_lt v hv).le
  | some x =>
    show x.span.stop ≤ v.stop
    obtain ⟨hx, hin⟩ := mem_filter.mp (mem_of_getLast? hlast)
    rw [Bool.and_eq_true, decide_eq_true_eq, decide_eq_true_eq] at hin
    by_contra hgt
    -- the byte behind the span would be mapped by a span that does not touch it
    have hb : x.span.has v.stop = true := Span.has_iff.mpr (by omega)
    obtain ⟨v', hv', hb'⟩ := h.inv.isMapped_of_mem free_mem_places hx hb
    rw [Span.has_iff] at hb'
    have happart := Apart.cases h.inv.mapped (mem_map_of_mem hv) (mem_map_of_mem hv')
    simp only [Region.mk.injEq, and_true] at happart
    rcases happart with rfl | happart | happart
    · omega
    · omega
    · omega

theorem debugFreeMemory_ok : debugFreeMemory w = .ok () w := by
  rw [debugFreeMemory, get_bind, if_pos h.freeInside]
  rfl

theorem logFreeMemory_ok : logFreeMemory w = .ok () w := by
  rw [logFreeMemory, get_bind]
  split
  · exact debugFreeMemory_ok h
  · rfl

omit h

theorem movePending_nil {w : State} {rs : Regions} (h : w.regions p = rs) :
    w.movePending p [] rs = w := by
  have hsame : (w.regions .free).insertAll [] = w.regions .free := rfl
  rw [movePending, setRegions_eq_self h, hsame, setRegions_eq_self rfl]

include h

theorem freePending_ok (hp : p.IsPending) : freePending p w = .ok false w := by
  have hnone : w.regions p = {} := h.inv.noPending p hp
  have hmap : (w.regions p).map = [] := by rw [hnone]
  rw [freePending, get_bind, set_bind, hmap, movePending_nil hnone]
  rfl

theorem freeSomePending_ok (hp : p.IsPending) :
    freeSomePending p w = .ok false w.called := by
  have hnone : w.regions p = {} := h.inv.noPending p hp
  have hready : (w.regions p).map.filter w.driver.isReady = [] := by rw [hnone]; rfl
  rw [freeSomePending, get_bind]
  simp only [hready, foldl_nil]
  rw [set_bind, movePending_nil rfl]
  rfl

omit h

theorem Edit.called {w : State} (hand : List (Span × List Stream)) :
    Edit ⟨w, hand⟩ ⟨w.called, hand⟩ :=
  .driver { w.driver with calls := w.driver.calls + 1 } [] ⟨(append_nil _).symm, rfl⟩

theorem mapM_freePending (h : Good ⟨w, hand⟩) (l : List Stream) :
    ∃ moved : List Bool, (l.mapM fun s => freePending (.streamPending s)) w = .ok moved w ∧
      moved.any id = false := by
  induction l with
  | nil => exact ⟨[], rfl, rfl⟩
  | cons s l ih =>
    obtain ⟨moved, heq, hany⟩ := ih
    refine ⟨false :: moved, ?_, hany⟩
    rw [mapM_cons, bind_ok (freePending_ok h (show (Place.streamPending s).IsPending from trivial)),
      bind_ok heq]
    rfl

/-- The states have the same memory in the same places. -/
structure State.Like (w w' : State) : Prop where
  regions : w'.regions = w.regions
  streams : w'.streams = w.streams
  queue : w'.pendingDeallocations = w.pendingDeallocations
  mapped : w'.mapped = w.mapped

theorem State.Like.refl (w : State) : w.Like w := ⟨rfl, rfl, rfl, rfl⟩

theorem State.Like.trans {w w' w'' : State} (h : w.Like w') (h' : w'.Like w'') : w.Like w'' :=
  ⟨h'.regions.trans h.regions, h'.streams.trans h.streams, h'.queue.trans h.queue,
    h'.mapped.trans h.mapped⟩

theorem State.Like.streamRegions {w w' : State} (h : w.Like w') :
    w'.streamRegions = w.streamRegions := by
  rw [State.streamRegions, State.streamRegions, h.streams, h.regions]

theorem State.Like.hasRegion {w w' : State} (h : w.Like w') (p : Place) (bytes : ℕ) :
    w'.hasRegion p bytes ↔ w.hasRegion p bytes := by
  rw [State.hasRegion, State.hasRegion, h.regions]

theorem openPending_like (w : State) (s : Stream) : w.Like (w.openPending s) := by
  unfold openPending
  split
  · exact .refl w
  · exact ⟨rfl, rfl, rfl, rfl⟩

theorem called_like (w : State) : w.Like w.called := ⟨rfl, rfl, rfl, rfl⟩

/-- How a pass of `allocate` ends that has found nothing in `w`: a batch is moved, or all that is
left. -/
inductive Moves (bytes : ℕ) (w : State) : Outcome → State → Prop
  | batch {w'} {moved rest : List (Stream × Region)} (heq : w.streamRegions = moved ++ rest)
      (hbatch : IsBatch bytes moved) (hafter : AfterMove w moved rest w') : Moves bytes w .retry w'
  | all {w'} (hlt : bytesOf w.streamRegions < bytes) (hafter : AfterMove w w.streamRegions [] w') :
      Moves bytes w .exhausted w'

/-- How a pass of `allocate` ends that finds a region: it takes bytes from it, or the driver
fails. -/
inductive Finds (c : Config) (bytes : ℕ) (stream : Stream) :
    EStateM.Result Error State Outcome → Prop
  | fail {w'} (h : ¬ c.state.driver.Reliable) : Finds c bytes stream (.error .cuda w')
  | found {ptr w'} (h : Edits c ⟨w', (⟨ptr, ptr + bytes⟩, [stream]) :: c.hand⟩) :
      Finds c bytes stream (.ok (.found ptr) w')

theorem AfterMove.of_like {w₁ w₂ w' : State} {moved rest : List (Stream × Region)}
    (hlike : w₁.Like w₂) (h : AfterMove w₂ moved rest w') : AfterMove w₁ moved rest w' :=
  ⟨h.streamRegions, h.streams.trans hlike.streams, h.queue.trans hlike.queue,
    fun b => hlike.regions ▸ h.count b⟩

theorem Moves.of_like {w₁ w₂ w' : State} {out : Outcome} (hlike : w₁.Like w₂)
    (h : Moves bytes w₂ out w') : Moves bytes w₁ out w' := by
  cases h with
  | batch heq hbatch hafter =>
    exact .batch (hlike.streamRegions ▸ heq) hbatch (hafter.of_like hlike)
  | all hlt hafter =>
    rw [hlike.streamRegions] at hlt hafter
    exact .all hlt (hafter.of_like hlike)

theorem Finds.head {c c' : Config} {res : EStateM.Result Error State Outcome} (h : Edits c c')
    (hhand : c'.hand = c.hand) (hfinds : Finds c' bytes stream res) : Finds c bytes stream res := by
  cases hfinds with
  | fail hfail => exact .fail (h.reliable.not.mp hfail)
  | found hedits => exact .found (h.trans (hhand ▸ hedits))

include h

theorem searchStreams_cases (hpos : 0 < bytes) (stream : Stream) :
    (∃ out w', searchStreams bytes stream w = .ok out w' ∧ Moves bytes w out w' ∧
      Edits ⟨w, hand⟩ ⟨w', hand⟩) ∨
    ((∃ s ∈ w.streams, w.hasRegion (.stream s) bytes) ∧
      Finds ⟨w, hand⟩ bytes stream (searchStreams bytes stream w)) := by
  rw [searchStreams, bind_ok (logFreeMemory_ok h), get_bind]
  have hne : w.streams.length ≠ 0 → w.streams ≠ [] := by
    rintro hlen hnil
    exact hlen (by rw [hnil]; rfl)
  rcases tryStreams_cases hpos w.streams.length h hne with
    ⟨k, hk, heq⟩ | ⟨hhas, ⟨w', heq, hfail⟩ | ⟨ptr, w', heq, hedits⟩⟩
  · left
    set w' : State := { w with nextStream := k } with hw'
    have hlike : w.Like w' := ⟨rfl, rfl, rfl, rfl⟩
    have hedit : Edit ⟨w, hand⟩ ⟨w', hand⟩ := .next k hk
    have hgood := hedit.good h
    rw [bind_ok heq]
    have hfree : freeStreamMemory bytes w' = .ok (freeStreamLoop w'.streamRegions bytes w').1
        (freeStreamLoop w'.streamRegions bytes w').2 := rfl
    simp only
    rw [bind_ok hfree]
    rcases freeStreamLoop_cases w'.streamRegions hpos w' with
      ⟨moved, rest, hsplit, hbatch, hloop⟩ | ⟨hlt, hloop⟩
    · rw [hloop]
      obtain ⟨hedits, hafter⟩ := moveAll_spec hgood hsplit
      exact ⟨.retry, w'.moveAll moved, rfl, .of_like hlike (.batch hsplit hbatch hafter),
        .head hedit hedits⟩
    · obtain ⟨hedits, hafter⟩ := moveAll_spec hgood (append_nil w'.streamRegions).symm
      obtain ⟨moved, hmapM, hany⟩ := mapM_freePending (hedits.good hgood)
        (w'.moveAll w'.streamRegions).pendingStreams
      refine ⟨.exhausted, w'.moveAll w'.streamRegions, ?_, .of_like hlike (.all hlt hafter),
        .head hedit hedits⟩
      rw [hloop]
      simp only [Bool.false_eq_true, if_false]
      rw [get_bind, bind_ok hmapM, hany]
      rfl
  · rw [bind_error heq]
    exact .inr ⟨hhas, .fail hfail⟩
  · rw [bind_ok heq]
    exact .inr ⟨hhas, .found hedits⟩

/-- A pass of `allocate` finds a region that is large enough, or moves regions of the streams. -/
theorem searchAll_cases (hpos : 0 < bytes) (stream : Stream) :
    (¬ w.hasRegion .free bytes ∧ ¬ w.hasRegion (.stream stream) bytes ∧
      ∃ out w', searchAll bytes stream w = .ok out w' ∧
        Moves bytes (w.openStream stream) out w' ∧ Edits ⟨w, hand⟩ ⟨w', hand⟩) ∨
    ((w.hasRegion .free bytes ∨
        ∃ s ∈ (w.openStream stream).streams, w.hasRegion (.stream s) bytes) ∧
      Finds ⟨w, hand⟩ bytes stream (searchAll bytes stream w)) := by
  have hregions := openStream_regions w stream
  have hhas : ∀ p, (w.openStream stream).hasRegion p bytes ↔ w.hasRegion p bytes := by
    intro p
    rw [hasRegion, hregions, hasRegion]
  have hopen : Edit ⟨w, hand⟩ ⟨w.openStream stream, hand⟩ := .openStream stream
  have hgood := hopen.good h
  have hmem := mem_openStream w stream
  rw [searchAll, getStreamFree, modify_bind]
  rcases allocateFrom_edits hgood (stream_mem_places hmem) (fun hp => hp) hpos stream with
    ⟨hown, heq⟩ | ⟨hown, hfound⟩
  · rw [bind_ok heq]
    simp only
    rw [getStreamPendingFree, modify_bind]
    -- none of the steps in between changes what is free, as nothing is pending
    set w₀ := w.openStream stream with hw₀
    have hpend : Place.IsPending (.streamPending stream) := trivial
    have hedits₁ : Edits ⟨w, hand⟩ ⟨(w₀.openPending stream).called, hand⟩ :=
      .head hopen (.head (.openPending stream) (.single (.called hand)))
    have hlike₁ : w₀.Like (w₀.openPending stream).called :=
      (openPending_like w₀ stream).trans (called_like _)
    have hgood₁ := hedits₁.good h
    rw [bind_ok (freeSomePending_ok ((Edit.openPending stream).good hgood) hpend)]
    simp only [Bool.false_eq_true, if_false]
    set w₁ := (w₀.openPending stream).called with hw₁
    rcases allocateFrom_edits hgood₁ free_mem_places (fun hp => hp) hpos stream with
      ⟨hfree, heq⟩ | ⟨hfree, hfound⟩
    · have hcalled := Edit.called (w := w₁) hand
      have hgood₂ := hcalled.good hgood₁
      have hnone : w₁.called.regions .pending = {} :=
        hgood₂.inv.noPending .pending (show Place.pending.IsPending from trivial)
      have hmap : ¬ (w₁.called.regions .pending).map ≠ [] := by
        rw [hnone]
        exact fun hne => hne rfl
      have hlike₂ : w₀.Like w₁.called := hlike₁.trans (called_like w₁)
      have hedits₂ := hedits₁.tail hcalled
      rw [bind_ok heq]
      simp only
      rw [bind_ok (freeSomePending_ok hgood₁ hpend)]
      simp only [Bool.false_eq_true, if_false]
      rw [bind_ok (freePending_ok hgood₂ hpend)]
      simp only [Bool.false_eq_true, if_false]
      rw [get_bind, if_neg hmap]
      rcases searchStreams_cases hgood₂ hpos stream with
        ⟨out, w', heq', hmoves, hedits⟩ | ⟨⟨s, hs, hhas'⟩, hfinds⟩
      · left
        refine ⟨fun hf => hfree ?_, fun hf => hown ((hhas _).mpr hf), out, w', heq',
          hmoves.of_like hlike₂, hedits₂.trans hedits⟩
        exact (hlike₁.hasRegion _ _).mpr ((hhas _).mpr hf)
      · right
        refine ⟨.inr ⟨s, hlike₂.streams ▸ hs, ?_⟩, hfinds.head hedits₂ rfl⟩
        exact (hhas _).mp ((hlike₂.hasRegion _ _).mp hhas')
    · refine .inr ⟨.inl ((hhas _).mp ((hlike₁.hasRegion _ _).mp hfree)), ?_⟩
      rcases hfound with ⟨w', heq, hfail⟩ | ⟨ptr, w', heq, -, -, hedits⟩
      · rw [bind_error heq]
        exact .fail (hedits₁.reliable.not.mp hfail)
      · rw [bind_ok heq]
        exact .found (hedits₁.trans hedits)
  · refine .inr ⟨.inr ⟨stream, hmem, (hhas _).mp hown⟩, ?_⟩
    rcases hfound with ⟨w', heq, hfail⟩ | ⟨ptr, w', heq, -, -, hedits⟩
    · rw [bind_error heq]
      exact .fail ((Edits.reliable (.single hopen)).not.mp hfail)
    · rw [bind_ok heq]
      exact .found (.head hopen hedits)

end Search

/-! ## The whole of `allocate` -/

section Loop

variable {w : State} {bytes : ℕ} {stream : Stream}

/-- How often `allocate` may start again. -/
def State.load (w : State) : ℕ := w.streamLoad + w.pendingDeallocations.length

theorem AfterMove.load {moved rest : List (Stream × Region)} {w' : State}
    (h : AfterMove w moved rest w') (heq : w.streamRegions = moved ++ rest) :
    w'.load + moved.length = w.load := by
  rw [State.load, State.load, streamLoad_eq, streamLoad_eq, h.streamRegions, h.queue, heq,
    length_append]
  omega

/-- `allocate` ends with the bytes in hand, unless the driver fails or has no memory left. -/
theorem allocateLoop_spec (hpos : 0 < bytes) {fuel : ℕ} (h : Good ⟨w, []⟩)
    (hfuel : w.load + 2 ≤ fuel ∨ w.hasRegion .free bytes ∧ 1 ≤ fuel) :
    wp (allocateLoop bytes stream fuel)
      (fun res w' => ∃ ptr, res = some ptr ∧
        Edits ⟨w, []⟩ ⟨w', [(⟨ptr, ptr + bytes⟩, [stream])]⟩)
      (Ends w.driver fun w' => Edits ⟨w, []⟩ ⟨w', []⟩) w := by
  induction fuel generalizing w with
  | zero => omega
  | succ fuel ih =>
    -- what is known of a later pass is known of this one
    have hagain : ∀ w', Edits ⟨w, []⟩ ⟨w', []⟩ →
        w'.load + 2 ≤ fuel ∨ w'.hasRegion .free bytes ∧ 1 ≤ fuel →
        wp (allocateLoop bytes stream fuel)
          (fun res w'' => ∃ ptr, res = some ptr ∧
            Edits ⟨w, []⟩ ⟨w'', [(⟨ptr, ptr + bytes⟩, [stream])]⟩)
          (Ends w.driver fun w'' => Edits ⟨w, []⟩ ⟨w'', []⟩) w' := by
      intro w' hedits hfuel'
      refine (ih (hedits.good h) hfuel').mono (fun res w'' hw'' => ?_)
        fun e w'' => Ends.mono hedits.reliable fun _ => hedits.trans
      obtain ⟨ptr, hptr, hedits'⟩ := hw''
      exact ⟨ptr, hptr, hedits.trans hedits'⟩
    rw [allocateLoop, wp_bind, search, wp_bind]
    refine (drainDeallocations_spec h).mono (fun _ w₁ hw₁ => ?_) fun _ _ he => he
    obtain ⟨hedits₁, hfree₁, hqueue₁, hload₁⟩ := hw₁
    have hgood₁ := hedits₁.good h
    rw [if_neg (Nat.pos_iff_ne_zero.mp hpos)]
    rcases searchAll_cases hgood₁ hpos stream with
      ⟨hfree, -, out, w₂, heq, hmoves, hedits⟩ | ⟨-, hfinds⟩
    · have hfuel' : w.load + 2 ≤ fuel + 1 := by
        rcases hfuel with hfuel | ⟨⟨r, hr, hle⟩, -⟩
        · exact hfuel
        · exact absurd ⟨r, hfree₁ ▸ hr, hle⟩ hfree
      have hopen : (w₁.openStream stream).load ≤ w.load := by
        rw [load, hgood₁.inv.streamLoad_openStream stream, openStream_queue, hqueue₁]
        exact hload₁
      have hgood₂ := hedits.good hgood₁
      rw [wp_ok heq]
      cases hmoves with
      | @batch _ moved rest hsplit hbatch hafter =>
        have hlen := hafter.load hsplit
        have hne : 0 < moved.length := length_pos_iff.mpr hbatch.ne_nil
        exact hagain w₂ (hedits₁.trans hedits) (.inl (by omega))
      | all hlt hafter =>
        show wp (mapMoreMemory bytes stream >>= _) _ _ w₂
        rcases mapMoreMemory_cases hgood₂ hpos stream with
          hmap | ⟨w₃, hmap, hfail⟩ | ⟨w₃, hmap, hedit, hhas⟩
        · rw [wp_bind, wp_ok hmap]
          show wp (debugFreeMemory >>= _) _ _ w₂
          rw [wp_bind, wp_ok (debugFreeMemory_ok hgood₂)]
          exact hedits₁.trans hedits
        · rw [wp_bind, wp_error hmap]
          exact (Edits.reliable (hedits₁.trans hedits)).not.mp hfail
        · rw [wp_bind, wp_ok hmap]
          exact hagain _ ((hedits₁.trans hedits).tail hedit) (.inr ⟨hhas, by omega⟩)
    · show wp (searchAll bytes stream) _ _ w₁
      rw [wp]
      generalize searchAll bytes stream w₁ = res at hfinds ⊢
      cases hfinds with
      | fail hfail => exact hedits₁.reliable.not.mp hfail
      | found hedits => exact ⟨_, rfl, hedits₁.trans hedits⟩

end Loop

end CudaAllocator
