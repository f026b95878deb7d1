import Moodist.CudaAllocator.Run

/-!
# When `allocate` asks for new memory

`allocate` asks for new memory when `freeStreamMemory` says that it has moved too little.
-/

namespace CudaAllocator

open Foundation List State Regions

/-! ## Runs of bytes -/

def HasRun (P : ℕ → Prop) (bytes : ℕ) : Prop := ∃ start, ∀ b, start ≤ b → b < start + bytes → P b

variable {bytes b : ℕ} {rs : Regions}

theorem HasRun.mono {P Q : ℕ → Prop} (h : ∀ b, P b → Q b) (hP : HasRun P bytes) :
    HasRun Q bytes := by
  obtain ⟨start, hrun⟩ := hP
  exact ⟨start, fun b hle hlt => h b (hrun b hle hlt)⟩

theorem Regions.count_pos :
    0 < rs.count b ↔ ∃ r ∈ rs.map, r.span.has b = true := countP_pos_iff

theorem Regions.Ok.hasRun_iff (h : rs.Ok) (hpos : 0 < bytes) :
    HasRun (fun b => 0 < rs.count b) bytes ↔ ∃ r ∈ rs.map, bytes ≤ r.span.bytes := by
  constructor
  · rintro ⟨start, hrun⟩
    obtain ⟨r, hr, hb⟩ := count_pos.1 (hrun start le_rfl (by omega))
    rw [Span.has_iff] at hb
    refine ⟨r, hr, ?_⟩
    by_contra hshort
    rw [Span.bytes] at hshort
    -- the run would go on behind the region, in one that touches it
    obtain ⟨r', hr', hb'⟩ := count_pos.1 (hrun r.span.stop (by omega) (by omega))
    rw [Span.has_iff] at hb'
    rcases h.apart.cases hr hr' with rfl | hlt | hlt
    · omega
    · omega
    · omega
  · rintro ⟨r, hr, hle⟩
    refine ⟨r.span.start, fun b hb hlt => count_pos.2 ⟨r, hr, Span.has_iff.mpr ⟨hb, ?_⟩⟩⟩
    rw [Span.bytes] at hle
    omega

/-! ## Batches -/

/-- What is left of the regions when they are moved in batches: `kept` have been moved since the
last batch, which lacks `reqbytes`. -/
def leftover (bytes : ℕ) : ℕ → List (Stream × Region) → List (Stream × Region) →
    List (Stream × Region)
  | _, kept, [] => kept
  | reqbytes, kept, v :: todo =>
    if v.2.span.bytes ≥ reqbytes then
      leftover bytes bytes [] todo
    else
      leftover bytes (reqbytes - v.2.span.bytes) (kept ++ [v]) todo

/-- The regions of the streams that the last `freeStreamMemory` moves. -/
def State.leftRegions (w : State) (bytes : ℕ) : List (Stream × Region) :=
  leftover bytes bytes [] w.streamRegions

def State.freeByte (w : State) (b : ℕ) : Prop :=
  0 < (w.regions .free).count b ∨ ∃ v ∈ w.streamRegions, v.2.span.has b = true

/-- If the free memory has a run of the bytes, it has one without the regions that the last
`freeStreamMemory` moves. -/
def State.Coalesces (w : State) (bytes : ℕ) : Prop :=
  HasRun w.freeByte bytes →
    HasRun (fun b => w.freeByte b ∧ ∀ v ∈ w.leftRegions bytes, v.2.span.has b = false) bytes

section Batches

variable {moved : List (Stream × Region)} {reqbytes : ℕ}

theorem leftover_batch (h : IsBatch reqbytes moved) (kept rest : List (Stream × Region)) :
    leftover bytes reqbytes kept (moved ++ rest) = leftover bytes bytes [] rest := by
  induction moved generalizing reqbytes kept with
  | nil => exact absurd rfl h.ne_nil
  | cons v moved ih =>
    rw [cons_append, leftover]
    split
    · next hge =>
      cases moved with
      | nil => rfl
      | cons u moved =>
        have hfirst := h.first
        rw [dropLast_cons_of_ne_nil (cons_ne_nil u moved), bytesOf_cons] at hfirst
        omega
    · next hlt =>
      have henough := h.enough
      have hfirst := h.first
      rw [bytesOf_cons] at henough
      have hne : moved ≠ [] := by
        rintro rfl
        have : bytesOf [] = 0 := rfl
        omega
      rw [dropLast_cons_of_ne_nil hne, bytesOf_cons] at hfirst
      exact ih ⟨hne, by omega, by omega⟩ _

theorem leftover_of_lt {todo : List (Stream × Region)} (h : bytesOf todo < reqbytes)
    (kept : List (Stream × Region)) : leftover bytes reqbytes kept todo = kept ++ todo := by
  induction todo generalizing reqbytes kept with
  | nil => exact (append_nil kept).symm
  | cons v todo ih =>
    rw [bytesOf_cons] at h
    rw [leftover, if_neg (by omega), ih (by omega), append_assoc]
    rfl

/-- The regions that are left are some of those there were, and have too few bytes. -/
theorem leftover_spec (hpos : 0 < bytes) (reqbytes : ℕ) (kept todo : List (Stream × Region))
    (hkept : bytesOf kept + reqbytes ≤ bytes) (hreq : 0 < reqbytes) :
    bytesOf (leftover bytes reqbytes kept todo) < bytes ∧
      ∀ v ∈ leftover bytes reqbytes kept todo, v ∈ kept ++ todo := by
  induction todo generalizing reqbytes kept with
  | nil => exact ⟨by rw [leftover]; omega, fun v hv => by simpa [leftover] using hv⟩
  | cons v todo ih =>
    rw [leftover]
    split
    · obtain ⟨hlt, hmem⟩ := ih bytes [] (Nat.zero_add bytes).le hpos
      refine ⟨hlt, fun u hu => ?_⟩
      have := hmem u hu
      simp only [nil_append] at this
      simp [this]
    · next hn =>
      have hsum : bytesOf (kept ++ [v]) = bytesOf kept + v.2.span.bytes := by
        simp [bytesOf]
      obtain ⟨hlt, hmem⟩ := ih (reqbytes - v.2.span.bytes) (kept ++ [v]) (by omega) (by omega)
      refine ⟨hlt, fun u hu => ?_⟩
      have := hmem u hu
      rwa [append_assoc] at this

theorem bytes_le_bytesOf {v : Stream × Region} {l : List (Stream × Region)} (h : v ∈ l) :
    v.2.span.bytes ≤ bytesOf l :=
  single_le_sum (by simp) _ (mem_map.mpr ⟨v, h, rfl⟩)

variable {w w' : State}

variable {rest : List (Stream × Region)}

variable (h : AfterMove w moved rest w') (heq : w.streamRegions = moved ++ rest)

include h heq

theorem AfterMove.freeByte (b : ℕ) : w'.freeByte b ↔ w.freeByte b := by
  have hsum : 0 < (moved.map fun v => v.2.span.ind b).sum ↔ ∃ v ∈ moved, v.2.span.has b = true := by
    rw [List.sum_pos_iff_exists_pos_nat]
    simp only [mem_map, exists_exists_and_eq_and]
    refine exists_congr fun v => and_congr_right fun _ => ?_
    rw [Span.ind]
    split <;> simp_all
  rw [State.freeByte, State.freeByte, h.streamRegions, heq, h.count b]
  simp only [mem_append, or_and_right, exists_or, ← hsum]
  rw [Nat.add_pos_iff_pos_or_pos, or_assoc]

theorem AfterMove.leftRegions (hbatch : IsBatch bytes moved) :
    w'.leftRegions bytes = w.leftRegions bytes := by
  rw [State.leftRegions, State.leftRegions, h.streamRegions, heq, leftover_batch hbatch]

theorem AfterMove.coalesces (hbatch : IsBatch bytes moved) :
    w'.Coalesces bytes ↔ w.Coalesces bytes := by
  have hfree : w'.freeByte = w.freeByte := funext fun b => propext (h.freeByte heq b)
  rw [Coalesces, Coalesces, hfree, h.leftRegions heq hbatch]

end Batches

/-! ## Asking for memory -/

/-- `allocate`, started in the first state, calls `mapMoreMemory` in the second. -/
inductive AsksFor (bytes : ℕ) (stream : Stream) : State → State → Prop
  | here {w w'} (h : search bytes stream w = .ok .exhausted w') : AsksFor bytes stream w w'
  | again {w w₁ w'} (h : search bytes stream w = .ok .retry w₁) (h' : AsksFor bytes stream w₁ w') :
      AsksFor bytes stream w w'
  | mapped {w w₁ w₂ w'} (h : search bytes stream w = .ok .exhausted w₁)
      (hmap : mapMoreMemory bytes stream w₁ = .ok true w₂) (h' : AsksFor bytes stream w₂ w') :
      AsksFor bytes stream w w'

section Asks

variable {w w' : State} {stream : Stream}

variable {transit : ℕ → ℕ}

/-- A byte is in one of two maps at most. -/
theorem Inv.count_add_le (h : Inv w transit) {p q : Place} (hp : p ∈ w.places) (hq : q ∈ w.places)
    (hne : q ≠ p) (b : ℕ) : (w.regions p).count b + (w.regions q).count b ≤ 1 := by
  have hsum := sum_map_erase (fun p => (w.regions p).count b) hp
  have hle : (w.regions q).count b ≤
      ((w.places.erase p).map fun p => (w.regions p).count b).sum :=
    single_le_sum (by simp) _ (mem_map.mpr ⟨q, (mem_erase_of_ne hne).mpr hq, rfl⟩)
  have hbytes := h.bytes b
  have hone : (if w.isMapped b then 1 else 0) ≤ 1 := by split <;> omega
  simp only [held, inRegions] at hbytes
  omega

variable {v : Stream × Region}

/-- Two regions of the streams that share a byte are the same. -/
theorem Inv.streamRegions_unique (h : Inv w transit) {v' : Stream × Region}
    (hv : v ∈ w.streamRegions) (hv' : v' ∈ w.streamRegions) (hb : v.2.span.has b = true)
    (hb' : v'.2.span.has b = true) : v = v' := by
  obtain ⟨s, r⟩ := v
  obtain ⟨s', r'⟩ := v'
  obtain ⟨hs, hr⟩ := mem_streamRegions.mp hv
  obtain ⟨hs', hr'⟩ := mem_streamRegions.mp hv'
  by_cases hss : s' = s
  · subst hss
    simp only [Span.has_iff] at hb hb'
    rcases (h.ok (.stream s')).apart.cases hr hr' with rfl | hlt | hlt
    · rfl
    · omega
    · omega
  · have hle := h.count_add_le (stream_mem_places hs) (stream_mem_places hs') (by simpa using hss) b
    have hpos := count_pos.2 ⟨r, hr, hb⟩
    have hpos' := count_pos.2 ⟨r', hr', hb'⟩
    omega

theorem Inv.free_disjoint (h : Inv w transit) (hv : v ∈ w.streamRegions)
    (hb : 0 < (w.regions .free).count b) : v.2.span.has b = false := by
  obtain ⟨s, r⟩ := v
  obtain ⟨hs, hr⟩ := mem_streamRegions.mp hv
  have hle := h.count_add_le free_mem_places (stream_mem_places hs) (by simp) b
  by_contra hhas
  have hpos := count_pos.2 ⟨r, hr, Bool.eq_true_of_not_eq_false hhas⟩
  omega

theorem mem_leftRegions (hpos : 0 < bytes) (hv : v ∈ w.leftRegions bytes) :
    v ∈ w.streamRegions ∧ v.2.span.bytes < bytes := by
  obtain ⟨hlt, hmem⟩ := leftover_spec hpos bytes [] w.streamRegions (Nat.zero_add bytes).le hpos
  exact ⟨hmem v hv, lt_of_le_of_lt (bytes_le_bytesOf hv) hlt⟩

/-- A single region that is large enough is not one of those that are left. -/
theorem Good.coalesces_of_hasRegion (h : Good ⟨w, []⟩) (hpos : 0 < bytes)
    (hhas : w.hasRegion .free bytes ∨ ∃ s ∈ w.streams, w.hasRegion (.stream s) bytes) :
    w.Coalesces bytes := by
  intro _
  rcases hhas with hfree | ⟨s, hs, r, hr, hle⟩
  · refine (((h.inv.ok .free).hasRun_iff hpos).mpr hfree).mono fun b hb => ⟨.inl hb, fun v hv => ?_⟩
    exact h.inv.free_disjoint (mem_leftRegions hpos hv).1 hb
  · have hmem : (s, r) ∈ w.streamRegions := mem_streamRegions.mpr ⟨hs, hr⟩
    refine ⟨r.span.start, fun b hb hlt => ?_⟩
    have hrb : r.span.has b = true := by
      rw [Span.bytes] at hle
      exact Span.has_iff.mpr (by omega)
    refine ⟨.inr ⟨(s, r), hmem, hrb⟩, fun v hv => ?_⟩
    obtain ⟨hv', hsmall⟩ := mem_leftRegions hpos hv
    by_contra hvb
    have heq := h.inv.streamRegions_unique hmem hv' hrb (Bool.eq_true_of_not_eq_false hvb)
    rw [← heq] at hsmall
    exact absurd hle (not_le.mpr hsmall)

/-- When all regions of the streams are left, coalescing says that nothing is gained by them. -/
theorem Good.not_hasRun_of_coalesces (h : Good ⟨w, []⟩) (hpos : 0 < bytes)
    (hlt : bytesOf w.streamRegions < bytes) (hfree : ¬ w.hasRegion .free bytes)
    (hc : w.Coalesces bytes) : ¬ HasRun w.freeByte bytes := by
  intro hrun
  have hleft : w.leftRegions bytes = w.streamRegions := leftover_of_lt hlt []
  refine hfree (((h.inv.ok .free).hasRun_iff hpos).mp ((hc hrun).mono fun b hb => ?_))
  obtain ⟨hb | ⟨v, hv, hvb⟩, hnot⟩ := hb
  · exact hb
  · have := hnot v (hleft ▸ hv)
    rw [hvb] at this
    cases this

theorem AfterMove.hasRegion_iff (h : AfterMove w w.streamRegions [] w') (hgood : Good ⟨w', []⟩)
    (hpos : 0 < bytes) : w'.hasRegion .free bytes ↔ HasRun w.freeByte bytes := by
  rw [hasRegion, ← (hgood.inv.ok .free).hasRun_iff hpos]
  have hfree : (fun b => 0 < (w'.regions .free).count b) = w.freeByte := by
    funext b
    rw [← propext (h.freeByte (append_nil _).symm b), State.freeByte, h.streamRegions]
    simp
  rw [hfree]

theorem AfterMove.not_hasRegion_stream (h : AfterMove w w.streamRegions [] w')
    (hs : stream ∈ w.streams) : ¬ w'.hasRegion (.stream stream) bytes := by
  rintro ⟨r, hr, -⟩
  have hmem : (stream, r) ∈ w'.streamRegions := mem_streamRegions.mpr ⟨h.streams ▸ hs, hr⟩
  rw [h.streamRegions] at hmem
  cases hmem

/-! ## The passes -/

theorem drainDeallocations_nil (h : w.pendingDeallocations = []) :
    drainDeallocations w = .ok () w := by
  have hw : { w with pendingDeallocations := [] } = w := by rw [← h]
  have hstart : drainDeallocations w =
      (w.pendingDeallocations.forM fun v => deallocate true v.1 v.2)
        { w with pendingDeallocations := [] } := rfl
  rw [hstart, hw, h]
  rfl

theorem openStream_of_mem (h : stream ∈ w.streams) : w.openStream stream = w := if_pos h

variable {w₁ : State} {out : Outcome} {e : Error}

theorem Good.of_drain (h : Good ⟨w, []⟩) (hdrain : drainDeallocations w = .ok () w₁) :
    Good ⟨w₁, []⟩ ∧ w₁.pendingDeallocations = [] ∧ w₁.regions .free = w.regions .free := by
  have hspec := drainDeallocations_spec (I := fun _ => True) h
  rw [wp_ok hdrain] at hspec
  exact ⟨hspec.1.good h, hspec.2.2.1, hspec.2.1⟩

theorem search_of_drain (hpos : 0 < bytes) (hdrain : drainDeallocations w = .ok () w₁) :
    search bytes stream w = searchAll bytes stream w₁ := by
  rw [search, bind_ok hdrain, if_neg (Nat.pos_iff_ne_zero.mp hpos)]

/-- What is known of a pass that has found nothing. -/
structure Passed (bytes : ℕ) (stream : Stream) (w : State) (out : Outcome) (w₁ w' : State) :
    Prop where
  drain : drainDeallocations w = .ok () w₁
  none : ¬ w.hasRegion .free bytes
  moves : Moves bytes (w₁.openStream stream) out w'
  before : Good ⟨w₁.openStream stream, []⟩
  after : Good ⟨w', []⟩

theorem search_passed (h : Good ⟨w, []⟩) (hpos : 0 < bytes)
    (hout : ∀ ptr, out ≠ .found ptr) (hsearch : search bytes stream w = .ok out w') :
    ∃ w₁, Passed bytes stream w out w₁ w' := by
  cases hdrain : drainDeallocations w with
  | error e w₁ =>
    rw [search, bind_error hdrain] at hsearch
    cases hsearch
  | ok u w₁ =>
    cases u
    obtain ⟨hgood, -, hfree⟩ := h.of_drain hdrain
    rw [search_of_drain hpos hdrain] at hsearch
    rcases searchAll_cases hgood hpos stream with
      ⟨hnone, -, out', w'', heq, hmoves, hedits⟩ | ⟨-, hfinds⟩
    · rw [hsearch] at heq
      cases heq
      refine ⟨w₁, hdrain, fun hhas => hnone ?_, hmoves, (Edit.openStream stream).good hgood,
        hedits.good hgood⟩
      rwa [hasRegion, hfree]
    · rw [hsearch] at hfinds
      cases hfinds with
      | found hedits => exact absurd rfl (hout _)

/-- The next pass starts where this one ended. -/
theorem Moves.ready (hqueue : w₁.pendingDeallocations = [])
    (h : Moves bytes (w₁.openStream stream) out w') :
    drainDeallocations w' = .ok () w' ∧ w'.openStream stream = w' := by
  have hmem := mem_openStream w₁ stream
  have hafter : w'.streams = (w₁.openStream stream).streams ∧
      w'.pendingDeallocations = (w₁.openStream stream).pendingDeallocations := by
    cases h with
    | batch _ _ hafter | all _ hafter => exact ⟨hafter.streams, hafter.queue⟩
  refine ⟨drainDeallocations_nil ?_, openStream_of_mem (hafter.1 ▸ hmem)⟩
  rw [hafter.2, openStream_queue, hqueue]

/-- Every state in which memory is asked for has no region that is large enough. -/
theorem AsksFor.none_of_coalesces (hpos : 0 < bytes) (h : AsksFor bytes stream w w')
    (hgood : Good ⟨w, []⟩)
    (hc : ∀ w₁, drainDeallocations w = .ok () w₁ → (w₁.openStream stream).Coalesces bytes) :
    ¬ w'.hasRegion (.stream stream) bytes ∧ ¬ w'.hasRegion .free bytes := by
  induction h with
  | @here w w' hsearch =>
    obtain ⟨w₁, hpass⟩ := search_passed hgood hpos (by simp) hsearch
    have hfree := (hgood.of_drain hpass.drain).2.2
    cases hpass.moves with
    | all hlt hafter =>
      refine ⟨hafter.not_hasRegion_stream (mem_openStream w₁ stream), ?_⟩
      rw [hafter.hasRegion_iff hpass.after hpos]
      refine hpass.before.not_hasRun_of_coalesces hpos hlt (fun hhas => hpass.none ?_)
        (hc w₁ hpass.drain)
      rwa [hasRegion, openStream_regions, hfree] at hhas
  | @again w w₂ w' hsearch _ ih =>
    obtain ⟨w₁, hpass⟩ := search_passed hgood hpos (by simp) hsearch
    obtain ⟨hdrain₂, hopen₂⟩ := hpass.moves.ready (hgood.of_drain hpass.drain).2.1
    refine ih hpass.after fun w₃ hdrain₃ => ?_
    obtain rfl : w₂ = w₃ := by
      rw [hdrain₂] at hdrain₃
      cases hdrain₃
      rfl
    rw [hopen₂]
    cases hpass.moves with
    | batch heq hbatch hafter => exact (hafter.coalesces heq hbatch).mpr (hc w₁ hpass.drain)
  | @mapped w w₁ w₂ w' hsearch hmap h' _ =>
    -- behind a mapping the next pass finds the new region
    exfalso
    obtain ⟨w₀, hpass⟩ := search_passed hgood hpos (by simp) hsearch
    have hhas : Good ⟨w₂, []⟩ ∧ w₂.hasRegion .free bytes := by
      rcases mapMoreMemory_cases hpass.after hpos stream with
        hmap' | ⟨w₃, hmap', -⟩ | ⟨w₃, hmap', hedit, hhas⟩ <;>
      · rw [hmap] at hmap'
        cases hmap' <;>
        exact ⟨hedit.good hpass.after, hhas⟩
    obtain ⟨out, w₃, hout, hsearch₂⟩ : ∃ out w₃, (∀ ptr, out ≠ Outcome.found ptr) ∧
        search bytes stream w₂ = .ok out w₃ := by
      cases h' with
      | here h | again h | mapped h => exact ⟨_, _, by simp, h⟩
    obtain ⟨w₄, hpass₂⟩ := search_passed hhas.1 hpos hout hsearch₂
    exact hpass₂.none hhas.2

/-- Otherwise it asks for memory with a region that is large enough. -/
theorem exists_asksFor (hpos : 0 < bytes) (hgood : Good ⟨w, []⟩)
    (hdrain : drainDeallocations w = .ok () w₁) (hc : ¬ (w₁.openStream stream).Coalesces bytes) :
    ∃ w', AsksFor bytes stream w w' ∧ w'.hasRegion .free bytes := by
  induction hn : (w₁.openStream stream).streamRegions.length using Nat.strong_induction_on
    generalizing w w₁ with
  | _ n ih =>
    obtain ⟨hgood₁, hqueue, -⟩ := hgood.of_drain hdrain
    have hbefore : Good ⟨w₁.openStream stream, []⟩ := (Edit.openStream stream).good hgood₁
    have hsearch : search bytes stream w = _ := search_of_drain hpos hdrain
    -- each batch takes regions from the streams, and the induction is on how many are left
    rcases searchAll_cases hgood₁ hpos stream with
      ⟨-, -, out, w', heq, hmoves, hedits⟩ | ⟨hhas, -⟩
    · rw [heq] at hsearch
      obtain ⟨hdrain', hopen'⟩ := hmoves.ready hqueue
      cases hmoves with
      | @batch _ moved rest hsplit hbatch hafter =>
        have hlt : (w'.openStream stream).streamRegions.length < n := by
          have := length_pos_iff.mpr hbatch.ne_nil
          rw [hopen', hafter.streamRegions, ← hn, hsplit, length_append]
          omega
        have hc' : ¬ (w'.openStream stream).Coalesces bytes := by
          rw [hopen', hafter.coalesces hsplit hbatch]
          exact hc
        obtain ⟨w'', hasks, hhas⟩ := ih _ hlt (hedits.good hgood₁) hdrain' hc' rfl
        exact ⟨w'', .again hsearch hasks, hhas⟩
      | all hlt hafter =>
        refine ⟨w', .here hsearch, (hafter.hasRegion_iff (hedits.good hgood₁) hpos).mpr ?_⟩
        by_contra hrun
        exact hc fun h => absurd h hrun
    -- the first pass would find the region
    · refine absurd (hbefore.coalesces_of_hasRegion hpos ?_) hc
      rcases hhas with ⟨r, hr, hle⟩ | ⟨s, hs, r, hr, hle⟩
      · exact .inl ⟨r, (openStream_regions w₁ stream).symm ▸ hr, hle⟩
      · exact .inr ⟨s, hs, r, (openStream_regions w₁ stream).symm ▸ hr, hle⟩

/-- A pass throws errors of the driver only. -/
theorem search_error (hgood : Good ⟨w, []⟩) (hpos : 0 < bytes)
    (h : search bytes stream w = .error e w') : e = .cuda := by
  cases hdrain : drainDeallocations w with
  | error e₁ w₁ =>
    rw [search, bind_error hdrain] at h
    cases h
    have hspec := drainDeallocations_spec (I := fun _ => False) hgood
    rw [wp_error hdrain] at hspec
    cases e with
    | check | outOfMemory => exact hspec.elim
    | cuda => rfl
  | ok u w₁ =>
    cases u
    rw [search_of_drain hpos hdrain] at h
    rcases searchAll_cases (hgood.of_drain hdrain).1 hpos stream with
      ⟨-, -, out, w₂, heq, -⟩ | ⟨-, hfinds⟩
    · rw [h] at heq
      cases heq
    · rw [h] at hfinds
      cases hfinds
      rfl

theorem asksFor_of_outOfMemory (hpos : 0 < bytes) {fuel : ℕ} (hgood : Good ⟨w, []⟩)
    (h : allocateLoop bytes stream fuel w = .error e w') (he : e ≠ .cuda) :
    AsksFor bytes stream w w' := by
  induction fuel generalizing w with
  | zero => cases h
  | succ fuel ih =>
    rw [allocateLoop] at h
    cases hsearch : search bytes stream w with
    | error e₁ w₁ =>
      rw [bind_error hsearch] at h
      cases h
      exact absurd (search_error hgood hpos hsearch) he
    | ok out w₁ =>
      rw [bind_ok hsearch] at h
      cases out with
      | found ptr => cases h
      | retry =>
        obtain ⟨w₀, hpass⟩ := search_passed hgood hpos (by simp) hsearch
        exact .again hsearch (ih hpass.after h)
      | exhausted =>
        obtain ⟨w₀, hpass⟩ := search_passed hgood hpos (by simp) hsearch
        simp only at h
        rcases mapMoreMemory_cases hpass.after hpos stream with
          hmap | ⟨w₂, hmap, -⟩ | ⟨w₂, hmap, hedit, -⟩
        · rw [bind_ok hmap] at h
          simp only [Bool.false_eq_true, if_false] at h
          rw [bind_ok (debugFreeMemory_ok hpass.after), get_bind] at h
          cases h
          exact .here hsearch
        · rw [bind_error hmap] at h
          cases h
          exact absurd rfl he
        · rw [bind_ok hmap] at h
          exact .mapped hsearch hmap (ih (hedit.good hpass.after) h)

/-- `allocate` ends. It asks for memory, and runs out of it, only when neither the stream nor the
memory of no stream has a region that is large enough, exactly if the state it starts to search
in coalesces. -/
theorem allocate_asks_iff (hgood : Good ⟨w, []⟩) (hpos : 0 < bytes) (stream : Stream) :
    (∃ fuel, ∀ w', allocateLoop bytes stream fuel w ≠ .ok none w') ∧
    (∀ fuel e w', allocateLoop bytes stream fuel w = .error e w' → e ≠ .cuda →
      AsksFor bytes stream w w') ∧
    ((∀ w', AsksFor bytes stream w w' →
        ¬ w'.hasRegion (.stream stream) bytes ∧ ¬ w'.hasRegion .free bytes) ↔
      ∀ w₁, drainDeallocations w = .ok () w₁ → (w₁.openStream stream).Coalesces bytes) := by
  refine ⟨⟨w.load + 2, fun w' hnone => ?_⟩,
    fun fuel e w' h he => asksFor_of_outOfMemory hpos hgood h he,
    fun h w₁ hdrain => ?_, fun hc w' h => h.none_of_coalesces hpos hgood hc⟩
  · obtain ⟨ptr, hptr, -⟩ := (wp_ok hnone).mp (allocateLoop_spec hpos hgood (.inl le_rfl))
    cases hptr
  · by_contra hc
    obtain ⟨w', hasks, hhas⟩ := exists_asksFor hpos hgood hdrain hc
    exact (h w' hasks).2 hhas

end Asks

def failsWith (test : State → Bool) : EStateM.Result Error State (Option ℕ) → Bool
  | .error (.outOfMemory _ _ _ _ _ _) w' => test w'
  | _ => false

theorem exists_of_failsWith {test : State → Bool} {res : EStateM.Result Error State (Option ℕ)}
    (h : failsWith test res = true) :
    ∃ e w', res = .error e w' ∧ e ≠ .cuda ∧ test w' = true := by
  unfold failsWith at h
  split at h
  · exact ⟨_, _, rfl, by simp, h⟩
  · cases h

/-- Of four allocations that use up what is mapped, the first and the third are freed. -/
def fragmented : State :=
  calls (.initial (onceDriver 2048 2000)) [.allocate 256 1, .allocate 256 2, .allocate 256 1,
    .allocate 256 2, .free ⟨⟨4096, 4352⟩, 1⟩, .free ⟨⟨4608, 4864⟩, 1⟩]

/-- 512 bytes are free, but they are not together. -/
theorem allocate_asks_fragmented :
    Run (fun w c => c.Legal w ∧ c.Quiet w) (onceDriver 2048 2000) fragmented ∧
    (∃ w', AsksFor 512 1 fragmented w') ∧ ∀ w', AsksFor 512 1 fragmented w' →
      ¬ w'.hasRegion (.stream 1) 512 ∧ ¬ w'.hasRegion .free 512 := by
  have hreach : Run (fun w c => c.Legal w ∧ c.Quiet w) (onceDriver 2048 2000) fragmented :=
    run_of_returns (by decide +kernel)
  obtain ⟨-, hasks, hiff⟩ := allocate_asks_iff hreach.good (by decide : 0 < 512) 1
  have hfails : failsWith (fun _ => true) (allocateLoop 512 1 10 fragmented) = true := by
    decide +kernel
  obtain ⟨e, w', hres, he, -⟩ := exists_of_failsWith hfails
  refine ⟨hreach, ⟨w', hasks 10 e w' hres he⟩, hiff.mpr fun w₁ hdrain hrun => ?_⟩
  have hspans : returnsIn (fun w₁ => decide (((w₁.openStream 1).regions .free).map = [] ∧
      (w₁.openStream 1).streamRegions.map (fun v => v.2.span) = [⟨4096, 4352⟩, ⟨4608, 4864⟩]))
      (drainDeallocations fragmented) = true := by
    decide +kernel
  rw [hdrain] at hspans
  obtain ⟨hnone, hspans⟩ := of_decide_eq_true hspans
  have hfree : ∀ b, (w₁.openStream 1).freeByte b →
      4096 ≤ b ∧ b < 4352 ∨ 4608 ≤ b ∧ b < 4864 := by
    rintro b (hcount | ⟨v, hv, hb⟩)
    · rw [Regions.count, hnone] at hcount
      cases hcount
    · have hmem : v.2.span ∈ [⟨4096, 4352⟩, ⟨4608, 4864⟩] := hspans ▸ mem_map_of_mem hv
      rw [Span.has, Bool.and_eq_true, decide_eq_true_eq, decide_eq_true_eq] at hb
      obtain heq | heq : v.2.span = ⟨4096, 4352⟩ ∨ v.2.span = ⟨4608, 4864⟩ := by simpa using hmem
      · rw [heq] at hb
        exact .inl hb
      · rw [heq] at hb
        exact .inr hb
  obtain ⟨start, hrun⟩ := hrun
  have hfirst := hfree start (hrun start le_rfl (by omega))
  have hsecond := hfree (start + 256) (hrun (start + 256) (by omega) (by omega))
  omega

/-- 512 bytes are mapped, and 256 of them used and freed again. Then 512 bytes cannot be had,
although they are one region of the memory of no stream. -/
theorem allocate_asks_with_region :
    ∃ w, Run (fun w c => c.Legal w ∧ c.Quiet w) (onceDriver 1024 1000) w ∧
      ∃ e w', allocateLoop 512 1 (w.load + 2) w = .error e w' ∧ e ≠ .cuda ∧
        w'.hasRegion .free 512 := by
  have hfails : failsWith
      (fun w' => (w'.regions .free).map.any fun r => decide (512 ≤ r.span.bytes))
      (allocateLoop 512 1 ((calls (.initial (onceDriver 1024 1000)) firstCalls).load + 2)
        (calls (.initial (onceDriver 1024 1000)) firstCalls)) = true := by
    decide +kernel
  obtain ⟨e, w', hres, he, hregion⟩ := exists_of_failsWith hfails
  obtain ⟨r, hr, hle⟩ := any_eq_true.mp hregion
  exact ⟨_, freed_run, e, w', hres, he, r, hr, of_decide_eq_true hle⟩

end CudaAllocator
