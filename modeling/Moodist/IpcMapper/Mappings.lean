import Moodist.CudaAllocator.Edits

/-!
# Registrations and peer mappings of device memory

Model of `regMrCuda` of `core/cputhread.cc` and `requestAddress` of `core/ipc_mapper.h`. A mapped
region is registered once, and each peer maps it once. Both records are found by the base of the
region, which stays the same when new memory joins the region from above.

For the memory of the allocator the base is the buffer id, and the driver has one handle for each
base. What `requestAddress` queues for unmapping has a base that no lookup returns again.
-/

namespace IpcMapper

open CudaAllocator Function List
open Option hiding guard

/-- What a peer maps or has mapped, with the address and length of each request that waits. -/
structure Mapped where
  size : ℕ
  unmappable : Bool
  peerAddress : Option ℕ
  callbacks : List (ℕ × ℕ)

/-- The maps of the peers have the peer's index in the key. -/
structure State where
  mapped : List Span
  mrMapCuda : ℕ → Option Span
  peerIpcAddressMap : ℕ × ℕ → Option (ℕ × ℕ)
  peerIpcMap : ℕ × ℕ → Option Mapped

namespace State

def init : State := ⟨[], fun _ => none, fun _ => none, fun _ => none⟩

/-- No memory is at address 0, so a region is never taken for none. -/
def mappedRegion (s : State) (address : ℕ) : Option Span := s.mapped.find? (·.has address)

/-- The registration, which is null for no bytes. -/
def regMrCuda (s : State) (address bytes : ℕ) : Option (State × Option Span) := do
  if bytes = 0 then return (s, none)
  let region ← s.mappedRegion address
  match s.mrMapCuda region.start with
  | some r =>
    guard (r.start ≤ address ∧ address + bytes ≤ r.stop)
    return (s, some r)
  | none =>
    return ({ s with mrMapCuda := update s.mrMapCuda region.start (some region) },
      some region)

/-- There is no answer as long as the request waits for the peer. -/
def requestAddress (s : State) (peerIndex address length : ℕ) (unmappable : Bool) :
    Option (State × Option ℕ) := do
  guard (0 < length ∧ address ≠ 0)
  let region ← s.mappedRegion address
  let key := (peerIndex, region.start)
  let offset := address - region.start
  match (s.peerIpcAddressMap key).filter fun e => e.2 = region.start with
  | some e => return (s, some (e.1 + offset))
  | none =>
    -- an entry of another buffer is erased
    let erased := update s.peerIpcAddressMap key none
    let m := (s.peerIpcMap key).getD ⟨region.bytes, unmappable, none, []⟩
    guard (length ≤ region.bytes ∧ m.size = region.bytes)
    match m.peerAddress with
    | some x =>
      guard (m.unmappable = unmappable)
      let map := update erased key (some (x, region.start))
      return ({ s with peerIpcAddressMap := map }, some (x + offset))
    | none =>
      let m := { m with callbacks := m.callbacks ++ [(address, length)] }
      return ({ s with
        peerIpcAddressMap := erased
        peerIpcMap := update s.peerIpcMap key (some m) }, none)

def enter (peerIndex : ℕ) (entry : ℕ × ℕ) (map : ℕ × ℕ → Option (ℕ × ℕ)) (e : ℕ × ℕ) :
    ℕ × ℕ → Option (ℕ × ℕ) :=
  update map (peerIndex, e.1) (some entry)

/-- The peer has mapped what it was asked for; each request that waited is answered. -/
def reply (s : State) (peerIndex base x : ℕ) : Option (State × List ((ℕ × ℕ) × ℕ)) := do
  let m ← s.peerIpcMap (peerIndex, base)
  guard (m.peerAddress = none ∧ m.callbacks ≠ [])
  let m' := { m with peerAddress := some x, callbacks := [] }
  return ({ s with
      peerIpcAddressMap := m.callbacks.foldl (enter peerIndex (x, base)) s.peerIpcAddressMap
      peerIpcMap := update s.peerIpcMap (peerIndex, base) (some m') },
    m.callbacks.map fun e => (e, x + (e.1 - base)))

/-- The range lies in mapped memory. -/
def Inside (s : State) (address bytes : ℕ) : Prop :=
  ∀ i < bytes, s.mapped.any (·.has (address + i)) = true

/-- The peer address is that of the range in a mapping which covers the range. -/
def Covers (s : State) (peerIndex base address length peerAddress : ℕ) : Prop :=
  ∃ m x, s.peerIpcMap (peerIndex, base) = some m ∧ m.peerAddress = some x ∧ base ≤ address ∧
    address + length ≤ base + m.size ∧ peerAddress = x + (address - base)

end State

/-- The runs. Each lookup is noted with the region it found: `none` stands for a registration, a
number for the peer of a request. -/
inductive Run : List (Option ℕ × Span) → State → Prop
  | init : Run [] .init
  | grow {lookups s span} (h : Run lookups s) (hspan : span.start < span.stop)
      (hfresh : ∀ r ∈ s.mapped, span.stop ≤ r.start ∨ r.stop ≤ span.start) :
      Run lookups { s with mapped := addSpan s.mapped span }
  | regMrCuda {lookups s address bytes region s' r} (h : Run lookups s) (hpos : 0 < bytes)
      (hin : s.Inside address bytes) (hregion : s.mappedRegion address = some region)
      (hcall : s.regMrCuda address bytes = some (s', r)) : Run (lookups ++ [(none, region)]) s'
  | requestAddress {lookups s peerIndex address length unmappable region s' r}
      (h : Run lookups s) (hin : s.Inside address length)
      (hregion : s.mappedRegion address = some region)
      (hcall : s.requestAddress peerIndex address length unmappable = some (s', r)) :
      Run (lookups ++ [(some peerIndex, region)]) s'
  | reply {lookups s peerIndex base x s' answers} (h : Run lookups s)
      (hcall : s.reply peerIndex base x = some (s', answers)) : Run lookups s'

/-- The region of this base as the first lookup found it. -/
def firstRegion (lookups : List (Option ℕ × Span)) (who : Option ℕ) (base : ℕ) : Option Span :=
  (lookups.find? fun e => e.1 = who ∧ e.2.start = base).map Prod.snd

/-- The range lies in what the first lookup of its region's base found, if there was one. -/
def FirstCovers (lookups : List (Option ℕ × Span)) (s : State) (who : Option ℕ)
    (address bytes : ℕ) : Prop :=
  ∀ region e, s.mappedRegion address = some region →
    firstRegion lookups who region.start = some e → address + bytes ≤ e.stop

/-! ## What is recorded -/

def State.extent (s : State) (who : Option ℕ) (base : ℕ) : Option Span :=
  who.elim (s.mrMapCuda base) fun p =>
    (s.peerIpcMap (p, base)).map fun m => ⟨base, base + m.size⟩

structure Inv (lookups : List (Option ℕ × Span)) (s : State) : Prop where
  apart : Apart (s.mapped.map fun r => ⟨r, []⟩)
  lt : ∀ r ∈ s.mapped, r.start < r.stop
  extent : ∀ who base, s.extent who base = firstRegion lookups who base
  cached : ∀ p b x, s.peerIpcAddressMap (p, b) = some (x, b) →
    ∃ m, s.peerIpcMap (p, b) = some m ∧ m.peerAddress = some x
  waiting : ∀ p b m, s.peerIpcMap (p, b) = some m →
    ∀ e ∈ m.callbacks, b ≤ e.1 ∧ e.1 + e.2 ≤ b + m.size

section Run

variable {lookups : List (Option ℕ × Span)} {s s' : State} {address bytes : ℕ} {region : Span}

/-- A range of mapped bytes lies in the region of its first byte: no two regions touch. -/
theorem Inv.region_of_inside (h : Inv lookups s) (hin : s.Inside address bytes)
    (hregion : s.mappedRegion address = some region) :
    region.start ≤ address ∧ address + bytes ≤ region.stop ∧
      region.start + region.bytes = region.stop := by
  have hhas := Span.has_iff.mp (find?_some (p := fun r : Span => r.has address) hregion)
  have hmem := mem_of_find?_eq_some hregion
  refine ⟨hhas.1, ?_, Nat.add_sub_cancel' (h.lt region hmem).le⟩
  by_contra hlt
  obtain ⟨r, hr, hhas'⟩ := any_eq_true.mp (hin (region.stop - address) (by omega))
  have hhas' := Span.has_iff.mp hhas'
  rcases h.apart.cases (mem_map_of_mem hmem) (mem_map_of_mem hr) with heq | h | h
  · obtain rfl : region = r := congrArg Region.span heq
    omega
  all_goals
    simp only at h
    omega

theorem firstRegion_append (who who' : Option ℕ) (base : ℕ) :
    firstRegion (lookups ++ [(who', region)]) who base =
      if who = who' ∧ base = region.start then some ((firstRegion lookups who base).getD region)
      else firstRegion lookups who base := by
  rw [firstRegion, firstRegion, find?_append, map_or, find?_singleton]
  cases lookups.find? _ <;> grind

theorem firstRegion_start {who : Option ℕ} {base : ℕ} {r : Span}
    (h : firstRegion lookups who base = some r) : r.start = base := by
  obtain ⟨e, he, rfl⟩ := map_eq_some_iff.mp h
  have hpred := find?_some he
  simp only [decide_eq_true_eq] at hpred
  exact hpred.2

theorem Inv.regMrCuda (h : Inv lookups s) {r : Option Span} (hpos : 0 < bytes)
    (hregion : s.mappedRegion address = some region)
    (hcall : s.regMrCuda address bytes = some (s', r)) : Inv (lookups ++ [(none, region)]) s' := by
  simp only [State.regMrCuda, hpos.ne', if_false, hregion, bind_eq_bind,
    bind_some] at hcall
  split at hcall
  · rename_i e he
    obtain ⟨-, -, hcall⟩ := bind_eq_some_iff.mp hcall
    obtain ⟨rfl, -⟩ := Prod.mk.inj (some.inj hcall)
    refine { h with extent := fun who base => ?_ }
    rw [firstRegion_append, ← h.extent]
    cases who <;> grind [State.extent]
  · rename_i he
    obtain ⟨rfl, -⟩ := Prod.mk.inj (some.inj hcall)
    refine { h with extent := fun who base => ?_ }
    rw [firstRegion_append, ← h.extent]
    cases who <;> grind [State.extent, update_apply]

/-- A request is answered from the mapping of its region's base, or waits for it. -/
theorem Inv.requestAddress (h : Inv lookups s) {p : ℕ} {unmappable : Bool} {r : Option ℕ}
    (hin : s.Inside address bytes) (hregion : s.mappedRegion address = some region)
    (hcall : s.requestAddress p address bytes unmappable = some (s', r)) :
    Inv (lookups ++ [(some p, region)]) s' ∧ ∀ x, r = some x →
      ∃ m y, s.peerIpcMap (p, region.start) = some m ∧ s'.peerIpcMap = s.peerIpcMap ∧
        m.peerAddress = some y ∧ x = y + (address - region.start) := by
  obtain ⟨hstart, hstop, hbytes⟩ := h.region_of_inside hin hregion
  have hspan : (⟨region.start, region.start + region.bytes⟩ : Span) = region := by rw [hbytes]
  have hcached := h.cached
  simp only [State.requestAddress, hregion, bind_eq_bind, bind_some] at hcall
  obtain ⟨_, -, hcall⟩ := bind_eq_some_iff.mp hcall
  split at hcall
  -- the peer has the address in its cache
  · rename_i e he
    obtain ⟨he, hbase⟩ := filter_eq_some_iff.mp he
    cases hcall
    obtain ⟨x, b⟩ := e
    obtain rfl : b = region.start := by simpa using hbase
    obtain ⟨m, hm, hx⟩ := h.cached p _ x he
    refine ⟨{ h with extent := fun who base => ?_ }, fun y hy =>
      ⟨m, x, hm, rfl, hx, (some.inj hy).symm⟩⟩
    rw [firstRegion_append, ← h.extent]
    cases who <;> grind [State.extent]
  · obtain ⟨_, hguard, hcall⟩ := bind_eq_some_iff.mp hcall
    split at hcall
    -- the region has been mapped
    · rename_i x hx
      obtain ⟨m, hm⟩ : ∃ m, s.peerIpcMap (p, region.start) = some m := by
        cases hm : s.peerIpcMap (p, region.start) <;> simp [hm] at hx ⊢
      rw [hm] at hx
      obtain ⟨_, -, hcall⟩ := bind_eq_some_iff.mp hcall
      cases hcall
      refine ⟨{ h with extent := fun who base => ?_, cached := ?_ }, fun y hy =>
        ⟨m, x, hm, rfl, hx, (some.inj hy).symm⟩⟩
      · rw [firstRegion_append, ← h.extent]
        cases who <;> grind [State.extent]
      · grind [update_apply]
    -- the request waits for the mapping, and asks for it if it is the first
    · rename_i hx
      cases hcall
      generalize hm : (s.peerIpcMap (p, region.start)).getD _ = m at hguard hx ⊢
      have hold : s.peerIpcMap (p, region.start) = some m ∨
          s.peerIpcMap (p, region.start) = none ∧ m.callbacks = [] := by
        cases hp : s.peerIpcMap (p, region.start) <;> simp [hp] at hm <;> simp [← hm]
      have hsize : m.size = region.bytes := by
        by_contra hne
        simp [guard, hne] at hguard
      have hwaiting := h.waiting
      clear hcall hguard
      refine ⟨{ h with extent := fun who base => ?_, cached := ?_, waiting := ?_ }, nofun⟩
      · rw [firstRegion_append, ← h.extent]
        cases who <;> grind [State.extent, update_apply]
      · grind [update_apply]
      · grind [update_apply]

theorem foldl_enter_cases (list : List (ℕ × ℕ)) (p : ℕ) (v : ℕ × ℕ)
    (map : ℕ × ℕ → Option (ℕ × ℕ)) (k : ℕ × ℕ) :
    list.foldl (State.enter p v) map k = some v ∧ k.1 = p ∨
      list.foldl (State.enter p v) map k = map k := by
  induction list generalizing map with
  | nil => exact .inr rfl
  | cons e list ih =>
    rw [foldl_cons]
    rcases ih (State.enter p v map e) with h | h
    · exact .inl h
    · rw [h, State.enter, update_apply]
      split <;> simp_all

/-- A reply keeps what was asked for, and its answers are covered. -/
theorem Inv.reply (h : Inv lookups s) {p base x : ℕ} {answers : List ((ℕ × ℕ) × ℕ)}
    (hcall : s.reply p base x = some (s', answers)) :
    Inv lookups s' ∧ ∀ e ∈ answers, s'.Covers p base e.1.1 e.1.2 e.2 := by
  obtain ⟨m, hm, hcall⟩ := bind_eq_some_iff.mp hcall
  obtain ⟨_, hguard, hcall⟩ := bind_eq_some_iff.mp hcall
  have hnone : m.peerAddress = none := by
    by_contra hne
    simp [guard, hne] at hguard
  cases hcall
  have hlist := h.waiting p base m hm
  refine ⟨{ h with extent := fun who b => ?_, cached := fun p' b y hb => ?_, waiting := ?_ },
    fun e he => ?_⟩
  · rw [← h.extent]
    cases who <;> grind [State.extent, update_apply]
  · have hcached := h.cached p' b y
    have hcases := foldl_enter_cases m.callbacks p (x, base) s.peerIpcAddressMap (p', b)
    grind [update_apply]
  · have hwaiting := h.waiting
    grind [update_apply]
  · obtain ⟨e, hmem, rfl⟩ := mem_map.mp he
    exact ⟨_, x, update_self .., rfl, (hlist e hmem).1, (hlist e hmem).2, rfl⟩

theorem Run.inv (h : Run lookups s) : Inv lookups s := by
  induction h with
  | init => exact ⟨.nil, nofun, fun who _ => by cases who <;> rfl, nofun, nofun⟩
  | grow _ hspan hfresh ih =>
    obtain ⟨hap, hlt, -⟩ := addSpan_spec ih.apart ih.lt hspan hfresh
    exact { ih with apart := hap, lt := hlt }
  | regMrCuda _ hpos _ hregion hcall ih => exact ih.regMrCuda hpos hregion hcall
  | requestAddress _ hin hregion hcall ih => exact (ih.requestAddress hin hregion hcall).1
  | reply _ hcall ih => exact (ih.reply hcall).1

theorem Inv.firstCovers_iff (h : Inv lookups s) (hregion : s.mappedRegion address = some region)
    (who : Option ℕ) : FirstCovers lookups s who address bytes ↔
      ∀ e, s.extent who region.start = some e → address + bytes ≤ e.stop := by
  rw [h.extent]
  exact ⟨fun hfirst e => hfirst region e hregion, fun hfirst region' e hregion' =>
    some.inj (hregion.symm.trans hregion') ▸ hfirst e⟩

end Run

theorem inside_one {s : State} {address : ℕ} (h : s.mapped.any (·.has address) = true) :
    s.Inside address 1 := fun i hi => by
  rwa [Nat.lt_one_iff.mp hi]

end IpcMapper
