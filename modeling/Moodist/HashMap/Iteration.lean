import Moodist.Foundation.Sweep
import Moodist.HashMap.Refinement

/-!
# Iterating with `erase`

A loop from `begin()` to `end()` that at each entry either advances or calls `i = erase(i)`. Both
tables laid out one after the other are swept over; `erase` puts the last entry of the chain in the
place of the erased one.
-/

namespace Moodist.HashMap

open Foundation Slots List Function Option

universe u v

variable {κ : Type u} {ν : Type v} {m' : HashMap κ ν}

/-- The loop: the map, the iterator, and the entries it was at, each with whether it was
erased. -/
structure Loop (κ : Type u) (ν : Type v) where
  map : HashMap κ ν
  i : Iterator
  visited : List ((κ × ν) × Bool)

open Loop

def Loop.step (erase : Bool) (s : Loop κ ν) : Option (Loop κ ν) :=
  if s.i.v then
    (s.map.entry s.i).bind fun e =>
      if erase then
        (s.map.eraseAt s.i).map fun r => ⟨r.1, r.2, s.visited ++ [(e, true)]⟩
      else some ⟨s.map, s.map.next s.i, s.visited ++ [(e, false)]⟩
  else some s

/-- The loop over `m` after `k` rounds, where `choices` says in which rounds it erases. -/
def Loop.run (choices : ℕ → Bool) (m : HashMap κ ν) : ℕ → Option (Loop κ ν)
  | 0 => some ⟨m, m.begin, []⟩
  | k + 1 => (Loop.run choices m k).bind (Loop.step (choices k))

/-! ## Both tables as one -/

def flat (m : HashMap κ ν) (p : ℕ) : Option (κ × ν) :=
  if p < m.ksize then (m.primary p).map fun pv => (pv.key, pv.value)
  else (m.secondary (p - m.ksize)).map fun sv => (sv.key, sv.value)

/-- Where an iterator is in both tables laid out one after the other. -/
def pos (m : HashMap κ ν) (i : Iterator) : ℕ :=
  if i.v then i.vi.elim i.ki fun j => m.ksize + j else m.ksize + m.ksize

/-- An iterator that has ended or is at an entry. -/
inductive Points (m : HashMap κ ν) : Iterator → Prop
  | ended {i : Iterator} (hi : i.v = false) : Points m i
  | primary {k : ℕ} {pv : PrimaryItem κ ν} (hk : m.primary k = some pv) :
    Points m ⟨k, none, true⟩
  | secondary (ki : ℕ) {j : ℕ} {sv : SecondaryItem κ ν} (hj : m.secondary j = some sv) :
    Points m ⟨ki, some j, true⟩

section Flat

variable {hash : κ → UInt64} {m : HashMap κ ν} {i : Iterator} {k j : ℕ} {key : κ} {value : ν}
  {pv : PrimaryItem κ ν} {sv lv : SecondaryItem κ ν}

theorem flat_of_lt (hk : k < m.ksize) :
    m.flat k = (m.primary k).map fun pv => (pv.key, pv.value) := if_pos hk

theorem flat_add (m : HashMap κ ν) (j : ℕ) :
    m.flat (m.ksize + j) = (m.secondary j).map fun sv => (sv.key, sv.value) := by
  rw [flat, if_neg (by omega), Nat.add_sub_cancel_left]

theorem entries_flat (m : HashMap κ ν) : Slots.entries m.flat (m.ksize + m.ksize) = m.entries := by
  rw [Slots.entries, range_add, filterMap_append, filterMap_map,
    HashMap.entries, Slots.entries, Slots.entries, map_filterMap, map_filterMap]
  congr 1
  · exact filterMap_congr fun k hk => flat_of_lt (mem_range.1 hk)
  · exact filterMap_congr fun j _ => flat_add m j

@[simp] theorem pos_primary (m : HashMap κ ν) (k : ℕ) : m.pos ⟨k, none, true⟩ = k := rfl

@[simp] theorem pos_secondary (m : HashMap κ ν) (ki j : ℕ) :
    m.pos ⟨ki, some j, true⟩ = m.ksize + j := rfl

@[simp] theorem pos_end' (m : HashMap κ ν) : m.pos end' = m.ksize + m.ksize := rfl

theorem pos_ended (hi : i.v = false) : m.pos i = m.ksize + m.ksize := by
  simp [pos, hi]

/-- The first entry of the secondary table at or after a slot. -/
theorem pos_secondaryFrom (m : HashMap κ ν) (g : SecondaryItem κ ν → ℕ) {a : ℕ} (ha : a ≤ m.ksize) :
    m.pos (m.secondaryFrom g a) = nextFrom m.flat (m.ksize + m.ksize) (m.ksize + a) ∧
      Points m (m.secondaryFrom g a) := by
  unfold secondaryFrom
  split
  · rename_i j hfirst
    obtain ⟨⟨haj, hj, hsome⟩, hfree⟩ := firstFrom_eq_some.1 hfirst
    obtain ⟨sv, hsv⟩ := isSome_iff_exists.1 hsome
    rw [pos_secondary]
    refine ⟨(nextFrom_eq (by omega) (by omega) (fun p hp hpj => ?_) fun _ => ?_).symm,
      .secondary _ hsv⟩
    · obtain ⟨d, rfl⟩ := Nat.exists_eq_add_of_le (show m.ksize ≤ p by omega)
      rw [flat_add, hfree d (by omega) (by omega), map_none]
    · simp [flat_add, hsv]
  · rename_i hfirst
    have hfree := firstFrom_eq_none.1 hfirst
    rw [pos_end']
    refine ⟨(nextFrom_eq (by omega) (le_refl _) (fun p hp hpn => ?_) fun h => ?_).symm, .ended rfl⟩
    · obtain ⟨d, rfl⟩ := Nat.exists_eq_add_of_le (show m.ksize ≤ p by omega)
      rw [flat_add, hfree d (by omega) (by omega), map_none]
    · exact absurd h (lt_irrefl _)

/-- The first entry of the primary table at or after a slot, or what comes after it. -/
theorem pos_primaryFrom (m : HashMap κ ν) {after : Iterator} {a : ℕ} (ha : a ≤ m.ksize)
    (hafter : m.pos after = nextFrom m.flat (m.ksize + m.ksize) m.ksize ∧ Points m after) :
    m.pos ((firstFrom m.primary m.ksize a).elim after fun k => ⟨k, none, true⟩) =
        nextFrom m.flat (m.ksize + m.ksize) a ∧
      Points m ((firstFrom m.primary m.ksize a).elim after fun k => ⟨k, none, true⟩) := by
  cases hfirst : firstFrom m.primary m.ksize a with
  | some k =>
    obtain ⟨⟨hak, hk, hsome⟩, hfree⟩ := firstFrom_eq_some.1 hfirst
    obtain ⟨pv, hpv⟩ := isSome_iff_exists.1 hsome
    rw [elim_some, pos_primary]
    refine ⟨(nextFrom_eq hak (by omega) (fun p hp hpk => ?_) fun _ => ?_).symm, .primary hpv⟩
    · rw [flat_of_lt (by omega), hfree p hp hpk, map_none]
    · simp [flat_of_lt hk, hpv]
  | none =>
    have hfree := firstFrom_eq_none.1 hfirst
    obtain ⟨hlow, hle, hfree', hsome⟩ :=
      nextFrom_spec m.flat (show m.ksize ≤ m.ksize + m.ksize by omega)
    rw [elim_none, hafter.1]
    refine ⟨(nextFrom_eq (by omega) hle (fun p hp hpk => ?_) hsome).symm, hafter.2⟩
    obtain hlt | hge := Nat.lt_or_ge p m.ksize
    · rw [flat_of_lt hlt, hfree p hp hlt, map_none]
    · exact hfree' p hge hpk

/-- `operator++` goes to the next entry of both tables. -/
theorem Wf.pos_next (h : Wf hash m) (hi : Points m i) (hv : i.v = true) :
    m.pos (m.next i) = nextFrom m.flat (m.ksize + m.ksize) (m.pos i + 1) ∧
      Points m (m.next i) := by
  cases hi with
  | ended hi =>
    rw [hi] at hv
    cases hv
  | @primary k pv hk =>
    have hnext : m.next ⟨k, none, true⟩ = (firstFrom m.primary m.ksize (k + 1)).elim
        (m.secondaryFrom SecondaryItem.index 0) fun k => ⟨k, none, true⟩ := by
      rw [next]
      cases firstFrom m.primary m.ksize (k + 1) <;> rfl
    rw [hnext]
    exact pos_primaryFrom m (h.primary_lt hk)
      (pos_secondaryFrom m SecondaryItem.index (Nat.zero_le _))
  | @secondary ki j sv hj =>
    exact pos_secondaryFrom m (fun _ => ki) (h.secondary_lt hj)

/-- `begin()` is at the first entry of both tables. -/
theorem Wf.pos_begin (h : Wf hash m) :
    m.pos m.begin = nextFrom m.flat (m.ksize + m.ksize) 0 ∧ Points m m.begin := by
  let after : Iterator := (firstFrom m.secondary m.ksize 0).elim end' fun j => ⟨j, some j, true⟩
  have hbegin : m.begin = (firstFrom m.primary m.ksize 0).elim after
      fun k => ⟨k, none, true⟩ := by
    rw [begin, if_pos h.allocated]
    cases firstFrom m.primary m.ksize 0 with
    | some k => rfl
    | none =>
      simp only [elim_none, after]
      cases firstFrom m.secondary m.ksize 0 <;> rfl
  -- the iterator has the slot for its home slot there, which makes no difference to `pos`
  have hafter : m.pos after = nextFrom m.flat (m.ksize + m.ksize) m.ksize ∧ Points m after := by
    obtain ⟨hpos, hpoints⟩ := pos_secondaryFrom m SecondaryItem.index (Nat.zero_le m.ksize)
    unfold secondaryFrom at hpos hpoints
    cases hfirst : firstFrom m.secondary m.ksize 0 with
    | some j =>
      obtain ⟨⟨-, -, hsome⟩, -⟩ := firstFrom_eq_some.1 hfirst
      obtain ⟨sv, hsv⟩ := isSome_iff_exists.1 hsome
      simp only [hfirst, pos_secondary, Nat.add_zero] at hpos
      simp only [after, hfirst, elim_some, pos_secondary]
      exact ⟨hpos, .secondary j hsv⟩
    | none =>
      simp only [hfirst, Nat.add_zero] at hpos
      simp only [after, hfirst, elim_none]
      exact ⟨hpos, .ended rfl⟩
  rw [hbegin]
  exact pos_primaryFrom m (Nat.zero_le _) hafter

/-- An iterator stays at an entry when its slot is still occupied. -/
theorem Points.transfer (hi : Points m i) (h : Wf hash m)
    (hksize : m'.ksize = m.ksize) (hsome : i.v = true → (m'.flat (m.pos i)).isSome) :
    Points m' i := by
  cases hi with
  | ended hi => exact .ended hi
  | @primary k pv hk =>
    have hflat := hsome rfl
    rw [pos_primary, flat_of_lt (hksize ▸ h.primary_lt hk), isSome_map] at hflat
    obtain ⟨pv', hpv'⟩ := isSome_iff_exists.1 hflat
    exact .primary hpv'
  | @secondary ki j sv hj =>
    have hflat := hsome rfl
    rw [pos_secondary, ← hksize, flat_add, isSome_map] at hflat
    obtain ⟨sv', hsv'⟩ := isSome_iff_exists.1 hflat
    exact .secondary ki hsv'

theorem pos_congr (hksize : m'.ksize = m.ksize) (i : Iterator) :
    m'.pos i = m.pos i := by
  simp only [pos, hksize]

theorem Points.flat_isSome (hi : Points m i) (h : Wf hash m) (hv : i.v = true) :
    (m.flat (m.pos i)).isSome ∧ m.pos i < m.ksize + m.ksize := by
  cases hi with
  | ended hi =>
    rw [hi] at hv
    cases hv
  | @primary k pv hk =>
    have hlt := h.primary_lt hk
    exact ⟨by simp [flat_of_lt hlt, hk], by rw [pos_primary]; omega⟩
  | @secondary ki j sv hj =>
    have hlt := h.secondary_lt hj
    exact ⟨by simp [flat_add, hj], by rw [pos_secondary]; omega⟩

theorem Points.entry_eq (hi : Points m i) (h : Wf hash m) (hv : i.v = true) :
    m.entry i = m.flat (m.pos i) := by
  cases hi with
  | ended hi =>
    rw [hi] at hv
    cases hv
  | @primary k pv hk => simp [entry, flat_of_lt (h.primary_lt hk), hk]
  | @secondary ki j sv hj => simp [entry, flat_add, hj]

/-! ## What `erase` does to both tables -/

theorem flat_clearPrimary (m : HashMap κ ν) (hk : k < m.ksize) (n : ℕ) :
    flat { m with msize := n, primary := update m.primary k none } =
      update m.flat k none := by
  funext p
  by_cases hp : p = k
  · subst hp
    simp [flat, hk]
  · simp [flat, update_of_ne hp]

theorem flat_replacePrimary (m : HashMap κ ν) (hk : k < m.ksize) (pv : PrimaryItem κ ν)
    (key : κ) (value : ν) :
    flat (m.replacePrimary k pv key value) = update m.flat k (some (key, value)) := by
  funext p
  by_cases hp : p = k
  · subst hp
    simp [flat, replacePrimary, hk]
  · simp [flat, replacePrimary, update_of_ne hp]

theorem flat_replaceSecondary (m : HashMap κ ν) (j : ℕ) (sv : SecondaryItem κ ν)
    (key : κ) (value : ν) :
    flat (m.replaceSecondary j sv key value) =
      update m.flat (m.ksize + j) (some (key, value)) := by
  funext p
  by_cases hp : p = m.ksize + j
  · subst hp
    simp [flat, replaceSecondary]
  · have hne : ¬ p < m.ksize → p - m.ksize ≠ j := by omega
    by_cases hlt : p < m.ksize
    · simp [flat, replaceSecondary, update_of_ne hp, hlt]
    · simp [flat, replaceSecondary, update_of_ne hp, hlt, update_of_ne (hne hlt)]

variable (hk : m.primary k = some pv)

include hk

theorem flat_dropLast :
    flat (m.dropLast k pv) =
      update m.flat (m.ksize + m.lastIndex k pv) none := by
  funext p
  by_cases hp : p = m.ksize + m.lastIndex k pv
  · subst hp
    simp [flat, dropLast]
  · by_cases hlt : p < m.ksize
    · by_cases hpk : p = k
      · subst hpk
        simp [flat, dropLast, shrunk, update_of_ne hp, hlt, hk]
      · simp [flat, dropLast, update_of_ne hp, hlt, update_of_ne hpk]
    · have hne : p - m.ksize ≠ m.lastIndex k pv := by omega
      simp [flat, dropLast, update_of_ne hp, hlt, update_of_ne hne]

theorem flat_chain (hlt : k < m.ksize) (pv' : PrimaryItem κ ν) (key : κ) (value : ν) :
    flat ((m.dropLast k pv).replacePrimary k pv' key value) =
      update (update m.flat k (some (key, value)))
        (m.ksize + m.lastIndex k pv) none := by
  have hne : m.ksize + m.lastIndex k pv ≠ k := by omega
  rw [flat_replacePrimary (m.dropLast k pv) hlt, flat_dropLast hk, update_comm hne]

theorem flat_move (hj : m.lastIndex k pv ≠ j) (sv : SecondaryItem κ ν) (key : κ) (value : ν) :
    flat ((m.dropLast k pv).replaceSecondary j sv key value) =
      update (update m.flat (m.ksize + j) (some (key, value)))
        (m.ksize + m.lastIndex k pv) none := by
  have hne : m.ksize + m.lastIndex k pv ≠ m.ksize + j := by omega
  rw [flat_replaceSecondary, flat_dropLast hk]
  exact update_comm hne _ _ _

end Flat

/-! ## Safe rounds -/

/-- The iterator is in the primary table, or it knows the home slot of its entry and the
last entry of the chain does not come before it. -/
def SafeErase (m : HashMap κ ν) (i : Iterator) : Prop :=
  ∀ j, i.vi = some j → ∃ sv pv, m.secondary j = some sv ∧ sv.index = i.ki ∧
    m.primary i.ki = some pv ∧ j ≤ m.lastIndex i.ki pv

/-- What holds in every round while each `erase` was safe. -/
structure Going (hash : κ → UInt64) (m : HashMap κ ν) (s : Loop κ ν) : Prop where
  wf : Wf hash s.map
  ksize : s.map.ksize = m.ksize
  points : Points s.map s.i
  sweep : Sweep m.flat (m.ksize + m.ksize) s.map.flat (s.map.pos s.i) s.visited

namespace Going

variable {hash : κ → UInt64} {m : HashMap κ ν} {s : Loop κ ν}

theorem start (h : Wf hash m) : Going hash m ⟨m, m.begin, []⟩ := by
  obtain ⟨hpos, hpoints⟩ := h.pos_begin
  refine ⟨h, rfl, hpoints, ?_⟩
  dsimp only
  rw [hpos]
  exact Sweep.start _ _

variable (h : Going hash m s) (hv : s.i.v = true)

include h hv

theorem pos_lt : s.map.pos s.i < m.ksize + m.ksize := by
  have hlt := (h.points.flat_isSome h.wf hv).2
  rwa [h.ksize] at hlt

variable {e : κ × ν}

theorem keep (he : s.map.flat (s.map.pos s.i) = some e) :
    Going hash m ⟨s.map, s.map.next s.i, s.visited ++ [(e, false)]⟩ := by
  obtain ⟨hpos, hpoints⟩ := h.wf.pos_next h.points hv
  refine ⟨h.wf, h.ksize, hpoints, ?_⟩
  dsimp only
  rw [hpos, h.ksize]
  exact h.sweep.keep (h.pos_lt hv) he

/-- Erasing where the slot becomes free. -/
theorem clear (he : s.map.flat (s.map.pos s.i) = some e)
    (hwf : Wf hash m') (hksize : m'.ksize = s.map.ksize)
    (hflat : m'.flat = update s.map.flat (s.map.pos s.i) none) :
    Going hash m ⟨m', s.map.next s.i, s.visited ++ [(e, true)]⟩ := by
  have hlt := h.pos_lt hv
  obtain ⟨hpos, hpoints⟩ := h.wf.pos_next h.points hv
  refine ⟨hwf, hksize.trans h.ksize, ?_, ?_⟩
  · refine hpoints.transfer h.wf hksize fun hv' => ?_
    have hafter := (nextFrom_spec s.map.flat
      (show s.map.pos s.i + 1 ≤ s.map.ksize + s.map.ksize by rw [h.ksize]; omega)).1
    rw [hflat, update_of_ne (by rw [hpos]; omega)]
    exact (hpoints.flat_isSome h.wf hv').1
  · dsimp only
    rw [pos_congr hksize, hpos, hflat, h.ksize]
    exact h.sweep.clear hlt he

/-- Erasing where an entry from further on is moved into the slot. -/
theorem move {e e' : κ × ν} {q : ℕ} (he : s.map.flat (s.map.pos s.i) = some e) (hwf : Wf hash m')
    (hksize : m'.ksize = s.map.ksize) (hq : s.map.pos s.i < q) (hqn : q < m.ksize + m.ksize)
    (he' : s.map.flat q = some e')
    (hflat : m'.flat = update (update s.map.flat (s.map.pos s.i) (some e'))
      q none) :
    Going hash m ⟨m', s.i, s.visited ++ [(e, true)]⟩ := by
  refine ⟨hwf, hksize.trans h.ksize, ?_, ?_⟩
  · refine h.points.transfer h.wf hksize fun _ => ?_
    rw [hflat, update_of_ne hq.ne, update_self, isSome_some]
  · dsimp only
    rw [pos_congr hksize, hflat]
    exact h.sweep.move (h.pos_lt hv) he hq hqn he'

/-- A safe `erase`. -/
theorem erase (hsafe : SafeErase s.map s.i)
    (he : s.map.flat (s.map.pos s.i) = some e) : ∃ r, s.map.eraseAt s.i = some r ∧
      Going hash m ⟨r.1, r.2, s.visited ++ [(e, true)]⟩ := by
  obtain ⟨map, i, visited⟩ := s
  have hwf := h.wf
  have hksize := h.ksize
  have hpoints := h.points
  dsimp only at hv hsafe he hwf hksize hpoints ⊢
  cases hpoints with
  | ended hi =>
    rw [hi] at hv
    cases hv
  | @primary k pv hk =>
    have hlt := hwf.primary_lt hk
    -- alone in its slot, or replaced by the last entry of its chain, which is further on
    obtain hsize | hsize := Nat.eq_zero_or_pos pv.size
    · exact ⟨_, eraseAt_single hk hsize _, h.clear hv he (hwf.clearPrimary hk hsize) rfl
        (flat_clearPrimary map hlt _)⟩
    · obtain ⟨lv, hlv, hindex⟩ := hwf.exists_last hk hsize
      have hlast := hwf.secondary_lt hlv
      have hq : map.pos ⟨k, none, true⟩ < map.ksize + map.lastIndex k pv := by
        rw [pos_primary]
        omega
      have he' : map.flat (map.ksize + map.lastIndex k pv) = some (lv.key, lv.value) := by
        rw [flat_add, hlv, map_some]
      exact ⟨_, eraseAt_chain hk hsize hlv _, h.move hv he
        (hwf.erased_chain hk hsize hlv hindex).wf rfl hq (by omega) he'
        (flat_chain hk hlt _ _ _)⟩
  | @secondary ki j sv hj =>
    obtain ⟨sv', pv, hsv', hindex, hpv, hle⟩ := hsafe j rfl
    rw [hj, some.injEq] at hsv'
    subst hsv'
    dsimp only at hindex hpv hle
    obtain ⟨-, pv', d, hpv', hd, hjd⟩ := hwf.chain hj
    rw [hindex, hpv, some.injEq] at hpv'
    subst hpv'
    have hsize : 0 < pv.size := by omega
    obtain ⟨lv, hlv, hlindex⟩ := hwf.exists_last hpv hsize
    have hlast := hwf.secondary_lt hlv
    -- the last entry of the chain is dropped; any other one is replaced by the last
    by_cases hne : map.lastIndex ki pv = j
    · subst hne
      exact ⟨_, eraseAt_last hpv hsize hlv _, h.clear hv he (hwf.dropLast hpv hsize) rfl
        (flat_dropLast hpv)⟩
    · have hq : map.pos ⟨ki, some j, true⟩ < map.ksize + map.lastIndex ki pv := by
        rw [pos_secondary]
        omega
      have he' : map.flat (map.ksize + map.lastIndex ki pv) = some (lv.key, lv.value) := by
        rw [flat_add, hlv, map_some]
      exact ⟨_, eraseAt_move hpv hsize hlv hj hne _, h.move hv he
        (hwf.erased_move hpv hsize hlv hlindex hj hindex hne).wf rfl hq (by omega) he'
        (flat_move hpv hne _ _ _)⟩

end Going

/-! ## Rounds of the loop -/

namespace Loop

variable {hash : κ → UInt64} {m : HashMap κ ν} {s s' : Loop κ ν} {choices : ℕ → Bool}
  {b : Bool} {k n : ℕ}

theorem step_ended (h : s.i.v = false) (b : Bool) : s.step b = some s := by
  simp [step, h]

/-- A round that is not after the end looks at one entry. -/
theorem exists_visited (h : s.step b = some s') (hv : s.i.v = true) :
    ∃ e, s.map.entry s.i = some e ∧ s'.visited = s.visited ++ [(e, b)] := by
  rw [step, if_pos hv] at h
  obtain ⟨e, he, h⟩ := bind_eq_some_iff.1 h
  refine ⟨e, he, ?_⟩
  cases b with
  | true =>
    rw [if_pos rfl] at h
    obtain ⟨r, -, rfl⟩ := map_eq_some_iff.1 h
    rfl
  | false =>
    rw [if_neg Bool.false_ne_true, some.injEq] at h
    rw [← h]

theorem visited_mono_step (h : s.step b = some s') : ∃ t, s'.visited = s.visited ++ t := by
  cases hv : s.i.v with
  | false =>
    rw [step_ended hv, some.injEq] at h
    exact ⟨[], by rw [h, append_nil]⟩
  | true =>
    obtain ⟨e, -, heq⟩ := exists_visited h hv
    exact ⟨_, heq⟩

/-- The rounds between two points of a loop. -/
theorem exists_run_le (h : run choices m n = some s') (hkn : k ≤ n) :
    ∃ s, run choices m k = some s ∧ ∃ t, s'.visited = s.visited ++ t := by
  induction n, hkn using Nat.le_induction generalizing s' with
  | base => exact ⟨s', h, [], (append_nil _).symm⟩
  | succ n _ ih =>
    obtain ⟨s₁, h₁, hstep⟩ := bind_eq_some_iff.1 h
    obtain ⟨s, hs, t, ht⟩ := ih h₁
    obtain ⟨t', ht'⟩ := visited_mono_step hstep
    exact ⟨s, hs, t ++ t', by rw [ht', ht, append_assoc]⟩

theorem run_ended (h : run choices m k = some s) (hv : s.i.v = false) (hkn : k ≤ n) :
    run choices m n = some s := by
  induction n, hkn using Nat.le_induction with
  | base => exact h
  | succ n _ ih => rw [run, ih, bind_some, step_ended hv]

end Loop

namespace Going

variable {hash : κ → UInt64} {m : HashMap κ ν} {s : Loop κ ν} {choices : ℕ → Bool} {k : ℕ}

theorem exists_step (h : Going hash m s) {b : Bool}
    (hsafe : s.i.v = true → b = true → SafeErase s.map s.i) :
    ∃ s', s.step b = some s' ∧ Going hash m s' := by
  cases hv : s.i.v with
  | false => exact ⟨s, step_ended hv b, h⟩
  | true =>
    obtain ⟨e, he⟩ := isSome_iff_exists.1 (h.points.flat_isSome h.wf hv).1
    have hentry := (h.points.entry_eq h.wf hv).trans he
    cases b with
    | false =>
      exact ⟨_, by simp [Loop.step, hv, hentry], h.keep hv he⟩
    | true =>
      obtain ⟨r, hr, hgoing⟩ := h.erase hv (hsafe hv rfl) he
      exact ⟨_, by simp [Loop.step, hv, hentry, hr], hgoing⟩

/-- Every number of rounds, while each `erase` is safe. -/
theorem exists_run (h : Wf hash m)
    (hsafe : ∀ k' < k, ∀ s, Loop.run choices m k' = some s → s.i.v = true →
      choices k' = true → SafeErase s.map s.i) :
    ∃ s, Loop.run choices m k = some s ∧ Going hash m s ∧
      (s.i.v = true → s.visited.length = k) := by
  induction k with
  | zero => exact ⟨_, rfl, start h, fun _ => rfl⟩
  | succ k ih =>
    obtain ⟨s, hrun, hgoing, hlen⟩ := ih fun k' hk' => hsafe k' (by omega)
    obtain ⟨s', hstep, hgoing'⟩ := hgoing.exists_step (hsafe k (by omega) s hrun)
    refine ⟨s', by rw [Loop.run, hrun, bind_some, hstep], hgoing', fun hv' => ?_⟩
    cases hv : s.i.v with
    | false =>
      rw [step_ended hv, some.injEq] at hstep
      rw [← hstep, hv] at hv'
      cases hv'
    | true =>
      obtain ⟨e, -, heq⟩ := exists_visited hstep hv
      rw [heq, length_append, hlen hv, length_singleton]

end Going

/-- The loop has visited each entry of `m` once, and what is left is a map that holds the
entries it did not erase. -/
structure Loop.Correct [DecidableEq κ] (hash : κ → UInt64) (m : HashMap κ ν) (s : Loop κ ν) :
    Prop where
  visited : Perm (s.visited.map Prod.fst) m.entries
  inv : Inv hash s.map
  get : ∀ key value, s.map.get hash key = some value ↔ ((key, value), false) ∈ s.visited

section Sufficient

variable [DecidableEq κ] {hash : κ → UInt64} {m : HashMap κ ν} {s : Loop κ ν}

/-- A loop that has ended with safe rounds only. -/
theorem Going.correct (h : Going hash m s) (hv : s.i.v = false) : s.Correct hash m := by
  have hsweep := h.sweep
  rw [pos_ended hv, h.ksize] at hsweep
  refine ⟨?_, Or.inr h.wf, fun key value => ?_⟩
  · rw [← entries_flat]
    exact hsweep.visited_perm
  · have hmem := hsweep.kept.mem_iff (a := (key, value))
    rw [← h.ksize, entries_flat] at hmem
    rw [h.wf.get_eq_some_iff, h.wf.contains_iff_mem, hmem]
    simp

theorem Wf.exists_correct (h : Wf hash m) {choices : ℕ → Bool}
    (hsafe : ∀ k s, Loop.run choices m k = some s → s.i.v = true → choices k = true →
      SafeErase s.map s.i) :
    ∃ k s, Loop.run choices m k = some s ∧ s.i.v = false ∧ s.Correct hash m := by
  obtain ⟨s, hrun, hgoing, hlen⟩ := Going.exists_run (k := m.msize + 1) h fun k _ => hsafe k
  have hended : s.i.v = false := by
    by_contra hv
    have hperm := hgoing.sweep.perm.length_eq
    rw [entries_flat, h.length_entries, length_append, length_map,
      hlen (by simpa using hv)] at hperm
    omega
  exact ⟨_, s, hrun, hended, hgoing.correct hended⟩

end Sufficient

/-! ## Erasing with the home slot of another chain -/

/-- The chain of slot `a` holds keys of that slot and ends at a slot of its own. -/
structure ChainOk (hash : κ → UInt64) (a : ℕ) (m : HashMap κ ν) : Prop where
  own : ∀ {j sv}, m.secondary j = some sv → sv.index = a → slot hash m.ksize sv.key = a
  last : ∀ {pv}, m.primary a = some pv → 0 < pv.size →
    ∃ lv, m.secondary (m.lastIndex a pv) = some lv ∧ lv.index = a

/-- Slot `j` of the secondary table holds a key of slot `a`, marked as one of another. -/
def Misplaced (hash : κ → UInt64) (a j : ℕ) (m : HashMap κ ν) : Prop :=
  ∃ x, m.secondary j = some x ∧ x.index ≠ a ∧ slot hash m.ksize x.key = a

section Misplaced

variable {hash : κ → UInt64} {m : HashMap κ ν} {i' : Iterator} {a j j₀ : ℕ} {sv : SecondaryItem κ ν}

theorem Wf.chainOk (h : Wf hash m) (a : ℕ) : ChainOk hash a m where
  own hj hindex := (h.chain hj).1.symm.trans hindex
  last hk hsize := h.exists_last hk hsize

theorem Misplaced.not_inv (h : Misplaced hash a j m) : ¬ Inv hash m := by
  obtain ⟨x, hx, hindex, hslot⟩ := h
  rintro (rfl | hwf)
  · cases hx
  · exact hindex ((hwf.chain hx).1.trans hslot)

/-- What `erase` reads in the secondary table. -/
theorem exists_of_eraseAt {v : Bool} (h : m.eraseAt ⟨a, some j, v⟩ = some (m', i')) :
    ∃ pv sv lv, m.primary a = some pv ∧ 0 < pv.size ∧ m.secondary j = some sv ∧
      m.secondary (m.lastIndex a pv) = some lv := by
  unfold eraseAt at h
  obtain ⟨pv, hpv, h⟩ := bind_eq_some_iff.1 h
  by_cases hsize : pv.size = 0
  · simp only [if_pos hsize, reduceCtorEq] at h
  simp only [if_neg hsize] at h
  obtain ⟨sv, hsv, h⟩ := bind_eq_some_iff.1 h
  obtain ⟨lv, hlv, -⟩ := map_eq_some_iff.1 h
  exact ⟨pv, sv, lv, hpv, by omega, hsv, hlv⟩

theorem ChainOk.dropLast (h : ChainOk hash a m) (pv : PrimaryItem κ ν) :
    ChainOk hash a (m.dropLast a pv) where
  own hj := h.own (update_none_eq_some.1 hj).2
  last := by
    intro pv' hpv' hsize
    obtain ⟨-, rfl⟩ | ⟨hne, -⟩ := update_some_eq_some.1 hpv'
    · exact Wf.shrink_pos hsize
    · exact absurd rfl hne

theorem ChainOk.replaceSecondary (h : ChainOk hash a m) (hj : m.secondary j = some sv)
    {key : κ} (hkey : slot hash m.ksize key = a) (value : ν) :
    ChainOk hash a (m.replaceSecondary j sv key value) where
  own := by
    intro j' sv' hj' hindex
    obtain ⟨-, rfl⟩ | ⟨-, hold⟩ := update_some_eq_some.1 hj'
    · exact hkey
    · exact h.own hold hindex
  last := by
    intro pv' hpv' hsize
    obtain ⟨lv, hlv, hindex⟩ := h.last hpv' hsize
    by_cases heq : m.lastIndex a pv' = j
    · rw [heq, hj, some.injEq] at hlv
      subst hlv
      exact ⟨_, update_some_eq_some.2 (Or.inl ⟨heq, rfl⟩), hindex⟩
    · exact ⟨lv, update_some_eq_some.2 (Or.inr ⟨heq, hlv⟩), hindex⟩

/-- Erasing with home slot `a` an entry that belongs to another chain leaves an entry of
slot `a` there, and one that is misplaced stays so. -/
theorem ChainOk.eraseAt (h : ChainOk hash a m) {v : Bool}
    (herase : m.eraseAt ⟨a, some j, v⟩ = some (m', i')) {x : SecondaryItem κ ν}
    (hx : m.secondary j₀ = some x) (hindex : x.index ≠ a)
    (hslot : j₀ = j ∨ slot hash m.ksize x.key = a) :
    ChainOk hash a m' ∧ Misplaced hash a j₀ m' ∧
      (i' = ⟨a, some j, v⟩ ∨ i' = m.next ⟨a, some j, v⟩) := by
  obtain ⟨pv, sv, lv, hpv, hsize, hj, hlv⟩ := exists_of_eraseAt herase
  obtain ⟨lv', hlv', hlindex⟩ := h.last hpv hsize
  rw [hlv, some.injEq] at hlv'
  subst hlv'
  -- the last entry of the chain is at home, so the misplaced one is not dropped
  have hlast : j₀ ≠ m.lastIndex a pv := by
    rintro rfl
    rw [hlv, some.injEq] at hx
    exact hindex (hx ▸ hlindex)
  have hdrop : (m.dropLast a pv).secondary j₀ = some x := update_none_eq_some.2 ⟨hlast, hx⟩
  by_cases hne : m.lastIndex a pv = j
  · subst hne
    rw [eraseAt_last hpv hsize hlv, some.injEq, Prod.mk.injEq] at herase
    obtain ⟨rfl, rfl⟩ := herase
    obtain heq | hslot := hslot
    · exact absurd heq hlast
    · exact ⟨h.dropLast pv, ⟨x, hdrop, hindex, hslot⟩, Or.inr rfl⟩
  · rw [eraseAt_move hpv hsize hlv hj hne, some.injEq, Prod.mk.injEq] at herase
    obtain ⟨rfl, rfl⟩ := herase
    have hdropj : (m.dropLast a pv).secondary j = some sv := update_none_eq_some.2 ⟨Ne.symm hne, hj⟩
    have hkey : slot hash m.ksize lv.key = a := h.own hlv hlindex
    refine ⟨(h.dropLast pv).replaceSecondary hdropj hkey _, ?_, Or.inl rfl⟩
    by_cases heq : j₀ = j
    · subst heq
      rw [hj, some.injEq] at hx
      exact ⟨_, update_self .., by rw [hx]; exact hindex, hkey⟩
    · exact ⟨x, update_some_eq_some.2 (Or.inr ⟨heq, hdrop⟩), hindex, hslot.resolve_left heq⟩

end Misplaced

/-- What holds from the first such `erase` on. -/
structure Lost (hash : κ → UInt64) (a j₀ : ℕ) (s : Loop κ ν) : Prop where
  iter : s.i.v = true → ∃ j, s.i = ⟨a, some j, true⟩
  chain : ChainOk hash a s.map
  misplaced : Misplaced hash a j₀ s.map

namespace Lost

variable {hash : κ → UInt64} {m : HashMap κ ν} {s s' : Loop κ ν} {a j₀ k n : ℕ}
  {choices : ℕ → Bool}

theorem next_secondary (m : HashMap κ ν) (a j : ℕ) :
    (m.next ⟨a, some j, true⟩).v = true → ∃ j', m.next ⟨a, some j, true⟩ = ⟨a, some j', true⟩ := by
  simp only [next, secondaryFrom]
  split
  · rename_i j' hfirst
    obtain ⟨⟨-, -, hsome⟩, -⟩ := firstFrom_eq_some.1 hfirst
    obtain ⟨sv, hsv⟩ := isSome_iff_exists.1 hsome
    exact fun _ => ⟨j', by rw [hsv, elim_some]⟩
  · intro hv
    cases hv

theorem step (h : Lost hash a j₀ s) {b : Bool} (hstep : s.step b = some s') :
    Lost hash a j₀ s' := by
  obtain ⟨map, i, visited⟩ := s
  cases hv : i.v with
  | false =>
    rw [step_ended hv, some.injEq] at hstep
    exact hstep ▸ h
  | true =>
    obtain ⟨j, hj⟩ := h.iter hv
    dsimp only at hj
    subst hj
    rw [Loop.step, if_pos rfl] at hstep
    obtain ⟨e, -, hstep⟩ := bind_eq_some_iff.1 hstep
    cases b with
    | false =>
      rw [if_neg Bool.false_ne_true, some.injEq] at hstep
      subst hstep
      exact ⟨next_secondary map a j, h.chain, h.misplaced⟩
    | true =>
      rw [if_pos rfl] at hstep
      obtain ⟨⟨m', i'⟩, herase, rfl⟩ := map_eq_some_iff.1 hstep
      obtain ⟨x, hx, hindex, hslot⟩ := h.misplaced
      obtain ⟨hchain, hmis, hi'⟩ := h.chain.eraseAt herase hx hindex (Or.inr hslot)
      refine ⟨fun hv' => ?_, hchain, hmis⟩
      obtain rfl | rfl := hi'
      · exact ⟨j, rfl⟩
      · exact next_secondary map a j hv'

theorem run (h : Lost hash a j₀ s) (hk : Loop.run choices m k = some s) (hkn : k ≤ n)
    (hn : Loop.run choices m n = some s') : Lost hash a j₀ s' := by
  induction n, hkn using Nat.le_induction generalizing s' with
  | base =>
    rw [hk, some.injEq] at hn
    exact hn ▸ h
  | succ n _ ih =>
    obtain ⟨s₁, h₁, hstep⟩ := bind_eq_some_iff.1 hn
    exact (ih h₁).step hstep

end Lost

/-! ## Every `erase` has to be safe -/

section Necessary

variable {hash : κ → UInt64} {m : HashMap κ ν} {s s₁ s₂ s' : Loop κ ν}
  {choices : ℕ → Bool} {b : Bool} {ki j k n : ℕ} {pv : PrimaryItem κ ν} {sv : SecondaryItem κ ν}

/-- Erasing with the home slot of another chain ends with a misplaced entry. -/
theorem Going.index_eq (h : Going hash m s) (hi : s.i = ⟨ki, some j, true⟩)
    (hj : s.map.secondary j = some sv) (hs₁ : s.step true = some s₁)
    (hrun : Loop.run choices m k = some s₁) (hkn : k ≤ n)
    (hn : Loop.run choices m n = some s') (hinv : Inv hash s'.map) : sv.index = ki := by
  by_contra hne
  obtain ⟨map, i, visited⟩ := s
  dsimp only at hi hj
  subst hi
  rw [Loop.step, if_pos rfl] at hs₁
  obtain ⟨e, -, hs₁⟩ := bind_eq_some_iff.1 hs₁
  rw [if_pos rfl] at hs₁
  obtain ⟨⟨m₁, i₁⟩, herase, rfl⟩ := map_eq_some_iff.1 hs₁
  obtain ⟨hchain, hmis, hi₁⟩ := (h.wf.chainOk ki).eraseAt herase hj hne (Or.inl rfl)
  have hlost : Lost hash ki j ⟨m₁, i₁, visited ++ [(e, true)]⟩ := by
    refine ⟨fun hv => ?_, hchain, hmis⟩
    obtain rfl | rfl := hi₁
    · exact ⟨j, rfl⟩
    · exact Lost.next_secondary map ki j hv
  exact (hlost.run hrun hkn hn).misplaced.not_inv hinv

/-- Moving an entry from a slot that was passed makes the loop look at it again. -/
theorem Going.revisits (h : Going hash m s) (hi : s.i = ⟨ki, some j, true⟩)
    (hj : s.map.secondary j = some sv) (hindex : sv.index = ki)
    (hpv : s.map.primary ki = some pv) (hlt : s.map.lastIndex ki pv < j)
    (hs₁ : s.step true = some s₁) :
    s₁.i.v = true ∧ ∀ b s₂, s₁.step b = some s₂ → ¬ (s₂.visited.map Prod.fst).Nodup := by
  obtain ⟨map, i, visited⟩ := s
  have hwf := h.wf
  have hsweep := h.sweep
  dsimp only at hi hj hpv hlt hwf hsweep
  subst hi
  obtain ⟨-, pv', d, hpv', hd, -⟩ := hwf.chain hj
  rw [hindex, hpv, some.injEq] at hpv'
  subst hpv'
  obtain ⟨lv, hlv, -⟩ := hwf.exists_last hpv (by omega)
  rw [Loop.step, if_pos rfl] at hs₁
  obtain ⟨e, -, hs₁⟩ := bind_eq_some_iff.1 hs₁
  rw [if_pos rfl, eraseAt_move hpv (by omega) hlv hj hlt.ne, map_some, some.injEq] at hs₁
  subst hs₁
  refine ⟨rfl, fun b s₂ hs₂ hnodup => ?_⟩
  obtain ⟨e', he', hvisited⟩ := exists_visited hs₂ rfl
  have hlv' : e' = (lv.key, lv.value) := by
    simpa [entry, replaceSecondary, eq_comm] using he'
  -- the entry was in a slot before the iterator, so it was kept
  have hpassed : (lv.key, lv.value) ∈ Slots.entries map.flat (map.pos ⟨ki, some j, true⟩) :=
    mem_entries.2 ⟨map.ksize + map.lastIndex ki pv, by rw [pos_secondary]; omega,
      by rw [flat_add, hlv, map_some]⟩
  rw [hsweep.kept.mem_iff] at hpassed
  obtain ⟨x, hx, hxe⟩ := mem_map.1 hpassed
  have hold : (lv.key, lv.value) ∈ visited.map Prod.fst := mem_map.2 ⟨x, (mem_filter.1 hx).1, hxe⟩
  rw [hvisited, hlv', map_append, map_append] at hnodup
  have hdisjoint := (nodup_append.1 hnodup).2.2
  exact hdisjoint _ (mem_append_left _ hold) _ (by simp) rfl

end Necessary

def Reachable [DecidableEq κ] (hash : κ → UInt64) (itemSize : ℕ) (m : HashMap κ ν) : Prop :=
  ∃ fuel ops, run hash itemSize fuel ops = some m

section Iff

variable [DecidableEq κ] {hash : κ → UInt64} {itemSize : ℕ} {m : HashMap κ ν}
  {choices : ℕ → Bool}

/-- One round of a loop that ends correctly, when the rounds before it were safe. -/
theorem Wf.safeErase (h : Wf hash m) {n k : ℕ} {s s' : Loop κ ν}
    (hn : Loop.run choices m n = some s') (hended : s'.i.v = false) (hcorrect : s'.Correct hash m)
    (hbefore : ∀ k' < k, ∀ s, Loop.run choices m k' = some s → s.i.v = true →
      choices k' = true → SafeErase s.map s.i)
    (hk : Loop.run choices m k = some s) (hv : s.i.v = true) (hchoice : choices k = true) :
    SafeErase s.map s.i := by
  obtain ⟨s₀, hs₀, hgoing, -⟩ := Going.exists_run h hbefore
  rw [hk, some.injEq] at hs₀
  subst hs₀
  -- a loop that has ended stays where it is, so this round is before the end
  have hkn : k < n := by
    by_contra! hle
    have heq := run_ended hn hended hle
    rw [hk, some.injEq] at heq
    rw [heq, hended] at hv
    cases hv
  obtain ⟨s₁, hs₁, -⟩ := exists_run_le hn (Nat.succ_le_of_lt hkn)
  have hstep : s.step true = some s₁ := by
    rw [← hs₁, Loop.run, hk, bind_some, hchoice]
  intro j hj
  have hi : s.i = ⟨s.i.ki, some j, true⟩ := by
    rw [← hj, ← hv]
  obtain ⟨sv, hsv⟩ : ∃ sv, s.map.secondary j = some sv := by
    have hpoints := hgoing.points
    rw [hi] at hpoints
    cases hpoints with
    | ended hi => cases hi
    | secondary _ hsv => exact ⟨_, hsv⟩
  have hindex := hgoing.index_eq hi hsv hstep hs₁ hkn hn hcorrect.inv
  obtain ⟨-, pv, d, hpv, hd, -⟩ := hgoing.wf.chain hsv
  rw [hindex] at hpv
  refine ⟨sv, pv, hsv, hindex, hpv, ?_⟩
  -- otherwise the entry that takes the place has been visited, and is visited again
  by_contra! hlt
  obtain ⟨hv₁, hrevisits⟩ := hgoing.revisits hi hsv hindex hpv hlt hstep
  have hkn' : k + 1 < n := by
    refine lt_of_le_of_ne hkn ?_
    rintro rfl
    rw [hs₁, some.injEq] at hn
    rw [← hn, hv₁] at hended
    cases hended
  obtain ⟨s₂, hs₂, t, ht⟩ := exists_run_le hn (Nat.succ_le_of_lt hkn')
  have hstep₂ : s₁.step (choices (k + 1)) = some s₂ := by
    rw [← hs₂, Loop.run, hs₁, bind_some]
  refine hrevisits _ _ hstep₂ ?_
  have hnodup : (s'.visited.map Prod.fst).Nodup :=
    hcorrect.visited.nodup_iff.2 (Nodup.of_map _ h.nodup_entries)
  rw [ht, map_append] at hnodup
  exact hnodup.of_append_left

/-- A loop that erases while it iterates is correct exactly when every `erase` in the
secondary table knows the home slot of its entry, and the last entry of that chain does not
come before it. -/
theorem loop_correct_iff (hm : Reachable hash itemSize m) (choices : ℕ → Bool) :
    (∃ k s, Loop.run choices m k = some s ∧ s.i.v = false ∧ s.Correct hash m) ↔
      ∀ k s, Loop.run choices m k = some s → s.i.v = true → choices k = true →
        SafeErase s.map s.i := by
  obtain ⟨fuel, ops, hops⟩ := hm
  obtain rfl | hwf := inv_of_run hops
  · -- nothing is allocated, and the loop ends before its first round
    constructor
    · intro _ k s hk hv
      have hstart : Loop.run choices ({} : HashMap κ ν) 0 = some ⟨{}, end', []⟩ := rfl
      have hended := run_ended hstart rfl (Nat.zero_le k)
      rw [hk, some.injEq] at hended
      rw [hended] at hv
      cases hv
    · intro _
      refine ⟨0, _, rfl, rfl, Perm.refl _, Or.inl rfl, fun key value => ?_⟩
      rw [Inv.get_eq_some_iff (Or.inl rfl)]
      simp [not_contains_empty]
  · constructor
    · rintro ⟨n, s', hn, hended, hcorrect⟩ k
      induction k using Nat.strong_induction_on with
      | h k ih =>
        intro s hk hv hchoice
        exact hwf.safeErase hn hended hcorrect ih hk hv hchoice
    · exact hwf.exists_correct

end Iff

/-! ## A loop that goes wrong -/

/-- Keys zero and one have home slot zero, the others home slot eight of sixteen. -/
def twoHomes (key : ℕ) : UInt64 := if key < 2 then 0 else 0x8000000000000000

def twoChains : HashMap ℕ ℕ :=
  (run twoHomes 24 3
    [.tryEmplace 0 0, .tryEmplace 1 1, .tryEmplace 2 2, .tryEmplace 3 3]).getD {}

theorem reachable_twoChains : Reachable twoHomes 24 twoChains := by
  have hsome : (run twoHomes 24 3
      [.tryEmplace 0 0, .tryEmplace 1 1, .tryEmplace 2 2, .tryEmplace 3 3]).isSome := by
    decide +kernel
  obtain ⟨m, hm⟩ := isSome_iff_exists.1 hsome
  refine ⟨3, _, hm.trans ?_⟩
  rw [twoChains, hm, getD_some]

def safeErase (m : HashMap ℕ ℕ) (i : Iterator) : Bool :=
  match i.vi with
  | none => true
  | some j =>
    match m.secondary j, m.primary i.ki with
    | some sv, some pv => decide (sv.index = i.ki) && decide (j ≤ m.lastIndex i.ki pv)
    | _, _ => false

theorem safeErase_of_eq_true {m : HashMap ℕ ℕ} {i : Iterator} (h : safeErase m i = true) :
    SafeErase m i := by
  intro j hj
  rw [safeErase, hj] at h
  dsimp only at h
  split at h
  next sv pv hsv hpv =>
    rw [Bool.and_eq_true, decide_eq_true_eq, decide_eq_true_eq] at h
    exact ⟨sv, pv, hsv, h.1, hpv, h.2⟩
  next => cases h

/-- Key one is erased, the last one of its chain in the secondary table. -/
theorem loop_correct_twoChains :
    ((Loop.run (fun k => k = 2) twoChains 3).map fun s => s.visited.map fun e => (e.1.1, e.2)) =
      some [(0, false), (2, false), (1, true)] ∧
    ∃ k s, Loop.run (fun k => k = 2) twoChains k = some s ∧ s.i.v = false ∧
      s.Correct twoHomes twoChains := by
  refine ⟨by decide +kernel,
    (loop_correct_iff reachable_twoChains _).mpr fun k s hk _ hchoice => ?_⟩
  obtain rfl := of_decide_eq_true hchoice
  have hsafe : (Loop.run (fun k => k = 2) twoChains 2).map (fun s => safeErase s.map s.i) =
      some true := by
    decide +kernel
  rw [hk] at hsafe
  exact safeErase_of_eq_true (some.inj hsafe)

theorem run_twoChains :
    ((Loop.run (fun k => k = 3) twoChains 5).map fun s =>
        (s.i.v, s.visited.map fun e => (e.1.1, e.2), s.map.get twoHomes 1)) =
      some (false, [(0, false), (2, false), (1, false), (3, true), (1, false)], none) := by
  decide +kernel

theorem not_loop_correct_twoChains :
    Reachable twoHomes 24 twoChains ∧
      ¬ ∃ k s, Loop.run (fun k => k = 3) twoChains k = some s ∧ s.i.v = false ∧
        s.Correct twoHomes twoChains := by
  refine ⟨reachable_twoChains, ?_⟩
  rintro ⟨k, s, hk, hended, hcorrect⟩
  obtain ⟨s₅, hs₅, hvalue⟩ := map_eq_some_iff.1 run_twoChains
  rw [Prod.mk.injEq, Prod.mk.injEq] at hvalue
  have hsame : s = s₅ := by
    obtain hle | hlt := Nat.lt_or_ge 5 k
    · have heq := run_ended hs₅ hvalue.1 hle.le
      rwa [hk, some.injEq] at heq
    · have heq := run_ended hk hended hlt
      rwa [hs₅, some.injEq, eq_comm] at heq
  subst hsame
  have hlen := hcorrect.visited.length_eq
  have hfive := congrArg length hvalue.2.1
  have hfour : twoChains.entries.length = 4 := by decide +kernel
  simp only [length_map, length_cons, length_nil] at hlen hfive
  omega

end Moodist.HashMap
