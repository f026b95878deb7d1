import Moodist.HashMap.Defs

/-!
# The invariant that links the two tables

Every entry of the secondary table belongs to the chain of its home slot: the primary table holds an
entry there, and the recorded length of that chain covers the slot.
-/

namespace Moodist.HashMap

open Foundation Slots Function Option

universe u v

variable {κ : Type u} {ν : Type v}

/-- The map holds `value` for `key`, in one table or the other. -/
def Contains (m : HashMap κ ν) (key : κ) (value : ν) : Prop :=
  (∃ k pv, m.primary k = some pv ∧ pv.key = key ∧ pv.value = value) ∨
    ∃ j sv, m.secondary j = some sv ∧ sv.key = key ∧ sv.value = value

/-- The invariant of a map whose tables are allocated. -/
structure Wf (hash : κ → UInt64) (m : HashMap κ ν) : Prop where
  allocated : m.allocated
  pow : ∃ e, m.ksize = 2 ^ e
  home : ∀ {k pv}, m.primary k = some pv → slot hash m.ksize pv.key = k
  /-- An entry of the secondary table is in the chain of its home slot. -/
  chain : ∀ {j sv}, m.secondary j = some sv → sv.index = slot hash m.ksize sv.key ∧
    ∃ pv d, m.primary sv.index = some pv ∧ d < pv.size ∧ j = (sv.index + d) % m.ksize
  /-- The last slot of a chain is one of its own. -/
  last : ∀ {k pv}, m.primary k = some pv → 0 < pv.size → pv.size ≤ m.ksize ∧
    ∃ sv, m.secondary ((k + (pv.size - 1)) % m.ksize) = some sv ∧ sv.index = k
  disjoint : ∀ {k pv j sv}, m.primary k = some pv → m.secondary j = some sv →
    pv.key ≠ sv.key
  unique : ∀ {j sv j' sv'}, m.secondary j = some sv → m.secondary j' = some sv' →
    sv.key = sv'.key → j = j'
  count : m.msize = occupied m.primary m.ksize + occupied m.secondary m.ksize

theorem slot_lt (hash : κ → UInt64) {bs : ℕ} (hbs : 0 < bs) (key : κ) : slot hash bs key < bs := by
  rw [slot, Nat.div_lt_iff_lt_mul (by positivity), mul_comm bs]
  exact Nat.mul_lt_mul_of_pos_right (UInt64.toNat_lt _) hbs

namespace Wf

variable {hash : κ → UInt64} {m : HashMap κ ν} {k j : ℕ} {key : κ} {value : ν}
  {pv : PrimaryItem κ ν} {sv : SecondaryItem κ ν}

variable (h : Wf hash m)

include h

theorem ksize_pos : 0 < m.ksize := by
  obtain ⟨e, he⟩ := h.pow
  rw [he]
  positivity

theorem primary_lt (hk : m.primary k = some pv) : k < m.ksize := by
  rw [← h.home hk]
  exact slot_lt hash h.ksize_pos _

theorem secondary_lt (hj : m.secondary j = some sv) : j < m.ksize := by
  obtain ⟨-, pv, d, -, -, rfl⟩ := h.chain hj
  exact Nat.mod_lt _ h.ksize_pos

theorem index_ne (hk : m.primary k = none) (hj : m.secondary j = some sv) : sv.index ≠ k := by
  rintro rfl
  obtain ⟨-, pv, d, hpv, -⟩ := h.chain hj
  simp [hk] at hpv

theorem contains_iff_mem : Contains m key value ↔ (key, value) ∈ m.entries := by
  simp only [Contains, entries, List.mem_append, List.mem_map, mem_entries, Prod.mk.injEq]
  constructor
  · rintro (⟨k, pv, hk, rfl, rfl⟩ | ⟨j, sv, hj, rfl, rfl⟩)
    · exact Or.inl ⟨pv, ⟨k, h.primary_lt hk, hk⟩, rfl, rfl⟩
    · exact Or.inr ⟨sv, ⟨j, h.secondary_lt hj, hj⟩, rfl, rfl⟩
  · rintro (⟨pv, ⟨k, -, hk⟩, rfl, rfl⟩ | ⟨sv, ⟨j, -, hj⟩, rfl, rfl⟩)
    · exact Or.inl ⟨k, pv, hk, rfl, rfl⟩
    · exact Or.inr ⟨j, sv, hj, rfl, rfl⟩

theorem length_entries : m.entries.length = m.msize := by
  simp only [entries, List.length_append, List.length_map, Slots.length_entries, h.count]

end Wf

/-! ## Looking a key up -/

/-- What `find` can answer for a key. -/
inductive Lookup (hash : κ → UInt64) (m : HashMap κ ν) (key : κ) : Iterator → Prop
  | free (hk : m.primary (slot hash m.ksize key) = none) :
    Lookup hash m key ⟨slot hash m.ksize key, none, false⟩
  | primary {pv : PrimaryItem κ ν} (hk : m.primary (slot hash m.ksize key) = some pv)
      (hkey : pv.key = key) :
    Lookup hash m key ⟨slot hash m.ksize key, none, true⟩
  | secondary {pv : PrimaryItem κ ν} {j : ℕ} {sv : SecondaryItem κ ν}
      (hk : m.primary (slot hash m.ksize key) = some pv) (hj : m.secondary j = some sv)
      (hkey : sv.key = key) :
    Lookup hash m key ⟨slot hash m.ksize key, some j, true⟩
  | absent {pv : PrimaryItem κ ν} (hk : m.primary (slot hash m.ksize key) = some pv)
      (hkey : pv.key ≠ key) (hchain : ∀ j sv, m.secondary j = some sv → sv.key ≠ key) :
    Lookup hash m key
      ⟨slot hash m.ksize key, some ((slot hash m.ksize key + pv.size) % m.ksize), false⟩

/-- An iterator at an entry, with the home slot of that entry. -/
inductive At (m : HashMap κ ν) (key : κ) (value : ν) : Iterator → Prop
  | primary {k : ℕ} {pv : PrimaryItem κ ν} (hk : m.primary k = some pv) (hkey : pv.key = key)
      (hvalue : pv.value = value) :
    At m key value ⟨k, none, true⟩
  | secondary {j : ℕ} {sv : SecondaryItem κ ν} (hj : m.secondary j = some sv)
      (hkey : sv.key = key) (hvalue : sv.value = value) :
    At m key value ⟨sv.index, some j, true⟩

namespace Wf

variable {hash : κ → UInt64} {m : HashMap κ ν} {i : Iterator} {k j : ℕ}
  {key : κ} {value : ν} {pv : PrimaryItem κ ν} {sv : SecondaryItem κ ν}

/-- The entry in a slot of either table. -/
def slotEntry (m : HashMap κ ν) : ℕ ⊕ ℕ → Option (κ × ν)
  | .inl k => (m.primary k).map fun pv => (pv.key, pv.value)
  | .inr j => (m.secondary j).map fun sv => (sv.key, sv.value)

theorem contains_iff_slotEntry : Contains m key value ↔ ∃ s, slotEntry m s = some (key, value) := by
  simp [Contains, slotEntry, map_eq_some_iff]

theorem slotEntry_unique (h : Wf hash m) {s s' : ℕ ⊕ ℕ} {e e' : κ × ν}
    (hs : slotEntry m s = some e) (hs' : slotEntry m s' = some e') (hkey : e.1 = e'.1) :
    s = s' := by
  cases s <;> cases s' <;> obtain ⟨v, hv, rfl⟩ := map_eq_some_iff.mp hs <;>
    obtain ⟨v', hv', rfl⟩ := map_eq_some_iff.mp hs'
  · exact congrArg _ ((h.home hv).symm.trans ((congrArg _ hkey).trans (h.home hv')))
  · exact absurd hkey (h.disjoint hv hv')
  · exact absurd hkey.symm (h.disjoint hv' hv)
  · exact congrArg _ (h.unique hv hv' hkey)

theorem contains_unique (h : Wf hash m) {value' : ν} (hc : Contains m key value)
    (hc' : Contains m key value') : value = value' := by
  obtain ⟨s, hs⟩ := contains_iff_slotEntry.1 hc
  obtain ⟨s', hs'⟩ := contains_iff_slotEntry.1 hc'
  obtain rfl := h.slotEntry_unique hs hs' rfl
  exact (Prod.mk.inj (some.inj (hs.symm.trans hs'))).2

/-- What a map contains after a change of one slot. -/
theorem contains_update (h : Wf hash m) {m' : HashMap κ ν} {s : ℕ ⊕ ℕ} {e : Option (κ × ν)}
    (heq : slotEntry m' = update (slotEntry m) s e) :
    Contains m' key value ↔
      e = some (key, value) ∨ Contains m key value ∧ ∀ old ∈ slotEntry m s, key ≠ old.1 := by
  simp only [contains_iff_slotEntry, heq]
  constructor
  · rintro ⟨s', hs'⟩
    by_cases hss : s' = s
    · exact .inl (by rwa [hss, update_self] at hs')
    · rw [update_of_ne hss] at hs'
      exact .inr ⟨⟨s', hs'⟩, fun old hold hkey => hss (h.slotEntry_unique hs' hold hkey)⟩
  · rintro (rfl | ⟨⟨s', hs'⟩, hold⟩)
    · exact ⟨s, update_self ..⟩
    · refine ⟨s', (update_of_ne ?_ ..).trans hs'⟩
      rintro rfl
      exact hold _ hs' rfl

theorem slotEntry_primary (n k : ℕ) (e : Option (PrimaryItem κ ν)) :
    slotEntry { m with msize := n, primary := update m.primary k e } =
      update (slotEntry m) (.inl k) (e.map fun pv => (pv.key, pv.value)) := by
  funext s
  cases s with
  | inl k' => by_cases hk : k' = k <;> simp [slotEntry, hk]
  | inr j => simp [slotEntry]

theorem slotEntry_secondary (n j : ℕ) (e : Option (SecondaryItem κ ν)) {size : ℕ}
    (hk : m.primary k = some pv) :
    slotEntry { m with
      msize := n
      primary := update m.primary k (some { pv with size := size })
      secondary := update m.secondary j e } =
        update (slotEntry m) (.inr j) (e.map fun sv => (sv.key, sv.value)) := by
  funext s
  cases s with
  | inl k' => by_cases hk' : k' = k <;> simp [slotEntry, hk, hk']
  | inr j' => by_cases hj : j' = j <;> simp [slotEntry, hj]

/-- The answers of `find` with a null pointer are those for keys that are not there. -/
theorem not_contains_of_lookup (h : Wf hash m) (hl : Lookup hash m key i) (hi : i.v = false)
    (value : ν) : ¬ Contains m key value := by
  cases hl with
  | free hk =>
    rintro (⟨k, pv, hpv, rfl, -⟩ | ⟨j, sv, hsv, rfl, -⟩)
    · rw [h.home hpv, hpv] at hk
      cases hk
    · exact h.index_ne hk hsv (h.chain hsv).1
  | primary => cases hi
  | secondary => cases hi
  | absent hk hkey hchain =>
    rintro (⟨k, pv, hpv, rfl, -⟩ | ⟨j, sv, hsv, hkey', -⟩)
    · rw [h.home hpv, hpv, some.injEq] at hk
      exact hkey (by rw [hk])
    · exact hchain j sv hsv hkey'

theorem contains_of_lookup (hl : Lookup hash m key i) (hi : i.v = true) :
    ∃ value, m.entry i = some (key, value) ∧ Contains m key value := by
  cases hl with
  | free => cases hi
  | @primary pv hk hkey =>
    exact ⟨pv.value, by simp [entry, hk, hkey], Or.inl ⟨_, pv, hk, hkey, rfl⟩⟩
  | @secondary _ j sv _ hj hkey =>
    exact ⟨sv.value, by simp [entry, hj, hkey], Or.inr ⟨j, sv, hj, hkey, rfl⟩⟩
  | absent => cases hi

theorem contains_at (hi : At m key value i) : Contains m key value := by
  cases hi with
  | primary hk hkey hvalue => exact Or.inl ⟨_, _, hk, hkey, hvalue⟩
  | secondary hj hkey hvalue => exact Or.inr ⟨_, _, hj, hkey, hvalue⟩

section Find

variable [DecidableEq κ]

theorem equal_iff :
    m.equal k key j = true ↔ ∃ sv, m.secondary j = some sv ∧ sv.index = k ∧ sv.key = key := by
  simp [equal, any_eq_true]

variable (h : Wf hash m)

include h

theorem lookup_findSlowPath (hk : m.primary (slot hash m.ksize key) = some pv)
    (hkey : pv.key ≠ key) :
    Lookup hash m key (m.findSlowPath (slot hash m.ksize key) pv.size key) := by
  unfold findSlowPath
  split
  · rename_i d hfind
    have hhit := List.find?_some hfind
    obtain ⟨sv, hj, -, hsv⟩ := equal_iff.1 hhit
    exact .secondary hk hj hsv
  · rename_i hfind
    refine .absent hk hkey fun j sv hj hsv => ?_
    obtain ⟨hindex, pv', d, hpv', hd, hjd⟩ := h.chain hj
    rw [hsv] at hindex
    rw [hindex, hk, some.injEq] at hpv'
    subst hpv'
    apply List.find?_eq_none.1 hfind d (List.mem_range.2 hd)
    rw [← hindex, ← hjd]
    exact equal_iff.2 ⟨sv, hj, rfl, hsv⟩

/-- `find` answers one of four things. -/
theorem lookup (key : κ) : Lookup hash m key (m.find hash key) := by
  unfold find
  rw [if_pos h.allocated]
  cases hk : m.primary (slot hash m.ksize key) with
  | none =>
    simp only [hk]
    exact .free hk
  | some pv =>
    simp only [hk]
    split_ifs with hkey hsize
    · exact .primary hk hkey
    · have habsent := h.lookup_findSlowPath hk hkey
      simpa [findSlowPath, hsize, Nat.mod_eq_of_lt (h.primary_lt hk)] using habsent
    · exact h.lookup_findSlowPath hk hkey

theorem find_v_iff (key : κ) : (m.find hash key).v = true ↔ ∃ value, Contains m key value := by
  constructor
  · intro hv
    obtain ⟨value, -, hc⟩ := contains_of_lookup (h.lookup key) hv
    exact ⟨value, hc⟩
  · rintro ⟨value, hc⟩
    by_contra hv
    exact h.not_contains_of_lookup (h.lookup key) (by simpa using hv) value hc

/-- `find` finds exactly what is there. -/
theorem get_eq_some_iff : m.get hash key = some value ↔ Contains m key value := by
  cases hv : (m.find hash key).v with
  | false =>
    have hno := h.not_contains_of_lookup (h.lookup key) hv value
    simp [get, entry, hv, hno]
  | true =>
    obtain ⟨value', hentry, hc⟩ := contains_of_lookup (h.lookup key) hv
    simp only [get, hentry, map_some, some.injEq]
    constructor
    · rintro rfl
      exact hc
    · exact h.contains_unique hc

theorem at_find (hv : (m.find hash key).v = true) : ∃ value, At m key value (m.find hash key) := by
  have hl := h.lookup key
  generalize m.find hash key = i at hl hv
  cases hl with
  | free => cases hv
  | primary hk hkey => exact ⟨_, .primary hk hkey rfl⟩
  | @secondary pv j sv hk hj hkey =>
    have hindex := (h.chain hj).1
    rw [hkey] at hindex
    rw [← hindex]
    exact ⟨_, .secondary hj hkey rfl⟩
  | absent => cases hv

/-- `find` gives the iterator of the entry with the key. -/
theorem find_eq (hi : At m key value i) : m.find hash key = i := by
  have hl := h.lookup key
  generalize m.find hash key = i' at hl
  have hno := fun hv => h.not_contains_of_lookup hl hv value (contains_at hi)
  cases hl with
  | free | absent => exact absurd rfl hno
  | primary hk hkey =>
    cases hi with
    | primary hk' hkey' _ => rw [← h.home hk', hkey']
    | secondary hj' hkey' _ => exact absurd (hkey.trans hkey'.symm) (h.disjoint hk hj')
  | secondary hk hj hkey =>
    cases hi with
    | primary hk' hkey' _ => exact absurd (hkey'.trans hkey.symm) (h.disjoint hk' hj)
    | secondary hj' hkey' _ =>
      rw [(h.chain hj').1, hkey', h.unique hj hj' (hkey.trans hkey'.symm)]

end Find

/-! ## Placing a key -/

/-- A map that has gained an entry for a key that was not there. -/
structure Inserted (hash : κ → UInt64) (m : HashMap κ ν) (key : κ) (value : ν)
    (m' : HashMap κ ν) : Prop where
  wf : Wf hash m'
  contains : ∀ k v, Contains m' k v ↔ k = key ∧ v = value ∨ Contains m k v
  msize : m'.msize = m.msize + 1
  ksize : m.ksize ≤ m'.ksize

variable (h : Wf hash m)

include h

section

variable (hk : m.primary (slot hash m.ksize key) = none) (habsent : ∀ value, ¬ Contains m key value)

include hk habsent

theorem placePrimary (value : ν) :
    Wf hash { m with
      msize := m.msize + 1
      primary := update m.primary (slot hash m.ksize key)
        (some ⟨key, value, 0⟩) } where
  allocated := h.allocated
  pow := h.pow
  home := by
    intro k pv hpv
    obtain ⟨rfl, rfl⟩ | ⟨-, hpv⟩ := update_some_eq_some.1 hpv
    · rfl
    · exact h.home hpv
  chain := by
    intro j sv hj
    obtain ⟨hindex, pv, d, hpv, hd, hjd⟩ := h.chain hj
    have hne : sv.index ≠ slot hash m.ksize key := h.index_ne hk hj
    exact ⟨hindex, pv, d, update_some_eq_some.2 (Or.inr ⟨hne, hpv⟩), hd, hjd⟩
  last := by
    intro k pv hpv hsize
    obtain ⟨rfl, rfl⟩ | ⟨-, hpv⟩ := update_some_eq_some.1 hpv
    · exact absurd hsize (lt_irrefl 0)
    · exact h.last hpv hsize
  disjoint := by
    intro k pv j sv hpv hj hkey
    obtain ⟨rfl, rfl⟩ | ⟨-, hpv⟩ := update_some_eq_some.1 hpv
    · exact habsent sv.value (Or.inr ⟨j, sv, hj, hkey.symm, rfl⟩)
    · exact h.disjoint hpv hj hkey
  unique := h.unique
  count := by
    have hocc := occupied_insert (slot_lt hash h.ksize_pos key) hk
      (⟨key, value, 0⟩ : PrimaryItem κ ν)
    have hcount := h.count
    simp only [hocc]
    omega

theorem inserted_primary (value : ν) :
    Inserted hash m key value { m with
      msize := m.msize + 1
      primary := update m.primary (slot hash m.ksize key)
        (some ⟨key, value, 0⟩) } where
  wf := h.placePrimary hk habsent value
  contains k v := by
    rw [h.contains_update (slotEntry_primary _ _ _)]
    simp [slotEntry, hk, eq_comm]
  msize := rfl
  ksize := le_refl _

end

section

variable {s : ℕ} (hk : m.primary (slot hash m.ksize key) = some pv)
  (habsent : ∀ value, ¬ Contains m key value) (hs : pv.size < s) (hle : s ≤ m.ksize)
  (hj : j = (slot hash m.ksize key + (s - 1)) % m.ksize) (hfree : m.secondary j = none)

include hk habsent hs hle hj hfree

/-- Putting a key at the end of the chain of its home slot. -/
theorem placeSecondary (value : ν) :
    Wf hash { m with
      msize := m.msize + 1
      primary := update m.primary (slot hash m.ksize key) (some { pv with size := s })
      secondary := update m.secondary j
        (some ⟨key, value, slot hash m.ksize key⟩) } where
  allocated := h.allocated
  pow := h.pow
  home := by
    intro k pv' hpv'
    obtain ⟨rfl, rfl⟩ | ⟨-, hpv'⟩ := update_some_eq_some.1 hpv'
    · show slot hash m.ksize pv.key = _
      exact h.home hk
    · exact h.home hpv'
  chain := by
    intro j' sv hsv
    obtain ⟨rfl, rfl⟩ | ⟨-, hsv⟩ := update_some_eq_some.1 hsv
    · exact ⟨rfl, _, s - 1, update_self .., by dsimp only; omega, hj⟩
    obtain ⟨hindex, pv', d, hpv', hd, hjd⟩ := h.chain hsv
    refine ⟨hindex, ?_⟩
    -- the chain that was made longer still covers the entries it had
    by_cases hi : sv.index = slot hash m.ksize key
    · rw [hi, hk, some.injEq] at hpv'
      subst hpv'
      refine ⟨_, d, update_some_eq_some.2 (Or.inl ⟨hi, rfl⟩), ?_, hjd⟩
      dsimp only
      omega
    · exact ⟨pv', d, update_some_eq_some.2 (Or.inr ⟨hi, hpv'⟩), hd, hjd⟩
  last := by
    intro k pv' hpv' hsize
    obtain ⟨rfl, rfl⟩ | ⟨-, hpv'⟩ := update_some_eq_some.1 hpv'
    · exact ⟨hle, _, update_some_eq_some.2 (Or.inl ⟨hj.symm, rfl⟩), rfl⟩
    · obtain ⟨hle', sv, hsv, hindex⟩ := h.last hpv' hsize
      refine ⟨hle', sv, update_some_eq_some.2 (Or.inr ⟨?_, hsv⟩), hindex⟩
      intro heq
      dsimp only at heq
      rw [heq, hfree] at hsv
      cases hsv
  disjoint := by
    intro k pv' j' sv hpv' hsv hkey'
    have hold : ∃ pv₀, m.primary k = some pv₀ ∧ pv₀.key = pv'.key := by
      obtain ⟨rfl, rfl⟩ | ⟨-, hpv'⟩ := update_some_eq_some.1 hpv'
      · exact ⟨pv, hk, rfl⟩
      · exact ⟨pv', hpv', rfl⟩
    obtain ⟨pv₀, hpv₀, hkey₀⟩ := hold
    obtain ⟨rfl, rfl⟩ | ⟨-, hsv⟩ := update_some_eq_some.1 hsv
    · exact habsent pv₀.value (Or.inl ⟨k, pv₀, hpv₀, hkey₀.trans hkey', rfl⟩)
    · exact h.disjoint hpv₀ hsv (hkey₀.trans hkey')
  unique := by
    intro j₁ sv₁ j₂ sv₂ h₁ h₂ heq
    obtain ⟨hj₁, rfl⟩ | ⟨-, hold₁⟩ := update_some_eq_some.1 h₁ <;>
      obtain ⟨hj₂, rfl⟩ | ⟨-, hold₂⟩ := update_some_eq_some.1 h₂
    · rw [hj₁, hj₂]
    · exact absurd (Or.inr ⟨j₂, sv₂, hold₂, heq.symm, rfl⟩) (habsent sv₂.value)
    · exact absurd (Or.inr ⟨j₁, sv₁, hold₁, heq, rfl⟩) (habsent sv₁.value)
    · exact h.unique hold₁ hold₂ heq
  count := by
    have hjlt : j < m.ksize := hj ▸ Nat.mod_lt _ h.ksize_pos
    have hocc := occupied_insert hjlt hfree
      (⟨key, value, slot hash m.ksize key⟩ : SecondaryItem κ ν)
    have hrep := occupied_replace m.ksize hk { pv with size := s }
    have hcount := h.count
    simp only [hocc, hrep]
    omega

theorem inserted_secondary (value : ν) :
    Inserted hash m key value { m with
      msize := m.msize + 1
      primary := update m.primary (slot hash m.ksize key) (some { pv with size := s })
      secondary := update m.secondary j
        (some ⟨key, value, slot hash m.ksize key⟩) } where
  wf := h.placeSecondary hk habsent hs hle hj hfree value
  contains k v := by
    rw [h.contains_update (slotEntry_secondary _ _ _ hk)]
    simp [slotEntry, hfree, eq_comm]
  msize := rfl
  ksize := le_refl _

end

end Wf

/-- Every slot that a chain length covers is occupied, as in tables that nothing was erased
from. -/
def Compact (m : HashMap κ ν) : Prop :=
  ∀ k pv, m.primary k = some pv → ∀ d < pv.size,
    (m.secondary ((k + d) % m.ksize)).isSome

/-- The tables are so large that `place` does not ask for larger ones when nothing was
erased and there are at most `n` entries. -/
def Roomy (itemSize ksize n : ℕ) : Prop :=
  1024 * 1024 * 4 / itemSize ≤ ksize ∧ 2 * n + 4 ≤ ksize

namespace Wf

variable {hash : κ → UInt64} {m m' : HashMap κ ν} {i : Iterator}
  {itemSize : ℕ} {key : κ} {value : ν} {pv : PrimaryItem κ ν}

theorem occupied_secondary_lt (h : Wf hash m) (hsize : m.msize < m.ksize) :
    occupied m.secondary m.ksize < m.ksize := by
  have hcount := h.count
  omega

/-- The slot that `place` takes in the secondary table. -/
theorem index_eq (ki size d n : ℕ) : ((ki + size) % n + d) % n = (ki + (size + 1 + d - 1)) % n := by
  rw [Nat.mod_add_mod]
  congr 1
  omega

variable [DecidableEq κ]

/-- What `place` does for a key whose home slot is free. -/
theorem inserted_place_free (h : Wf hash m) (hk : m.primary (slot hash m.ksize key) = none)
    (habsent : ∀ value, ¬ Contains m key value)
    (hplace : m.place itemSize ⟨slot hash m.ksize key, none, false⟩ key value =
      some (m', i)) :
    Inserted hash m key value m' ∧ i = m'.find hash key ∧ (Compact m → Compact m') := by
  simp only [place, some.injEq, Prod.mk.injEq] at hplace
  obtain ⟨rfl, rfl⟩ := hplace
  have hins := h.inserted_primary hk habsent value
  refine ⟨hins, (hins.wf.find_eq (.primary (update_self ..) rfl rfl)).symm, ?_⟩
  intro hcompact k pv hpv d hd
  obtain ⟨rfl, rfl⟩ | ⟨-, hpv⟩ := update_some_eq_some.1 hpv
  · exact absurd hd (Nat.not_lt_zero d)
  · exact hcompact k pv hpv d hd

/-- What `place` does for a key whose home slot is taken. -/
theorem inserted_place_chain (h : Wf hash m) (hsize : m.msize < m.ksize)
    (hk : m.primary (slot hash m.ksize key) = some pv) (habsent : ∀ value, ¬ Contains m key value)
    (hplace : m.place itemSize
      ⟨slot hash m.ksize key, some ((slot hash m.ksize key + pv.size) % m.ksize), false⟩
      key value = some (m', i)) :
    Inserted hash m key value m' ∧ i = m'.find hash key ∧ (Compact m → Compact m') := by
  obtain ⟨d, hd, hfind, hfree, hbefore⟩ := freeFrom_eq_some (h.occupied_secondary_lt hsize)
    ((slot hash m.ksize key + pv.size) % m.ksize)
  simp only [place, hk, hfind, bind_some] at hplace
  split_ifs at hplace with hgrow hlong
  simp only [some.injEq, Prod.mk.injEq] at hplace
  obtain ⟨rfl, rfl⟩ := hplace
  push Not at hlong
  have hhalf : pv.size + 1 + d < m.ksize / 2 := hlong.2
  have hins := h.inserted_secondary hk habsent (s := pv.size + 1 + d) (by omega) (by omega)
    (index_eq _ _ _ _) hfree value
  refine ⟨hins, (hins.wf.find_eq (.secondary (update_self ..) rfl rfl)).symm, ?_⟩
  intro hcompact k pv' hpv' e he
  by_cases hnew : (k + e) % m.ksize =
      ((slot hash m.ksize key + pv.size) % m.ksize + d) % m.ksize
  · simp only [hnew, update_self, isSome_some]
  simp only [update_of_ne hnew]
  obtain ⟨rfl, rfl⟩ | ⟨-, hpv'⟩ := update_some_eq_some.1 hpv'
  · -- the slots between the old end of the chain and the new one were found occupied
    obtain he' | he' := Nat.lt_or_ge e pv.size
    · exact hcompact _ pv hk e he'
    · have hlt : e ≠ pv.size + d := by
        rintro rfl
        exact hnew (by rw [Nat.mod_add_mod, Nat.add_assoc])
      have hocc := hbefore (e - pv.size) (by simp only at he; omega)
      rw [Nat.mod_add_mod, Nat.add_assoc, Nat.add_sub_cancel' he'] at hocc
      exact hocc
  · exact hcompact k pv' hpv' e he

/-- Placing a key that is not there, when `place` does not ask for larger tables. -/
theorem inserted_place (h : Wf hash m) (hsize : m.msize < m.ksize)
    (habsent : ∀ value, ¬ Contains m key value)
    (hplace : m.place itemSize (m.find hash key) key value = some (m', i)) :
    Inserted hash m key value m' ∧ i = m'.find hash key ∧ (Compact m → Compact m') := by
  have hl := h.lookup key
  generalize m.find hash key = i₀ at hl hplace
  cases hl with
  | free hk => exact h.inserted_place_free hk habsent hplace
  | primary hk hkey => exact absurd (Or.inl ⟨_, _, hk, hkey, rfl⟩) (habsent _)
  | secondary _ hj hkey => exact absurd (Or.inr ⟨_, _, hj, hkey, rfl⟩) (habsent _)
  | absent hk _ _ => exact h.inserted_place_chain hsize hk habsent hplace

/-- Large tables that nothing was erased from take another key. -/
theorem exists_place (h : Wf hash m) (hcompact : Compact m)
    (hroomy : Roomy itemSize m.ksize m.msize) (habsent : ∀ value, ¬ Contains m key value)
    (value : ν) : ∃ m' i, m.place itemSize (m.find hash key) key value = some (m', i) := by
  have hl := h.lookup key
  generalize m.find hash key = i₀ at hl
  obtain ⟨hlarge, hhalf⟩ := hroomy
  cases hl with
  | free hk => exact ⟨_, _, rfl⟩
  | primary hk hkey => exact absurd (Or.inl ⟨_, _, hk, hkey, rfl⟩) (habsent _)
  | secondary _ hj hkey => exact absurd (Or.inr ⟨_, _, hj, hkey, rfl⟩) (habsent _)
  | @absent pv hk _ _ =>
    have hfew := h.occupied_secondary_lt (by omega)
    obtain ⟨d, hd, hfind, hfree, hbefore⟩ := freeFrom_eq_some hfew
      ((slot hash m.ksize key + pv.size) % m.ksize)
    -- all slots from the home slot to the free one are occupied, so there are few
    have hrun : pv.size + d ≤ occupied m.secondary m.ksize := by
      refine le_occupied hfew (k := slot hash m.ksize key) fun e he => ?_
      obtain he' | he' := Nat.lt_or_ge e pv.size
      · exact hcompact _ pv hk e he'
      · have hocc := hbefore (e - pv.size) (by omega)
        rwa [Nat.mod_add_mod, Nat.add_assoc, Nat.add_sub_cancel' he'] at hocc
    have hcount := h.count
    have hmega : 1024 * 1024 / itemSize ≤ 1024 * 1024 * 4 / itemSize :=
      Nat.div_le_div_right (by norm_num)
    have hgrow : ¬ (m.ksize < 1024 * 1024 / itemSize ∧ m.ksize < m.msize * 4) := by omega
    have hlong : ¬ ((4 ≤ pv.size + 1 + d ∧ m.ksize < 1024 * 1024 * 4 / itemSize) ∨
        m.ksize / 2 ≤ pv.size + 1 + d) := by omega
    simp only [place, hk, hfind, bind_some, if_neg hgrow, if_neg hlong]
    exact ⟨_, _, rfl⟩

end Wf

end Moodist.HashMap
