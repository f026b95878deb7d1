import Moodist.HashMap.Tables

/-!
# Erasing

An entry is erased by taking the last entry of its chain away and putting it where the erased one
was.
-/

namespace Moodist.HashMap

open Foundation Slots Function Option

universe u v

variable {κ : Type u} {ν : Type v} {secondary : ℕ → Option (SecondaryItem κ ν)}

/-! ## Taking the last entry of a chain away -/

namespace Wf

theorem shrink_le (secondary : ℕ → Option (SecondaryItem κ ν)) (ksize k s : ℕ) :
    shrink secondary ksize k s ≤ s := by
  induction s with
  | zero => exact le_refl 0
  | succ s ih =>
    rw [shrink]
    split_ifs
    · exact le_refl _
    · omega

/-- The loop stops at a slot of the chain. -/
theorem shrink_pos {ksize k s : ℕ} (h : 0 < shrink secondary ksize k s) :
    ∃ sv, secondary ((k + (shrink secondary ksize k s - 1)) % ksize) = some sv ∧
      sv.index = k := by
  induction s with
  | zero => exact absurd h (lt_irrefl 0)
  | succ s ih =>
    rw [shrink] at h ⊢
    split_ifs at h ⊢ with hs
    · simpa [any_eq_true] using hs
    · exact ih h

/-- The slots the loop steps over belong to other chains. -/
theorem lt_shrink {ksize k s d : ℕ}
    {sv : SecondaryItem κ ν} (hd : d < s) (hsv : secondary ((k + d) % ksize) = some sv)
    (hindex : sv.index = k) : d < shrink secondary ksize k s := by
  induction s with
  | zero => omega
  | succ s ih =>
    rw [shrink]
    split_ifs with hs
    · exact hd
    · have hne : d ≠ s := by
        rintro rfl
        simp [hsv, hindex] at hs
      exact ih (by omega)

/-- The loop reads nothing but the home slots. -/
theorem shrink_congr {f g : ℕ → Option (SecondaryItem κ ν)} (ksize k s : ℕ)
    (h : ∀ j, (f j).map SecondaryItem.index = (g j).map SecondaryItem.index) :
    shrink f ksize k s = shrink g ksize k s := by
  induction s with
  | zero => rfl
  | succ s ih =>
    have hj := h ((k + s) % ksize)
    have hany : ((f ((k + s) % ksize)).any fun sv => decide (sv.index = k)) =
        (g ((k + s) % ksize)).any fun sv => decide (sv.index = k) := by
      cases hf : f ((k + s) % ksize) <;> cases hg : g ((k + s) % ksize) <;>
        simp_all
    rw [shrink, shrink, hany, ih]

end Wf

/-- The last slot of the chain of slot `k`. -/
def lastIndex (m : HashMap κ ν) (k : ℕ) (pv : PrimaryItem κ ν) : ℕ :=
  (k + (pv.size - 1)) % m.ksize

/-- The entry of slot `k` with the length of its chain once the last slot is free. -/
def shrunk (m : HashMap κ ν) (k : ℕ) (pv : PrimaryItem κ ν) : PrimaryItem κ ν :=
  { pv with
    size := shrink (update m.secondary (m.lastIndex k pv) none) m.ksize k
      (pv.size - 1) }

/-- The map without the last entry of the chain of slot `k`. -/
def dropLast (m : HashMap κ ν) (k : ℕ) (pv : PrimaryItem κ ν) : HashMap κ ν :=
  { m with
    msize := m.msize - 1
    primary := update m.primary k (some (m.shrunk k pv))
    secondary := update m.secondary (m.lastIndex k pv) none }

/-- The map with another key and value in slot `k` of the primary table. -/
def replacePrimary (m : HashMap κ ν) (k : ℕ) (pv : PrimaryItem κ ν) (key : κ) (value : ν) :
    HashMap κ ν :=
  { m with
    primary := update m.primary k (some { pv with key := key, value := value }) }

/-- The map with another key and value in slot `j` of the secondary table. -/
def replaceSecondary (m : HashMap κ ν) (j : ℕ) (sv : SecondaryItem κ ν) (key : κ)
    (value : ν) : HashMap κ ν :=
  { m with
    secondary := update m.secondary j (some { sv with key := key, value := value }) }

namespace Wf

variable {hash : κ → UInt64} {m : HashMap κ ν} {i : Iterator} {k j : ℕ}
  {key : κ} {value : ν} {pv : PrimaryItem κ ν} {sv : SecondaryItem κ ν}

variable (h : Wf hash m)

include h

section

variable (hk : m.primary k = some pv)

include hk

theorem exists_last (hsize : 0 < pv.size) :
    ∃ lv, m.secondary (m.lastIndex k pv) = some lv ∧ lv.index = k :=
  (h.last hk hsize).2

protected theorem dropLast (hsize : 0 < pv.size) : Wf hash (m.dropLast k pv) where
  allocated := h.allocated
  pow := h.pow
  home := by
    intro k' pv' hpv'
    obtain ⟨rfl, rfl⟩ | ⟨-, hpv'⟩ := update_some_eq_some.1 hpv'
    · show slot hash m.ksize pv.key = _
      exact h.home hk
    · exact h.home hpv'
  chain := by
    intro j sv hsv
    obtain ⟨hj, hold⟩ := update_none_eq_some.1 hsv
    obtain ⟨hindex, pv', d, hpv', hd, hjd⟩ := h.chain hold
    refine ⟨hindex, ?_⟩
    by_cases hi : sv.index = k
    · rw [hi, hk, Option.some.injEq] at hpv'
      subst hpv'
      refine ⟨_, d, update_some_eq_some.2 (Or.inl ⟨hi, rfl⟩), ?_, hjd⟩
      -- the entry is not the last one of its chain
      have hne : d ≠ pv.size - 1 := by
        rintro rfl
        rw [hi] at hjd
        exact hj hjd
      rw [hi] at hjd
      exact lt_shrink (by omega) (hjd ▸ hsv) hi
    · exact ⟨pv', d, update_some_eq_some.2 (Or.inr ⟨hi, hpv'⟩), hd, hjd⟩
  last := by
    intro k' pv' hpv' hsize'
    obtain ⟨rfl, rfl⟩ | ⟨hne, hpv'⟩ := update_some_eq_some.1 hpv'
    · have hle := shrink_le (update m.secondary (m.lastIndex k' pv) none) m.ksize k'
        (pv.size - 1)
      have hle' := (h.last hk hsize).1
      refine ⟨?_, shrink_pos hsize'⟩
      show shrink _ _ _ _ ≤ m.ksize
      omega
    · obtain ⟨hle, sv, hsv, hindex⟩ := h.last hpv' hsize'
      refine ⟨hle, sv, update_none_eq_some.2 ⟨?_, hsv⟩, hindex⟩
      intro heq
      obtain ⟨lv, hlv, hlindex⟩ := h.exists_last hk hsize
      rw [← heq] at hlv
      have hsame : some lv = some sv := hlv.symm.trans hsv
      rw [Option.some.injEq] at hsame
      exact hne (hindex.symm.trans ((congrArg _ hsame.symm).trans hlindex))
  disjoint := by
    intro k' pv' j sv hpv' hsv
    have hold := (update_none_eq_some.1 hsv).2
    obtain ⟨rfl, rfl⟩ | ⟨-, hpv'⟩ := update_some_eq_some.1 hpv'
    · show pv.key ≠ sv.key
      exact h.disjoint hk hold
    · exact h.disjoint hpv' hold
  unique := by
    intro j₁ sv₁ j₂ sv₂ h₁ h₂
    exact h.unique (update_none_eq_some.1 h₁).2 (update_none_eq_some.1 h₂).2
  count := by
    obtain ⟨lv, hlv, -⟩ := h.exists_last hk hsize
    have hocc := occupied_erase (h.secondary_lt hlv) hlv
    have hrep := occupied_replace m.ksize hk (m.shrunk k pv)
    have hcount := h.count
    simp only [dropLast, hrep]
    omega

theorem contains_dropLast
    {lv : SecondaryItem κ ν} (hlv : m.secondary (m.lastIndex k pv) = some lv) :
    Contains (m.dropLast k pv) key value ↔ Contains m key value ∧ key ≠ lv.key := by
  rw [HashMap.dropLast, shrunk, h.contains_update (slotEntry_secondary _ _ _ hk)]
  simp [slotEntry, hlv]

/-- Taking away an entry of the primary table that has no chain. -/
theorem clearPrimary (hsize : pv.size = 0) :
    Wf hash { m with
      msize := m.msize - 1
      primary := update m.primary k none } where
  allocated := h.allocated
  pow := h.pow
  home := by
    intro k' pv' hpv'
    exact h.home (update_none_eq_some.1 hpv').2
  chain := by
    intro j sv hsv
    obtain ⟨hindex, pv', d, hpv', hd, hjd⟩ := h.chain hsv
    refine ⟨hindex, pv', d, update_none_eq_some.2 ⟨?_, hpv'⟩, hd, hjd⟩
    intro hi
    rw [hi, hk, some.injEq] at hpv'
    rw [← hpv', hsize] at hd
    exact absurd hd (Nat.not_lt_zero d)
  last := by
    intro k' pv' hpv' hsize'
    exact h.last (update_none_eq_some.1 hpv').2 hsize'
  disjoint := by
    intro k' pv' j sv hpv' hsv
    exact h.disjoint (update_none_eq_some.1 hpv').2 hsv
  unique := h.unique
  count := by
    have hocc := occupied_erase (h.primary_lt hk) hk
    have hcount := h.count
    dsimp only
    omega

theorem contains_clearPrimary (n : ℕ) :
    Contains { m with msize := n, primary := update m.primary k none } key value ↔
      Contains m key value ∧ key ≠ pv.key := by
  rw [h.contains_update (slotEntry_primary _ _ _)]
  simp [slotEntry, hk]

/-! ## Changing the key and value of an entry -/

protected theorem replacePrimary
    (hslot : slot hash m.ksize key = k) (hnew : ∀ v, Contains m key v → key = pv.key)
    (value : ν) : Wf hash (m.replacePrimary k pv key value) where
  allocated := h.allocated
  pow := h.pow
  home := by
    intro k' pv' hpv'
    obtain ⟨rfl, rfl⟩ | ⟨-, hpv'⟩ := update_some_eq_some.1 hpv'
    · exact hslot
    · exact h.home hpv'
  chain := by
    intro j sv hsv
    obtain ⟨hindex, pv', d, hpv', hd, hjd⟩ := h.chain hsv
    refine ⟨hindex, ?_⟩
    by_cases hi : sv.index = k
    · rw [hi, hk, Option.some.injEq] at hpv'
      subst hpv'
      exact ⟨_, d, update_some_eq_some.2 (Or.inl ⟨hi, rfl⟩), hd, hjd⟩
    · exact ⟨pv', d, update_some_eq_some.2 (Or.inr ⟨hi, hpv'⟩), hd, hjd⟩
  last := by
    intro k' pv' hpv' hsize
    obtain ⟨rfl, rfl⟩ | ⟨-, hpv'⟩ := update_some_eq_some.1 hpv'
    · have hlast := h.last hk (show 0 < pv.size from hsize)
      exact hlast
    · exact h.last hpv' hsize
  disjoint := by
    intro k' pv' j sv hpv' hsv heq
    obtain ⟨rfl, rfl⟩ | ⟨-, hpv'⟩ := update_some_eq_some.1 hpv'
    · have hsame := hnew sv.value (Or.inr ⟨j, sv, hsv, heq.symm, rfl⟩)
      exact h.disjoint hk hsv (hsame.symm.trans heq)
    · exact h.disjoint hpv' hsv heq
  unique := h.unique
  count := by
    simp only [replacePrimary, occupied_replace m.ksize hk]
    exact h.count

theorem contains_replacePrimary (key' : κ) (value' : ν) :
    Contains (m.replacePrimary k pv key' value') key value ↔
      key = key' ∧ value = value' ∨ Contains m key value ∧ key ≠ pv.key := by
  rw [HashMap.replacePrimary, h.contains_update (slotEntry_primary _ _ _)]
  simp [slotEntry, hk, eq_comm]

end

protected theorem replaceSecondary (hj : m.secondary j = some sv)
    (hslot : slot hash m.ksize key = sv.index) (hnew : ∀ v, Contains m key v → key = sv.key)
    (value : ν) : Wf hash (m.replaceSecondary j sv key value) where
  allocated := h.allocated
  pow := h.pow
  home := h.home
  chain := by
    intro j' sv' hsv'
    obtain ⟨rfl, rfl⟩ | ⟨-, hsv'⟩ := update_some_eq_some.1 hsv'
    · exact ⟨hslot.symm, (h.chain hj).2⟩
    · exact h.chain hsv'
  last := by
    intro k' pv' hpv' hsize
    obtain ⟨hle, lv, hlv, hindex⟩ := h.last hpv' hsize
    refine ⟨hle, ?_⟩
    by_cases hjj : (k' + (pv'.size - 1)) % m.ksize = j
    · rw [hjj, hj, Option.some.injEq] at hlv
      subst hlv
      exact ⟨_, update_some_eq_some.2 (Or.inl ⟨hjj, rfl⟩), hindex⟩
    · exact ⟨lv, update_some_eq_some.2 (Or.inr ⟨hjj, hlv⟩), hindex⟩
  disjoint := by
    intro k' pv' j' sv' hpv' hsv' heq
    obtain ⟨rfl, rfl⟩ | ⟨-, hsv'⟩ := update_some_eq_some.1 hsv'
    · have hsame := hnew pv'.value (Or.inl ⟨k', pv', hpv', heq, rfl⟩)
      exact h.disjoint hpv' hj (heq.trans hsame)
    · exact h.disjoint hpv' hsv' heq
  unique := by
    intro j₁ sv₁ j₂ sv₂ h₁ h₂ heq
    obtain ⟨hj₁, rfl⟩ | ⟨-, hold₁⟩ := update_some_eq_some.1 h₁ <;>
      obtain ⟨hj₂, rfl⟩ | ⟨-, hold₂⟩ := update_some_eq_some.1 h₂
    · rw [hj₁, hj₂]
    · have hsame := hnew sv₂.value (Or.inr ⟨j₂, sv₂, hold₂, heq.symm, rfl⟩)
      exact hj₁.trans (h.unique hj hold₂ (hsame.symm.trans heq))
    · have hsame := hnew sv₁.value (Or.inr ⟨j₁, sv₁, hold₁, heq, rfl⟩)
      exact (h.unique hold₁ hj (heq.trans hsame)).trans hj₂.symm
    · exact h.unique hold₁ hold₂ heq
  count := by
    simp only [replaceSecondary, occupied_replace m.ksize hj]
    exact h.count

theorem contains_replaceSecondary (hj : m.secondary j = some sv) (key' : κ) (value' : ν) :
    Contains (m.replaceSecondary j sv key' value') key value ↔
      key = key' ∧ value = value' ∨ Contains m key value ∧ key ≠ sv.key := by
  have hslot : slotEntry (m.replaceSecondary j sv key' value') =
      update (slotEntry m) (.inr j) (some (key', value')) := by
    funext s
    cases s with
    | inl k => rfl
    | inr j' => by_cases hj' : j' = j <;> simp [slotEntry, replaceSecondary, hj']
  rw [h.contains_update hslot]
  simp [slotEntry, hj, eq_comm]

end Wf

/-! ## `erase` -/

section Equations

variable {m : HashMap κ ν} {k j : ℕ} {pv : PrimaryItem κ ν} {sv lv : SecondaryItem κ ν}

variable (hk : m.primary k = some pv)

include hk

theorem eraseAt_single (hsize : pv.size = 0) (v : Bool) :
    m.eraseAt ⟨k, none, v⟩ =
      some ({ m with
        msize := m.msize - 1
        primary := update m.primary k none }, m.next ⟨k, none, v⟩) := by
  simp [eraseAt, hk, hsize]

variable (hsize : 0 < pv.size) (hlv : m.secondary (m.lastIndex k pv) = some lv)

include hsize hlv

theorem eraseAt_chain (v : Bool) :
    m.eraseAt ⟨k, none, v⟩ =
      some ((m.dropLast k pv).replacePrimary k (m.shrunk k pv) lv.key lv.value,
        ⟨k, none, v⟩) := by
  have hne : pv.size ≠ 0 := by omega
  rw [lastIndex] at hlv
  simp [eraseAt, hk, hne, hlv, replacePrimary, dropLast, shrunk, lastIndex]

theorem eraseAt_last (v : Bool) :
    m.eraseAt ⟨k, some (m.lastIndex k pv), v⟩ =
      some (m.dropLast k pv, m.next ⟨k, some (m.lastIndex k pv), v⟩) := by
  have hne : pv.size ≠ 0 := by omega
  rw [lastIndex] at hlv ⊢
  simp [eraseAt, hk, hne, hlv, dropLast, shrunk, lastIndex]

theorem eraseAt_move (hj : m.secondary j = some sv) (hne : m.lastIndex k pv ≠ j) (v : Bool) :
    m.eraseAt ⟨k, some j, v⟩ =
      some ((m.dropLast k pv).replaceSecondary j sv lv.key lv.value, ⟨k, some j, v⟩) := by
  have hpos : pv.size ≠ 0 := by omega
  have hcomm : update (update m.secondary j
        (some { sv with key := lv.key, value := lv.value })) (m.lastIndex k pv) none =
      update (update m.secondary (m.lastIndex k pv) none) j
        (some { sv with key := lv.key, value := lv.value }) :=
    update_comm hne.symm _ _ _
  -- the moved entry stays in its chain, so the length steps back as far
  have hshrink := Wf.shrink_congr m.ksize k (pv.size - 1)
    (f := update (update m.secondary (m.lastIndex k pv) none) j
        (some { sv with key := lv.key, value := lv.value }))
    (g := update m.secondary (m.lastIndex k pv) none) (by
      intro j'
      by_cases hj' : j' = j
      · subst hj'
        simp [update_of_ne hne.symm, hj]
      · simp [update_of_ne hj'])
  rw [lastIndex] at hlv hne
  simp only [lastIndex] at hcomm hshrink
  simp [eraseAt, hk, hpos, hlv, hj, hne, replaceSecondary, dropLast, shrunk, lastIndex,
    hcomm, hshrink]

end Equations

namespace Wf

variable {hash : κ → UInt64} {m m' : HashMap κ ν} {i i' : Iterator} {k j : ℕ}
  {key : κ} {value : ν} {pv : PrimaryItem κ ν} {sv lv : SecondaryItem κ ν}

/-- A map that has lost the entry of one key. -/
structure Erased (hash : κ → UInt64) (m : HashMap κ ν) (key : κ) (m' : HashMap κ ν) :
    Prop where
  wf : Wf hash m'
  contains : ∀ k v, Contains m' k v ↔ Contains m k v ∧ k ≠ key
  msize : m'.msize + 1 = m.msize
  ksize : m'.ksize = m.ksize

section

variable (h : Wf hash m)

include h

theorem msize_pos (hc : Contains m key value) : 0 < m.msize := by
  rw [h.contains_iff_mem] at hc
  rw [← h.length_entries]
  exact List.length_pos_of_mem hc

/-- Moving the last entry of a chain to where the entry of `key` was. -/
theorem contains_move (hlv : Contains m sv.key sv.value) (hne : sv.key ≠ key) (k : κ) (v : ν) :
    (k = sv.key ∧ v = sv.value ∨ (Contains m k v ∧ k ≠ sv.key) ∧ k ≠ key) ↔
      Contains m k v ∧ k ≠ key := by
  constructor
  · rintro (⟨rfl, rfl⟩ | ⟨⟨hc, -⟩, hk⟩)
    · exact ⟨hlv, hne⟩
    · exact ⟨hc, hk⟩
  · rintro ⟨hc, hk⟩
    by_cases heq : k = sv.key
    · subst heq
      exact Or.inl ⟨rfl, h.contains_unique hc hlv⟩
    · exact Or.inr ⟨⟨hc, heq⟩, hk⟩

section

variable (hk : m.primary k = some pv)

include hk

theorem erased_single (hsize : pv.size = 0) :
    Erased hash m pv.key { m with
      msize := m.msize - 1
      primary := update m.primary k none } where
  wf := h.clearPrimary hk hsize
  contains _ _ := h.contains_clearPrimary hk _
  msize := Nat.sub_add_cancel (h.msize_pos (Or.inl ⟨k, pv, hk, rfl, rfl⟩))
  ksize := rfl

variable (hsize : 0 < pv.size) (hlv : m.secondary (m.lastIndex k pv) = some lv)

include hsize hlv

theorem erased_dropLast : Erased hash m lv.key (m.dropLast k pv) where
  wf := h.dropLast hk hsize
  contains _ _ := h.contains_dropLast hk hlv
  msize := Nat.sub_add_cancel (h.msize_pos (Or.inr ⟨_, lv, hlv, rfl, rfl⟩))
  ksize := rfl

theorem erased_chain (hindex : lv.index = k) : Erased hash m pv.key
      ((m.dropLast k pv).replacePrimary k (m.shrunk k pv) lv.key lv.value) := by
  have hdrop := h.erased_dropLast hk hsize hlv
  have hpv : (m.dropLast k pv).primary k = some (m.shrunk k pv) := update_self ..
  have hslot : slot hash m.ksize lv.key = k := (h.chain hlv).1.symm.trans hindex
  refine ⟨hdrop.wf.replacePrimary hpv hslot ?_ _, ?_, hdrop.msize, rfl⟩
  · intro v hc
    exact absurd rfl ((hdrop.contains _ _).1 hc).2
  · intro k' v
    rw [hdrop.wf.contains_replacePrimary hpv, hdrop.contains]
    exact h.contains_move (Or.inr ⟨_, lv, hlv, rfl, rfl⟩) (h.disjoint hk hlv).symm k' v

theorem erased_move (hindex : lv.index = k)
    (hj : m.secondary j = some sv) (hsv : sv.index = k) (hne : m.lastIndex k pv ≠ j) :
    Erased hash m sv.key ((m.dropLast k pv).replaceSecondary j sv lv.key lv.value) := by
  have hdrop := h.erased_dropLast hk hsize hlv
  have hj' : (m.dropLast k pv).secondary j = some sv := update_none_eq_some.2 ⟨hne.symm, hj⟩
  have hslot : slot hash m.ksize lv.key = sv.index :=
    (h.chain hlv).1.symm.trans (hindex.trans hsv.symm)
  refine ⟨hdrop.wf.replaceSecondary hj' hslot ?_ _, ?_, hdrop.msize, rfl⟩
  · intro v hc
    exact absurd rfl ((hdrop.contains _ _).1 hc).2
  · intro k' v
    rw [hdrop.wf.contains_replaceSecondary hj', hdrop.contains]
    refine h.contains_move (Or.inr ⟨_, lv, hlv, rfl, rfl⟩) (fun heq => ?_) k' v
    exact hne (h.unique hlv hj heq)

end

/-- Erasing the entry at an iterator that knows its home slot. -/
theorem exists_eraseAt (hi : At m key value i) :
    ∃ m' i', m.eraseAt i = some (m', i') ∧ Erased hash m key m' := by
  cases hi with
  | @primary k pv hk hkey _ =>
    subst hkey
    obtain hsize | hsize := Nat.eq_zero_or_pos pv.size
    · exact ⟨_, _, eraseAt_single hk hsize _, h.erased_single hk hsize⟩
    · obtain ⟨lv, hlv, hindex⟩ := h.exists_last hk hsize
      exact ⟨_, _, eraseAt_chain hk hsize hlv _, h.erased_chain hk hsize hlv hindex⟩
  | @secondary j sv hj hkey _ =>
    subst hkey
    obtain ⟨-, pv, d, hpv, hd, hjd⟩ := h.chain hj
    have hsize : 0 < pv.size := by omega
    obtain ⟨lv, hlv, hindex⟩ := h.exists_last hpv hsize
    by_cases hne : m.lastIndex sv.index pv = j
    · rw [hne, hj, some.injEq] at hlv
      subst hlv hne
      exact ⟨_, _, eraseAt_last hpv hsize hj _, h.erased_dropLast hpv hsize hj⟩
    · exact ⟨_, _, eraseAt_move hpv hsize hlv hj hne _,
        h.erased_move hpv hsize hlv hindex hj rfl hne⟩

/-- Writing through the reference to the value of an entry. -/
theorem write {old : ν} (hi : At m key old i) (value : ν) : Wf hash (m.write i value) ∧
      (∀ k v, Contains (m.write i value) k v ↔
        k = key ∧ v = value ∨ Contains m k v ∧ k ≠ key) ∧
      (m.write i value).msize = m.msize := by
  cases hi with
  | @primary k pv hk hkey _ =>
    subst hkey
    have heq : m.write ⟨k, none, true⟩ value = m.replacePrimary k pv pv.key value := by
      simp [HashMap.write, HashMap.replacePrimary, hk]
    rw [heq]
    exact ⟨h.replacePrimary hk (h.home hk) (fun _ _ => rfl) value,
      fun _ _ => h.contains_replacePrimary hk _ _, rfl⟩
  | @secondary j sv hj hkey _ =>
    subst hkey
    have heq : m.write ⟨sv.index, some j, true⟩ value =
        m.replaceSecondary j sv sv.key value := by
      simp [HashMap.write, HashMap.replaceSecondary, hj]
    rw [heq]
    exact ⟨h.replaceSecondary hj (h.chain hj).1.symm (fun _ _ => rfl) value,
      fun _ _ => h.contains_replaceSecondary hj _ _, rfl⟩

end

variable [DecidableEq κ]

/-- `erase(key)`. -/
theorem exists_erase (h : Wf hash m) (key : κ) :
    ∃ m', m.erase hash key = some m' ∧
      ((∃ value, Contains m key value) ∧ Erased hash m key m' ∨
        m' = m ∧ ∀ value, ¬ Contains m key value) := by
  unfold erase
  by_cases hv : (m.find hash key).v = true
  · obtain ⟨value, hat⟩ := h.at_find hv
    obtain ⟨m', i', heq, herased⟩ := h.exists_eraseAt hat
    exact ⟨m', by simp [hv, heq], Or.inl ⟨⟨value, contains_at hat⟩, herased⟩⟩
  · refine ⟨m, by simp [hv], Or.inr ⟨rfl, fun value hc => hv ?_⟩⟩
    exact (h.find_v_iff key).2 ⟨value, hc⟩

end Wf

end Moodist.HashMap
