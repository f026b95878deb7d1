import Mathlib

/-!
# Tables of slots

A table of `n` slots is a function from the slot number to what the slot holds, `none`
where it is free. Slots are also walked round a ring: the slot `d` places after `k` is
`(k + d) % n`.
-/

namespace Foundation.Slots

open List Option
open Function (update)

variable {α : Type*} {f : ℕ → Option α} {n k j a b d e s : ℕ} {x y : α}

/-- How many of the first `n` slots hold something. -/
def occupied (f : ℕ → Option α) (n : ℕ) : ℕ :=
  ((Finset.range n).filter fun k => (f k).isSome).card

/-- What the first `n` slots hold, in slot order. -/
def entries (f : ℕ → Option α) (n : ℕ) : List α :=
  (range n).filterMap f

theorem update_some_eq_some :
    update f k (some x) j = some y ↔ j = k ∧ x = y ∨ j ≠ k ∧ f j = some y := by
  by_cases hj : j = k
  · subst hj
    simp
  · simp [hj]

theorem update_none_eq_some : update f k none j = some y ↔ j ≠ k ∧ f j = some y := by
  by_cases hj : j = k
  · subst hj
    simp
  · simp [hj]

theorem mem_entries : x ∈ entries f n ↔ ∃ k < n, f k = some x := by
  simp [entries]

theorem nodup_map_entries {β : Type*} {g : α → β}
    (h : ∀ {k j x y}, f k = some x → f j = some y → g x = g y → k = j) (n : ℕ) :
    ((entries f n).map g).Nodup := by
  rw [Nodup, pairwise_map, entries, pairwise_filterMap]
  refine Pairwise.imp ?_ (pairwise_lt_range (n := n))
  intro k j hkj x hx y hy heq
  exact hkj.ne (h hx hy heq)

theorem length_entries (f : ℕ → Option α) (n : ℕ) : (entries f n).length = occupied f n := by
  induction n with
  | zero => rfl
  | succ n ih =>
    have hentries : entries f (n + 1) = entries f n ++ (f n).toList := by
      simp only [entries, range_succ, filterMap_append]
      cases h : f n <;> simp [h]
    have hoccupied : occupied f (n + 1) = occupied f n + (f n).toList.length := by
      rw [occupied, Finset.range_add_one, Finset.filter_insert]
      cases h : f n <;> simp [occupied]
    rw [hentries, length_append, ih, hoccupied]

theorem occupied_insert (hk : k < n) (hf : f k = none) (x : α) :
    occupied (update f k (some x)) n = occupied f n + 1 := by
  have hset : ((Finset.range n).filter fun j => (update f k (some x) j).isSome) =
      insert k ((Finset.range n).filter fun j => (f j).isSome) := by
    ext j
    by_cases hj : j = k
    · subst hj
      simp [hk]
    · simp [hj]
  rw [occupied, hset, Finset.card_insert_of_notMem (by simp [hf])]
  rfl

theorem occupied_replace (n : ℕ) (hf : f k = some x) (y : α) :
    occupied (update f k (some y)) n = occupied f n := by
  unfold occupied
  congr 1
  ext j
  by_cases hj : j = k
  · subst hj
    simp [hf]
  · simp [Function.update_of_ne hj]

theorem occupied_erase (hk : k < n) (hf : f k = some x) :
    occupied (update f k none) n + 1 = occupied f n := by
  have h := occupied_insert hk (Function.update_self k none f) x
  rwa [Function.update_idem, ← hf, Function.update_eq_self, eq_comm] at h

theorem exists_free (h : occupied f n < n) : ∃ k < n, f k = none := by
  by_contra! hno
  have hall : (Finset.range n).filter (fun k => (f k).isSome) = Finset.range n := by
    rw [Finset.filter_eq_self]
    intro k hk
    exact isSome_iff_ne_none.2 (hno k (Finset.mem_range.1 hk))
  rw [occupied, hall, Finset.card_range] at h
  exact lt_irrefl n h

/-! ## Walking round a ring -/

theorem offset_inj (hd : d < n) (he : e < n) (h : (k + d) % n = (k + e) % n) : d = e := by
  have hmod : d ≡ e [MOD n] := Nat.ModEq.add_left_cancel' k h
  rwa [Nat.ModEq, Nat.mod_eq_of_lt hd, Nat.mod_eq_of_lt he] at hmod

theorem exists_offset (k : ℕ) (hj : j < n) : ∃ d < n, (k + d) % n = j := by
  have hn : 0 < n := by omega
  have hk : k % n < n := Nat.mod_lt k hn
  refine ⟨(j + (n - k % n)) % n, Nat.mod_lt _ hn, ?_⟩
  have hsum : k % n + (j + (n - k % n)) = j + n := by omega
  rw [Nat.add_mod, Nat.mod_mod, ← Nat.add_mod, ← Nat.mod_add_mod, hsum, Nat.add_mod_right,
    Nat.mod_eq_of_lt hj]

/-- A run of occupied slots is no longer than the number of occupied ones. -/
theorem le_occupied (hfree : occupied f n < n) (h : ∀ d < s, (f ((k + d) % n)).isSome) :
    s ≤ occupied f n := by
  by_contra! hlt
  let places := (Finset.range (occupied f n + 1)).image fun d => (k + d) % n
  have hcard : places.card = occupied f n + 1 := by
    rw [Finset.card_image_of_injOn, Finset.card_range]
    intro d hd e he hde
    simp only [Finset.coe_range, Set.mem_Iio] at hd he
    exact offset_inj (by omega) (by omega) hde
  have hle : places.card ≤ occupied f n := by
    apply Finset.card_le_card
    intro j hj
    obtain ⟨d, hd, rfl⟩ := Finset.mem_image.1 hj
    have hds := Finset.mem_range.1 hd
    exact Finset.mem_filter.2 ⟨Finset.mem_range.2 (Nat.mod_lt _ (by omega)), h d (by omega)⟩
  omega

/-- How many places after slot `a` of a ring of `n` slots the first free one comes. -/
def freeFrom (f : ℕ → Option α) (n a : ℕ) : Option ℕ :=
  (range n).find? fun d => (f ((a + d) % n)).isNone

/-- Walking round a ring that is not full ends at a free slot, over occupied ones. -/
theorem freeFrom_eq_some (h : occupied f n < n) (a : ℕ) :
    ∃ d < n, freeFrom f n a = some d ∧ f ((a + d) % n) = none ∧
      ∀ e < d, (f ((a + e) % n)).isSome := by
  obtain ⟨k, hk, hfree⟩ := exists_free h
  obtain ⟨e, he, rfl⟩ := exists_offset a hk
  have hsome : (freeFrom f n a).isSome := by
    rw [freeFrom, List.find?_isSome]
    exact ⟨e, mem_range.2 he, by simp [hfree]⟩
  obtain ⟨d, hd⟩ := isSome_iff_exists.1 hsome
  rw [freeFrom, List.find?_range_eq_some] at hd
  obtain ⟨hfreed, hmem, hbefore⟩ := hd
  refine ⟨d, mem_range.1 hmem, ?_, by simpa using hfreed, fun e he => ?_⟩
  · rw [freeFrom, List.find?_range_eq_some]
    exact ⟨hfreed, hmem, hbefore⟩
  · simpa [isSome_iff_ne_none] using hbefore e he

/-- The first slot at or after `a` that holds something. -/
def firstFrom (f : ℕ → Option α) (n a : ℕ) : Option ℕ :=
  (range n).find? fun k => a ≤ k && (f k).isSome

theorem firstFrom_eq_some :
    firstFrom f n a = some k ↔
      (a ≤ k ∧ k < n ∧ (f k).isSome) ∧ ∀ j, a ≤ j → j < k → f j = none := by
  rw [firstFrom, List.find?_range_eq_some]
  simp only [Bool.and_eq_true, decide_eq_true_eq, mem_range, Bool.not_eq_true',
    Bool.and_eq_false_imp, isSome_eq_false_iff, isNone_iff_eq_none]
  constructor
  · rintro ⟨⟨ha, hf⟩, hk, hbefore⟩
    exact ⟨⟨ha, hk, hf⟩, fun j hj hjk => hbefore j hjk hj⟩
  · rintro ⟨⟨ha, hk, hf⟩, hbefore⟩
    exact ⟨⟨ha, hf⟩, hk, fun j hjk hj => hbefore j hj hjk⟩

theorem firstFrom_eq_none : firstFrom f n a = none ↔ ∀ k, a ≤ k → k < n → f k = none := by
  rw [firstFrom, List.find?_eq_none]
  simp only [mem_range, Bool.and_eq_true, decide_eq_true_eq, not_and,
    Bool.not_eq_true, isSome_eq_false_iff, isNone_iff_eq_none]
  exact ⟨fun h k ha hk => h k hk ha, fun h k hk ha => h k ha hk⟩

end Foundation.Slots
