import Mathlib

/-!
# Cutting a list into parts

A list is dealt out to `n` owners. `SplitsInto` says that every part is a sublist and that every
element of a list without duplicates goes to exactly one owner.
-/

namespace Foundation

open List

variable {α : Type*}

/-- Chunk number `c` of `l`, for chunks of size `k`. -/
def chunk (l : List α) (k c : ℕ) : List α := (l.drop (c * k)).take k

/-- The indices `start`, `start + n`, `start + 2 * n`, … below `num`, at most `fuel`
of them. -/
def everyNth (num n : ℕ) : ℕ → ℕ → List ℕ
  | 0, _ => []
  | fuel + 1, start => if start < num then start :: everyNth num n fuel (start + n) else []

/-- The parts `part 0`, …, `part (n - 1)` deal out the list `l`. -/
structure SplitsInto (l : List α) (n : ℕ) (part : ℕ → List α) : Prop where
  sublist : ∀ i < n, (part i).Sublist l
  existsUnique : l.Nodup → ∀ x ∈ l, ∃! i, i < n ∧ x ∈ part i

theorem mem_everyNth {num n fuel start m : ℕ} :
    m ∈ everyNth num n fuel start ↔ m < num ∧ ∃ j < fuel, m = start + j * n := by
  induction fuel generalizing start with
  | zero => simp [everyNth]
  | succ fuel ih =>
    simp only [everyNth]
    split
    · next hlt =>
      rw [mem_cons, ih]
      constructor
      · rintro (rfl | ⟨hm, j, hj, rfl⟩)
        · exact ⟨hlt, 0, by omega, by simp⟩
        · exact ⟨hm, j + 1, by omega, by ring⟩
      · rintro ⟨hm, j, hj, rfl⟩
        cases j with
        | zero => left; simp
        | succ j => right; exact ⟨hm, j, by omega, by ring⟩
    · next hge =>
      simp only [not_mem_nil, false_iff, not_and, not_exists]
      intro hm j _ he
      omega

variable {l : List α}

/-- Element number `i` of a list without duplicates lies in chunk `i / k` only. -/
theorem getElem_mem_chunk_iff (hl : l.Nodup) {k c i : ℕ} (hk : 0 < k) (hi : i < l.length) :
    l[i] ∈ chunk l k c ↔ i / k = c := by
  rw [chunk, mem_iff_getElem]
  simp only [getElem_take, getElem_drop, length_take, length_drop]
  rw [Nat.div_eq_iff hk]
  constructor
  · rintro ⟨j, hj, he⟩
    have hij := (Nodup.getElem_inj_iff hl).mp he
    have hjk : j < k := lt_of_lt_of_le hj (min_le_left _ _)
    constructor <;> omega
  · rintro ⟨hlo, hhi⟩
    refine ⟨i - c * k, by omega, ?_⟩
    congr 1
    omega

theorem chunk_append_drop (l : List α) (k c : ℕ) :
    chunk l k c ++ l.drop ((c + 1) * k) = l.drop (c * k) := by
  have h : l.drop ((c + 1) * k) = (l.drop (c * k)).drop k := by
    rw [drop_drop]
    congr 1
    ring
  rw [h, chunk, take_append_drop]

theorem chunk_sublist (l : List α) (k c : ℕ) : (chunk l k c).Sublist l :=
  (take_sublist _ _).trans (drop_sublist _ _)

/-- One chunk per owner deals out a list that `n` chunks cover. -/
theorem splitsInto_chunk {k n : ℕ} (hk : 0 < k) (hn : l.length ≤ k * n) :
    SplitsInto l n (chunk l k) where
  sublist := fun i _ => chunk_sublist l k i
  existsUnique := by
    intro hl x hx
    obtain ⟨i, hi, rfl⟩ := getElem_of_mem hx
    refine ⟨i / k, ⟨?_, ?_⟩, ?_⟩
    · exact Nat.div_lt_of_lt_mul (by omega)
    · exact (getElem_mem_chunk_iff hl hk hi).mpr rfl
    · rintro c ⟨_, hc⟩
      exact ((getElem_mem_chunk_iff hl hk hi).mp hc).symm

/-- The chunks with indices in `everyNth` come from the list in order. -/
theorem flatMap_everyNth_sublist (l : List α) (k num : ℕ) {n : ℕ} (hn : 0 < n) (fuel start : ℕ) :
    ((everyNth num n fuel start).flatMap (chunk l k)).Sublist (l.drop (start * k)) := by
  induction fuel generalizing start with
  | zero => simp [everyNth]
  | succ fuel ih =>
    simp only [everyNth]
    split
    · rw [flatMap_cons, ← chunk_append_drop]
      refine Sublist.append (Sublist.refl _) ((ih (start + n)).trans ?_)
      have hle : (start + 1) * k ≤ (start + n) * k := Nat.mul_le_mul_right k (by omega)
      obtain ⟨d, hd⟩ := Nat.exists_eq_add_of_le hle
      rw [hd, ← drop_drop]
      exact drop_sublist _ _
    · simp

theorem flatMap_everyNth_one {k num : ℕ} (h : l.length ≤ num * k) {fuel start : ℕ}
    (hfuel : start + fuel = num) :
    (everyNth num 1 fuel start).flatMap (chunk l k) = l.drop (start * k) := by
  induction fuel generalizing start with
  | zero =>
    obtain rfl : start = num := hfuel
    rw [drop_eq_nil_of_le h]
    rfl
  | succ fuel ih =>
    rw [everyNth, if_pos (by omega), flatMap_cons, ih (by omega), chunk_append_drop]

/-- Dealing the chunks round robin to `n` owners deals out the list, when the chunks
below `num` cover it and the fuel reaches the last of them. -/
theorem splitsInto_everyNth {k n num fuel : ℕ} (hk : 0 < k) (hn : 0 < n)
    (hnum : l.length ≤ num * k) (hfuel : num ≤ fuel) :
    SplitsInto l n fun i => (everyNth num n fuel i).flatMap (chunk l k) where
  sublist := fun i _ =>
    (flatMap_everyNth_sublist l k num hn fuel i).trans (drop_sublist _ _)
  existsUnique := by
    intro hl x hx
    obtain ⟨i, hi, rfl⟩ := getElem_of_mem hx
    have hmem : ∀ o, l[i] ∈ (everyNth num n fuel o).flatMap (chunk l k) ↔
        i / k ∈ everyNth num n fuel o := by
      intro o
      rw [mem_flatMap]
      constructor
      · rintro ⟨c, hc, hmem⟩
        rwa [(getElem_mem_chunk_iff hl hk hi).mp hmem]
      · intro h
        exact ⟨_, h, (getElem_mem_chunk_iff hl hk hi).mpr rfl⟩
    have hlt : i / k < num := Nat.div_lt_of_lt_mul (by rw [Nat.mul_comm]; omega)
    simp only [hmem, mem_everyNth]
    refine ⟨i / k % n, ⟨Nat.mod_lt _ hn, hlt, i / k / n, ?_, ?_⟩, ?_⟩
    · have := Nat.div_le_self (i / k) n
      omega
    · rw [Nat.mul_comm, Nat.mod_add_div]
    · rintro o ⟨ho, _, j, _, he⟩
      rw [he, Nat.add_mul_mod_self_right, Nat.mod_eq_of_lt ho]

/-- Dealing a list out by a number below `n` only changes the order. -/
theorem flatMap_range_filter_perm (f : α → ℕ) (l : List α) (n : ℕ) (h : ∀ a ∈ l, f a < n) :
    ((range n).flatMap fun i => l.filter fun a => f a = i).Perm l := by
  have hbelow : ∀ m, ((range m).flatMap fun i => l.filter fun a => f a = i).Perm
      (l.filter fun a => f a < m) := by
    intro m
    induction m with
    | zero => simp
    | succ m ih =>
      have hsplit := filter_append_perm (fun a => decide (f a < m)) (l.filter fun a => f a < m + 1)
      rw [filter_filter, filter_filter] at hsplit
      rw [range_succ, flatMap_append, flatMap_singleton]
      refine (ih.append_right _).trans (Perm.trans (Perm.of_eq ?_) hsplit)
      congr 1 <;> refine filter_congr fun a _ => ?_
      · simp only [← Bool.decide_and, decide_eq_decide]
        omega
      · rw [← decide_not, ← Bool.decide_and, decide_eq_decide]
        omega
  have hself : l.filter (fun a => f a < n) = l := filter_eq_self.mpr (by simpa using h)
  exact (hbelow n).trans (Perm.of_eq hself)

end Foundation
