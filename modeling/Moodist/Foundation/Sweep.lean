import Moodist.Foundation.Slots

/-!
# Sweeping over a table of slots

A loop goes over the occupied slots of a table from the first to the last.
-/

namespace Foundation.Slots

open List Function Option

variable {α : Type*} {f f₀ : ℕ → Option α} {n p q : ℕ} {x y : α}

/-- The first occupied slot at or after `a`, or the end of the table. -/
def nextFrom (f : ℕ → Option α) (n a : ℕ) : ℕ := (firstFrom f n a).getD n

/-- What the slots from `p` on hold. -/
def rest (f : ℕ → Option α) (n p : ℕ) : List α := (range' p (n - p)).filterMap f

theorem entries_append_rest (f : ℕ → Option α) (hp : p ≤ n) :
    entries f p ++ rest f n p = entries f n := by
  have hrange : range p ++ range' p (n - p) = range n := by
    rw [range_eq_range', range_eq_range', ← Nat.add_sub_cancel' hp, ← range'_append_1]
    simp
  rw [entries, rest, ← filterMap_append, hrange, entries]

theorem rest_self (f : ℕ → Option α) (n : ℕ) : rest f n n = [] := by
  simp [rest]

variable {g : ℕ → Option α}

theorem entries_congr (h : ∀ k < p, f k = g k) : entries f p = entries g p :=
  filterMap_congr fun k hk => h k (mem_range.1 hk)

theorem rest_congr (h : ∀ k, p ≤ k → f k = g k) : rest f n p = rest g n p :=
  filterMap_congr fun k hk => h k (by
    obtain ⟨_, _, rfl⟩ := mem_range'.1 hk
    omega)

theorem rest_of_eq_some (hp : p < n) (hf : f p = some x) : rest f n p = x :: rest f n (p + 1) := by
  obtain ⟨k, hk⟩ : ∃ k, n - p = k + 1 := ⟨n - p - 1, by omega⟩
  rw [rest, rest, hk, range'_succ, filterMap_cons_some hf]
  congr 3
  omega

theorem entries_succ_of_eq_some (hf : f p = some x) : entries f (p + 1) = entries f p ++ [x] := by
  simp [entries, range_succ, hf]

variable {a b : ℕ}

theorem nextFrom_congr (h : ∀ k, a ≤ k → f k = g k) : nextFrom f n a = nextFrom g n a := by
  have hfun : (fun k => decide (a ≤ k) && (f k).isSome) =
      fun k => decide (a ≤ k) && (g k).isSome := by
    funext k
    by_cases hk : a ≤ k
    · rw [h k hk]
    · simp [hk]
  rw [nextFrom, nextFrom, firstFrom, firstFrom, hfun]

/-- Free slots may be skipped. -/
theorem nextFrom_spec (f : ℕ → Option α) (ha : a ≤ n) :
    a ≤ nextFrom f n a ∧ nextFrom f n a ≤ n ∧ (∀ k, a ≤ k → k < nextFrom f n a → f k = none) ∧
      (nextFrom f n a < n → (f (nextFrom f n a)).isSome) := by
  cases h : firstFrom f n a with
  | some k =>
    obtain ⟨⟨hak, hk, hf⟩, hbefore⟩ := firstFrom_eq_some.1 h
    simp only [nextFrom, h, getD_some]
    exact ⟨hak, hk.le, hbefore, fun _ => hf⟩
  | none =>
    simp only [nextFrom, h, getD_none]
    exact ⟨ha, le_refl n, firstFrom_eq_none.1 h, fun hlt => absurd hlt (lt_irrefl n)⟩

theorem nextFrom_eq (hab : a ≤ b) (hb : b ≤ n) (hfree : ∀ k, a ≤ k → k < b → f k = none)
    (hf : b < n → (f b).isSome) : nextFrom f n a = b := by
  obtain ⟨hlow, hle, hfree', hf'⟩ := nextFrom_spec f (hab.trans hb)
  by_contra hne
  obtain hlt | hlt := Nat.lt_or_gt_of_ne hne
  · have hsome := hf' (by omega)
    rw [hfree _ hlow hlt] at hsome
    cases hsome
  · have hsome := hf (by omega)
    rw [hfree' b hab hlt] at hsome
    cases hsome

theorem entries_of_free (hab : a ≤ b) (h : ∀ k, a ≤ k → k < b → f k = none) :
    entries f b = entries f a := by
  have hnil : rest f b a = [] := by
    rw [rest, filterMap_eq_nil_iff]
    intro k hk
    obtain ⟨i, hi, rfl⟩ := mem_range'.1 hk
    exact h _ (by omega) (by omega)
  rw [← entries_append_rest f hab, hnil, append_nil]

theorem rest_of_free (hab : a ≤ b) (hb : b ≤ n) (h : ∀ k, a ≤ k → k < b → f k = none) :
    rest f n a = rest f n b := by
  have hsplit := (entries_append_rest f (hab.trans hb)).trans (entries_append_rest f hb).symm
  rw [entries_of_free hab h] at hsplit
  exact append_cancel_left hsplit

/-- Taking one entry out of the rest. -/
theorem rest_perm_update (hpq : p ≤ q) (hq : q < n) (hf : f q = some y) :
    Perm (rest f n p) (y :: rest (update f q none) n p) := by
  have hsplit : ∀ g : ℕ → Option α, rest g n p =
      (range' p (q - p)).filterMap g ++ rest g n q := by
    intro g
    rw [rest, rest, ← filterMap_append]
    congr 1
    have hlen : n - p = (q - p) + (n - q) := by omega
    rw [hlen, ← range'_append_1]
    congr 2
    omega
  have hbefore : (range' p (q - p)).filterMap (update f q none) =
      (range' p (q - p)).filterMap f := by
    refine filterMap_congr fun k hk => ?_
    obtain ⟨i, hi, rfl⟩ := mem_range'.1 hk
    exact update_of_ne (by omega) _ _
  have hafter : rest (update f q none) n q = rest f n (q + 1) := by
    rw [rest_of_free (Nat.le_succ q) hq]
    · exact rest_congr fun k hk => update_of_ne (by omega) _ _
    · intro k hk hk'
      have hkq : k = q := by omega
      rw [hkq, update_self]
  rw [hsplit f, hsplit (update f q none), hbefore, hafter, rest_of_eq_some hq hf]
  exact perm_middle

/-! ## The loop -/

/-- The invariant of a loop over a table that started as `f₀`: it is at slot `p` of what is
now `f`, and has looked at `visited`, where it noted which entries it erased. -/
structure Sweep (f₀ : ℕ → Option α) (n : ℕ) (f : ℕ → Option α) (p : ℕ)
    (visited : List (α × Bool)) : Prop where
  le : p ≤ n
  perm : Perm (visited.map Prod.fst ++ rest f n p) (entries f₀ n)
  kept : Perm (entries f p) ((visited.filter fun e => !e.2).map Prod.fst)

namespace Sweep

variable {visited : List (α × Bool)}

theorem start (f : ℕ → Option α) (n : ℕ) : Sweep f n f (nextFrom f n 0) [] := by
  obtain ⟨-, hle, hfree, -⟩ := nextFrom_spec f (Nat.zero_le n)
  refine ⟨hle, ?_, ?_⟩
  · rw [map_nil, nil_append, ← entries_append_rest f hle, entries_of_free (Nat.zero_le _) hfree]
    exact Perm.refl _
  · rw [entries_of_free (Nat.zero_le _) hfree]
    exact Perm.refl _

section

variable (h : Sweep f₀ n f p visited)

include h

variable (hp : p < n) (hf : f p = some x)

include hp hf

/-- Going on from a slot whose entry was looked at, whether or not it is still there. -/
theorem goOn {g : ℕ → Option α} {b : Bool}
    (hg : ∀ k, k ≠ p → g k = f k) (hb : g p = if b then none else some x) :
    Sweep f₀ n g (nextFrom g n (p + 1)) (visited ++ [(x, b)]) := by
  obtain ⟨hlow, hle, hfree, -⟩ := nextFrom_spec g (Nat.succ_le_of_lt hp)
  have hrest : rest g n (nextFrom g n (p + 1)) = rest f n (p + 1) := by
    rw [← rest_of_free hlow hle hfree]
    exact rest_congr fun k hk => hg k (by omega)
  have hbelow : entries g p = entries f p := entries_congr fun k hk => hg k (by omega)
  refine ⟨hle, ?_, ?_⟩
  · rw [hrest, map_append, map_singleton, append_assoc, singleton_append, ← rest_of_eq_some hp hf]
    exact h.perm
  · rw [entries_of_free hlow hfree]
    cases b with
    | false =>
      rw [entries_succ_of_eq_some hb, hbelow, filter_append, map_append]
      exact h.kept.append_right _
    | true =>
      rw [entries_of_free (Nat.le_succ p) (fun k hk hk' => ?_), hbelow, filter_append]
      · simpa using h.kept
      · have hkp : k = p := by omega
        rw [hkp, hb, if_pos rfl]

theorem keep :
    Sweep f₀ n f (nextFrom f n (p + 1)) (visited ++ [(x, false)]) :=
  h.goOn hp hf (fun _ _ => rfl) hf

theorem clear :
    Sweep f₀ n (update f p none) (nextFrom f n (p + 1)) (visited ++ [(x, true)]) := by
  have hnext : nextFrom (update f p none) n (p + 1) = nextFrom f n (p + 1) :=
    nextFrom_congr fun k hk => update_of_ne (by omega) _ _
  rw [← hnext]
  exact h.goOn hp hf (fun k hk => update_of_ne hk _ _) (update_self ..)

/-- Erasing an entry and putting one from further on in its place. -/
theorem move (hpq : p < q) (hq : q < n) (hfq : f q = some y) :
    Sweep f₀ n (update (update f p (some y)) q none) p
      (visited ++ [(x, true)]) := by
  refine ⟨h.le, ?_, ?_⟩
  · have hmoved : update (update f p (some y)) q none p = some y := by
      rw [update_of_ne hpq.ne, update_self]
    have hrest : rest (update (update f p (some y)) q none) n (p + 1) =
        rest (update f q none) n (p + 1) := by
      refine rest_congr fun k hk => ?_
      by_cases hkq : k = q
      · rw [hkq, update_self, update_self]
      · rw [update_of_ne hkq, update_of_ne hkq, update_of_ne (by omega)]
    have hperm : Perm (rest f n p)
        (x :: rest (update (update f p (some y)) q none) n p) := by
      rw [rest_of_eq_some hp hf, rest_of_eq_some hp hmoved, hrest]
      exact (rest_perm_update hpq hq hfq).cons x
    rw [map_append, map_singleton, append_assoc, singleton_append]
    exact (hperm.symm.append_left _).trans h.perm
  · rw [filter_append, entries_congr (g := f) fun k hk => ?_]
    · simpa using h.kept
    · rw [update_of_ne (by omega), update_of_ne (by omega)]

end

theorem visited_perm (h : Sweep f₀ n f n visited) :
    Perm (visited.map Prod.fst) (entries f₀ n) := by
  have hperm := h.perm
  rwa [rest_self, append_nil] at hperm

end Sweep

end Foundation.Slots
