import Mathlib

/-!
# First-in first-out queues along a run

A queue over time, to which entries are added at the end and from which some steps take the
head. If the head is taken again and again, every entry gets to the head.
-/

namespace Foundation

variable {α : Type*}

/-- The history of a queue: the steps in `pop` take the head, and every step may append. -/
structure FifoHistory (q : ℕ → List α) (pop : ℕ → Prop) : Prop where
  taken : ∀ t, pop t → ∃ extra, q (t + 1) = (q t).tail ++ extra
  kept : ∀ t, ¬ pop t → ∃ extra, q (t + 1) = q t ++ extra

variable {q : ℕ → List α} {pop : ℕ → Prop} {x : α}

/-- As long as nothing is taken, an entry keeps its place. -/
theorem FifoHistory.getElem?_of_kept (h : FifoHistory q pop) {t t' i : ℕ}
    (hx : (q t)[i]? = some x) (hle : t ≤ t') (hkept : ∀ k, t ≤ k → k < t' → ¬ pop k) :
    (q t')[i]? = some x := by
  induction t', hle using Nat.le_induction with
  | base => exact hx
  | succ t' hle ih =>
    have hprev := ih fun k hk hlt => hkept k hk (by omega)
    obtain ⟨extra, hextra⟩ := h.kept t' (hkept t' hle (by omega))
    rw [hextra, List.getElem?_append_left (List.getElem?_eq_some_iff.mp hprev).1, hprev]

variable (h : FifoHistory q pop) (hfair : ∀ t, q t ≠ [] → ∃ t' ≥ t, pop t') {t i : ℕ}

include h hfair

/-- The next step that takes the head finds an entry at its old place. -/
theorem FifoHistory.exists_pop (hx : (q t)[i]? = some x) :
    ∃ t' ≥ t, pop t' ∧ (q t')[i]? = some x := by
  classical
  have hne : q t ≠ [] := by
    rintro heq
    simp [heq] at hx
  have hex : ∃ k, pop (t + k) := by
    obtain ⟨t', hle, hpop⟩ := hfair t hne
    exact ⟨t' - t, by rwa [Nat.add_sub_cancel' hle]⟩
  refine ⟨t + Nat.find hex, by omega, Nat.find_spec hex, ?_⟩
  refine h.getElem?_of_kept hx (by omega) fun k hk hlt hpop => ?_
  exact Nat.find_min hex (m := k - t) (by omega) (by rwa [Nat.add_sub_cancel' hk])

/-- Every entry of a fairly served queue is taken from its head. -/
theorem FifoHistory.eventually_head (hx : (q t)[i]? = some x) :
    ∃ t' ≥ t, pop t' ∧ (q t').head? = some x := by
  induction i generalizing t with
  | zero =>
    obtain ⟨t', hle, hpop, hplace⟩ := h.exists_pop hfair hx
    exact ⟨t', hle, hpop, by rw [List.head?_eq_getElem?, hplace]⟩
  | succ i ih =>
    -- a step that takes the head moves the entry one place up
    obtain ⟨t₁, hle₁, hpop₁, hplace⟩ := h.exists_pop hfair hx
    obtain ⟨extra, hextra⟩ := h.taken t₁ hpop₁
    have htail : (q t₁).tail[i]? = some x := by rw [List.getElem?_tail, hplace]
    have hnext : (q (t₁ + 1))[i]? = some x := by
      rw [hextra, List.getElem?_append_left (List.getElem?_eq_some_iff.mp htail).1, htail]
    obtain ⟨t', hle, hpop, hhead⟩ := ih hnext
    exact ⟨t', by omega, hpop, hhead⟩

end Foundation
