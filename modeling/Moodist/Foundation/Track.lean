import Mathlib

/-!
# Tracks

A track is the list of entries that will be taken up one after the other. Some entries are pending,
and a pending entry must come up before every larger one, from a threshold on.
-/

namespace Foundation

open List

variable {α : Type*} [LinearOrder α] {b : α} {pending pending' track track' : List α}
  {done done' : α → Prop} {k q : α}

/-- From the threshold `b` on, the pending entries smaller than an entry of the track stand
before it, unless they are done. -/
def Covered (b : α) (pending : List α) (done : α → Prop) (track : List α) : Prop :=
  ∀ pre k post, track = pre ++ k :: post → b ≤ k → ∀ q ∈ pending, q < k → q ∈ pre ∨ done q

theorem Covered.nil : Covered b pending done [] := by
  intro pre k post h
  simp at h

variable (h : Covered b pending done track)

include h

theorem Covered.of_isPrefix (hpre : track' <+: track) :
    Covered b pending done track' := by
  obtain ⟨rest, rfl⟩ := hpre
  intro pre k post heq
  exact h pre k (post ++ rest) (by simp [heq])

theorem Covered.mono (hpending : ∀ q ∈ pending', q ∈ pending ∨ ∀ k ∈ track, k ≤ q)
    (hdone : ∀ q ∈ pending', done q → done' q) : Covered b pending' done' track := by
  intro pre k post heq hb q hq hlt
  have hk : k ∈ track := by simp [heq]
  rcases hpending q hq with hold | hnew
  · exact (h pre k post heq hb q hold hlt).imp_right (hdone q hq)
  · exact absurd (hnew k hk) (not_le.mpr hlt)

omit h

theorem Covered.head (h : Covered b pending done (k :: track)) (hb : b ≤ k) (hq : q ∈ pending)
    (hlt : q < k) : done q :=
  (h [] k track rfl hb q hq hlt).resolve_left (by simp)

theorem Covered.tail (h : Covered b pending done (k :: track)) :
    Covered b pending (fun q => done q ∨ q = k) track := by
  intro pre j post heq hb q hq hlt
  have := h (k :: pre) j post (by simp [heq]) hb q hq hlt
  simp only [mem_cons] at this
  tauto

theorem Covered.take_up (h : Covered b pending done (k :: track))
    (hpending : ∀ q ∈ pending', q ∈ pending ∧ q ≠ k) : Covered b pending' done track := by
  refine h.tail.mono (fun q hq => .inl (hpending q hq).1) ?_
  rintro q hq (hdone | rfl)
  · exact hdone
  · exact absurd rfl (hpending q hq).2

theorem Covered.append (h : Covered b pending done track)
    (h' : Covered b pending (fun q => done q ∨ q ∈ track) track') :
    Covered b pending done (track ++ track') := by
  intro pre k post heq hb q hq hlt
  rcases append_eq_append_iff.mp heq with ⟨mid, rfl, hmid⟩ | ⟨mid, rfl, hmid⟩
  · have := h' mid k post hmid hb q hq hlt
    simp only [mem_append]
    tauto
  · cases mid with
    | nil =>
      have := h' [] k post (by simpa using hmid.symm) hb q hq hlt
      simp only [append_nil, not_mem_nil, false_or] at this
      exact this.symm
    | cons x mid =>
      obtain ⟨rfl, -⟩ := List.cons.inj hmid
      exact h pre k mid rfl hb q hq hlt

theorem Covered.singleton (h : b ≤ k → ∀ q ∈ pending, q < k → done q) :
    Covered b pending done [k] := by
  intro pre j post heq hb q hq hlt
  rcases singleton_eq_append_iff.mp heq with ⟨rfl, hcons⟩ | ⟨-, hcons⟩
  · obtain ⟨rfl, -⟩ := List.cons.inj hcons
    exact .inr (h hb q hq hlt)
  · simp at hcons

include h

theorem Covered.concat (hk : b ≤ k → ∀ q ∈ pending, q < k → q ∈ track ∨ done q) :
    Covered b pending done (track ++ [k]) :=
  h.append <| Covered.singleton fun hb q hq hlt => (hk hb q hq hlt).symm

/-- All pending entries may be added in their order. -/
theorem Covered.append_sorted
    (hsorted : pending.Pairwise (· < ·)) : Covered b pending done (track ++ pending) := by
  refine h.append fun pre k post heq hb q hq hlt => .inl ?_
  rw [heq, pairwise_append] at hsorted
  rw [heq, mem_append, mem_cons] at hq
  rcases hq with hq | rfl | hq
  · exact hq
  · exact absurd hlt (lt_irrefl _)
  · have hkq := (pairwise_cons.mp hsorted.2.1).1 q hq
    exact absurd hlt (not_lt.mpr hkq.le)

end Foundation
