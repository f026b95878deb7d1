import Mathlib

/-!
# Linearizability

Operations on a shared object overlap in time. They linearize if they have the results of some order
of them one after the other, in which an operation that returned before another was invoked comes
first (`Linearizes`). A log to which each operation is added between its call and its return gives
such an order (`Points.linearizes`).
-/

namespace Foundation

open List

variable {σ O R : Type*}

/-- A sequential object: the result of an operation and the next state. There is none in a
state in which the operation has to wait. -/
abbrev Sequential (σ O R : Type*) := σ → O → Option (R × σ)

/-- One after the other, the operations have these results and lead from `s` to `s'`. -/
def Sequential.Legal (spec : Sequential σ O R) : σ → List (O × R) → σ → Prop
  | s, [], s' => s = s'
  | s, (o, r) :: order, s' => ∃ s₁, spec s o = some (r, s₁) ∧ Legal spec s₁ order s'

variable {spec : Sequential σ O R} {order : List (O × R)} {s s₁ s₂ : σ}

theorem Sequential.Legal.append {order' : List (O × R)} (h : spec.Legal s order s₁)
    (h' : spec.Legal s₁ order' s₂) : spec.Legal s (order ++ order') s₂ := by
  induction order generalizing s with
  | nil =>
    obtain rfl : s = s₁ := h
    exact h'
  | cons e order ih =>
    obtain ⟨s₀, hstep, hrest⟩ := h
    exact ⟨s₀, hstep, ih hrest⟩

theorem Sequential.Legal.concat (h : spec.Legal s order s₁) {o : O} {r : R}
    (hstep : spec s₁ o = some (r, s₂)) : spec.Legal s (order ++ [(o, r)]) s₂ :=
  h.append ⟨s₂, hstep, rfl⟩

/-- Every result in a legal order is one that the object can give. -/
theorem Sequential.Legal.exists_step {s s' : σ} (h : spec.Legal s order s') {e : O × R}
    (he : e ∈ order) : ∃ s₁ s₂, spec s₁ e.1 = some (e.2, s₂) := by
  induction order generalizing s with
  | nil => cases he
  | cons e' order ih =>
    obtain ⟨s₁, hstep, hrest⟩ := h
    rcases mem_cons.mp he with rfl | he
    · exact ⟨s, s₁, hstep⟩
    · exact ih hrest he

/-- What is seen of the operations from outside: `invokes t o` if `o` is called in step `t`,
`returns t o r` if after `t` steps `o` has the result `r`. -/
structure Observed (O R : Type*) where
  invokes : ℕ → O → Prop
  returns : ℕ → O → R → Prop

/-- After `T` steps, this order explains what was observed. Operations that have been called
and have not returned may be part of it. -/
structure Linearizes (spec : Sequential σ O R) (s₀ : σ) (obs : Observed O R) (T : ℕ)
    (order : List (O × R)) : Prop where
  legal : ∃ s, spec.Legal s₀ order s
  nodup : (order.map Prod.fst).Nodup
  invoked : ∀ e ∈ order, ∃ t < T, obs.invokes t e.1
  complete : ∀ o r, obs.returns T o r → (o, r) ∈ order
  realTime : ∀ t t' o r o', obs.returns t o r → t ≤ t' → obs.invokes t' o' →
    o' ∈ order.map Prod.fst → List.Sublist [o, o'] (order.map Prod.fst)

/-- A log of the operations that have taken effect. -/
structure Points (spec : Sequential σ O R) (s₀ : σ) (obs : Observed O R)
    (log : ℕ → List (O × R)) : Prop where
  grows : ∀ t, log t <+: log (t + 1)
  legal : ∀ t, ∃ s, spec.Legal s₀ (log t) s
  nodup : ∀ t, ((log t).map Prod.fst).Nodup
  invoked : ∀ t, ∀ e ∈ log t, ∃ t₀ < t, obs.invokes t₀ e.1
  returned : ∀ t o r, obs.returns t o r → (o, r) ∈ log t

namespace Points

variable {s₀ : σ} {obs : Observed O R} {log : ℕ → List (O × R)}

theorem mono (h : Points spec s₀ obs log) {t t' : ℕ} (hle : t ≤ t') : log t <+: log t' := by
  induction t', hle using Nat.le_induction with
  | base => exact prefix_rfl
  | succ t' _ ih => exact ih.trans (h.grows t')

/-- The order in which operations take effect explains what is observed, if every operation
is called only once. -/
theorem linearizes (h : Points spec s₀ obs log)
    (once : ∀ t t' o, obs.invokes t o → obs.invokes t' o → t = t') (T : ℕ) :
    Linearizes spec s₀ obs T (log T) := by
  refine ⟨h.legal T, h.nodup T, h.invoked T, h.returned T, ?_⟩
  intro t t' o r o' hret hle hinv hmem
  obtain ⟨e, he, rfl⟩ := mem_map.mp hmem
  obtain ⟨t₀, hlt, hinv₀⟩ := h.invoked T e he
  obtain rfl := once _ _ _ hinv hinv₀
  obtain ⟨rest, hrest⟩ := h.mono hlt.le
  have ho : o ∈ (log t').map Prod.fst :=
    mem_map_of_mem (f := Prod.fst) ((h.mono hle).subset (h.returned t o r hret))
  -- the later operation is not in the log at its own call
  have hnot : e ∉ log t' := by
    intro hmem'
    obtain ⟨t₁, hlt₁, hinv₁⟩ := h.invoked t' e hmem'
    exact absurd (once _ _ _ hinv hinv₁) (by omega)
  have ho' : e ∈ rest := by
    rw [← hrest, mem_append] at he
    exact he.resolve_left hnot
  rw [← hrest, map_append]
  exact (singleton_sublist.mpr ho).append
    (singleton_sublist.mpr (mem_map_of_mem (f := Prod.fst) ho'))

end Points

/-- A log can be made step by step. -/
theorem exists_chain {α : Type*} {P : ℕ → α → Prop} {Q : ℕ → α → α → Prop} {a : α} (h : P 0 a)
    (hstep : ∀ t x, P t x → ∃ y, P (t + 1) y ∧ Q t x y) :
    ∃ f : ℕ → α, f 0 = a ∧ (∀ t, P t (f t)) ∧ ∀ t, Q t (f t) (f (t + 1)) := by
  choose! next hP hQ using hstep
  set f : ℕ → α := fun t => Nat.rec a (fun t x => next t x) t with hf
  have hall : ∀ t, P t (f t) := by
    intro t
    induction t with
    | zero => exact h
    | succ t ih => exact hP t _ ih
  exact ⟨f, rfl, hall, fun t => hQ t _ (hall t)⟩

end Foundation
