import Mathlib

/-!
# Lanes

Entries arrive one after another, and each waits in the lane of its key until it leaves from the
front. `all` is what has arrived and `gone` what has left, in that order.
-/

namespace Foundation

open List Function

variable {α κ : Type*} [DecidableEq κ]

/-- What has arrived with a key is what has left with it, followed by its lane. -/
def Lanes (key : α → κ) (all gone : List α) (lanes : κ → List α) : Prop :=
  ∀ k, all.filter (fun a => key a = k) = gone.filter (fun a => key a = k) ++ lanes k

namespace Lanes

variable {key : α → κ} {all gone : List α} {lanes : κ → List α}

theorem nil : Lanes key [] [] fun _ => [] := fun _ => rfl

theorem push (h : Lanes key all gone lanes) (a : α) :
    Lanes key (all ++ [a]) gone (update lanes (key a) (lanes (key a) ++ [a])) := by
  intro k
  rw [filter_append, h k, append_assoc]
  by_cases hk : key a = k
  · subst hk
    simp
  · simp [hk, update_of_ne (Ne.symm hk)]

variable {a : α}

theorem pop (h : Lanes key all gone lanes) (ha : (lanes (key a)).head? = some a) :
    Lanes key all (gone ++ [a]) (update lanes (key a) (lanes (key a)).tail) := by
  intro k
  rw [h k, filter_append]
  by_cases hk : key a = k
  · subst hk
    have hcons : lanes (key a) = a :: (lanes (key a)).tail := eq_cons_of_mem_head? ha
    rw [update_self, append_assoc]
    simpa using hcons
  · simp [hk, update_of_ne (Ne.symm hk)]

variable {k : κ} {current : List α}

section

variable (h : Lanes key all gone lanes)

include h

theorem key_eq_of_mem (ha : a ∈ lanes k) : key a = k := by
  have hmem : a ∈ all.filter (fun a => key a = k) := by
    rw [h k]
    exact mem_append_right _ ha
  simpa using (mem_filter.mp hmem).2

theorem mem_all_of_mem (ha : a ∈ lanes k) : a ∈ all := by
  have hmem : a ∈ all.filter (fun a => key a = k) := by
    rw [h k]
    exact mem_append_right _ ha
  exact (mem_filter.mp hmem).1

theorem mem_all_of_mem_gone (ha : a ∈ gone) : a ∈ all := by
  have hmem : a ∈ all.filter (fun b => key b = key a) := by
    rw [h (key a)]
    exact mem_append_left _ (mem_filter.mpr ⟨ha, by simp⟩)
  exact (mem_filter.mp hmem).1

theorem notMem_gone_of_mem (hall : all.Nodup) (ha : a ∈ lanes k) : a ∉ gone := by
  intro hgone
  have hnodup := hall.filter fun a => decide (key a = k)
  rw [h k, nodup_append] at hnodup
  have hkey : decide (key a = k) = true := by simpa using h.key_eq_of_mem ha
  exact hnodup.2.2 a (mem_filter.mpr ⟨hgone, hkey⟩) a ha rfl

end

/-- A new entry is at the front if its lane was empty. -/
theorem head?_push_iff (key : α → κ) (lanes : κ → List α) (a b : α) :
    (update lanes (key a) (lanes (key a) ++ [a]) (key b)).head? = some b ↔
      (lanes (key b)).head? = some b ∨ (b = a ∧ lanes (key a) = []) := by
  by_cases hk : key b = key a
  · rw [hk, update_self, List.head?_append]
    cases hlane : lanes (key a) with
    | nil => simp [eq_comm]
    | cons c rest => simp
  · rw [update_of_ne hk]
    refine (or_iff_left ?_).symm
    rintro ⟨rfl, -⟩
    exact hk rfl

theorem head?_pop_of_ne (key : α → κ) (lanes : κ → List α) (hk : k ≠ key a) :
    (update lanes (key a) (lanes (key a)).tail k).head? = (lanes k).head? := by
  rw [update_of_ne hk]

theorem append_of_filter
    (h : Lanes key all gone fun k => current.filter fun a => key a = k) (added : List α) :
    Lanes key (all ++ added) gone fun k => (current ++ added).filter fun a => key a = k := by
  intro k
  rw [filter_append, h k, append_assoc, ← filter_append]

theorem remove_of_filter {front back : List α}
    (h : Lanes key all gone fun k => (front ++ a :: back).filter fun a => key a = k)
    (honly : ∀ b ∈ front ++ back, key b ≠ key a) :
    Lanes key all (gone ++ [a]) fun k => (front ++ back).filter fun a => key a = k := by
  intro k
  rw [h k, filter_append, append_assoc]
  by_cases hk : key a = k
  · subst hk
    have hnone : (front ++ back).filter (fun b => key b = key a) = [] := by
      rw [filter_eq_nil_iff]
      intro b hb
      simpa using honly b hb
    rw [filter_append, append_eq_nil_iff] at hnone
    simp [hnone.1, hnone.2]
  · simp [hk]

/-- Of entries that are at the front of their lanes, those with one key are the start of its
lane. -/
theorem filter_prefix (hnodup : current.Nodup)
    (hfront : ∀ a ∈ current, (lanes (key a)).head? = some a) :
    current.filter (fun a => key a = k) <+: lanes k := by
  have hhead : ∀ a ∈ current.filter (fun a => key a = k), (lanes k).head? = some a := by
    intro a ha
    obtain ⟨hmem, hk⟩ := mem_filter.mp ha
    rw [← of_decide_eq_true hk]
    exact hfront a hmem
  cases hf : current.filter (fun a => key a = k) with
  | nil => exact nil_prefix
  | cons a rest =>
    have ha : (lanes k).head? = some a := hhead a (by simp [hf])
    have hrest : rest = [] := by
      refine eq_nil_iff_forall_not_mem.mpr fun b hb => ?_
      have hb' : (lanes k).head? = some b := hhead b (by simp [hf, hb])
      have hcons := hnodup.filter fun a => decide (key a = k)
      rw [hf, nodup_cons] at hcons
      rw [ha] at hb'
      exact hcons.1 (Option.some.inj hb' ▸ hb)
    rw [hrest, eq_cons_of_mem_head? ha]
    exact ⟨_, rfl⟩

/-- The entries before it with its key have left, and nothing else with its key has. -/
theorem head?_of_earliest (h : Lanes key all gone lanes) (hall : all.Nodup) {pre post : List α}
    (heq : all = pre ++ a :: post) (hpre : ∀ b ∈ pre, b ∈ gone) (ha : a ∉ gone) :
    (lanes (key a)).head? = some a := by
  have hk := h (key a)
  have hcons : all.filter (fun b => key b = key a) =
      pre.filter (fun b => key b = key a) ++ a :: post.filter (fun b => key b = key a) := by
    rw [heq]
    simp
  rw [hcons] at hk
  obtain ⟨rest, hgone, hrest⟩ | ⟨rest, hpre', hlane⟩ := append_eq_append_iff.mp hk
  · -- more than the entries before it has left, so it has left too
    cases rest with
    | nil =>
      rw [nil_append] at hrest
      rw [← hrest, List.head?_cons]
    | cons b rest =>
      obtain ⟨rfl, -⟩ := List.cons.inj hrest
      have hmem : a ∈ gone.filter (fun b => key b = key a) := by
        rw [hgone]
        simp
      exact absurd (mem_filter.mp hmem).1 ha
  · -- an entry before it is still in the lane
    cases rest with
    | nil => simp [hlane]
    | cons b rest =>
      have hb : b ∈ pre := by
        have hmem : b ∈ pre.filter (fun b => key b = key a) := by
          rw [hpre']
          simp
        exact (mem_filter.mp hmem).1
      have hmem : b ∈ lanes (key a) := by
        rw [hlane]
        simp
      exact absurd (hpre b hb) (h.notMem_gone_of_mem hall hmem)

end Lanes

end Foundation
