import Mathlib

/-!
# Lists in the order of an index
-/

namespace Foundation

open List

variable {α β : Type*} {x : α}

/-! ## Indices -/

def Indexed (index : α → ℕ) (l : List α) (n : ℕ) : Prop := l.map index = range n

namespace Indexed

variable {index : α → ℕ} {l : List α} {n : ℕ}

variable (h : Indexed index l n)

include h

theorem length_eq : l.length = n := by
  have hlen := congrArg length h
  rwa [length_map, length_range] at hlen

variable {i : ℕ}

theorem index_getElem (hi : i < l.length) : index l[i] = i := by
  have hget := congrArg (·[i]?) h
  have hlt : i < n := h.length_eq ▸ hi
  simpa [hi, hlt] using hget

theorem getElem?_iff : l[i]? = some x ↔ x ∈ l ∧ index x = i := by
  constructor
  · intro hx
    obtain ⟨hi, rfl⟩ := List.getElem?_eq_some_iff.mp hx
    exact ⟨getElem_mem hi, h.index_getElem hi⟩
  · rintro ⟨hx, rfl⟩
    obtain ⟨i, hi, rfl⟩ := mem_iff_getElem.mp hx
    rw [h.index_getElem hi]
    exact List.getElem?_eq_getElem hi

theorem exists_getElem? (hi : i < n) : ∃ x, l[i]? = some x :=
  ⟨_, List.getElem?_eq_getElem (h.length_eq.symm ▸ hi)⟩

omit h

/-- A list that is sorted by the index and has each of the numbers once. -/
theorem of_pairwise (hsorted : l.Pairwise fun a b => index a ≤ index b) (hnodup : l.Nodup)
    (hinj : ∀ x ∈ l, ∀ y ∈ l, index x = index y → x = y) (hlt : ∀ x ∈ l, index x < n)
    (hcover : ∀ i < n, ∃ x ∈ l, index x = i) : Indexed index l n := by
  have hmap : (l.map index).Pairwise (· < ·) := by
    refine pairwise_map.mpr ((hsorted.and hnodup).imp_of_mem fun {a b} ha hb h => ?_)
    exact h.1.lt_of_ne fun heq => h.2 (hinj a ha b hb heq)
  refine hmap.eq_of_mem_iff pairwise_lt_range fun i => ?_
  rw [mem_map, mem_range]
  constructor
  · rintro ⟨x, hx, rfl⟩
    exact hlt x hx
  · exact hcover i

theorem pairwise (h : Indexed index l n) : l.Pairwise fun a b => index a < index b := by
  have hrange : (l.map index).Pairwise (· < ·) := by
    rw [show l.map index = range n from h]
    exact pairwise_lt_range
  exact pairwise_map.mp hrange

end Indexed

theorem pairwise_mergeSort_le [LinearOrder β] (key : α → β) (l : List α) :
    (l.mergeSort fun a b => decide (key a ≤ key b)).Pairwise fun a b => key a ≤ key b := by
  refine (pairwise_mergeSort ?_ ?_ l).imp fun h => of_decide_eq_true h
  · intro a b c hab hbc
    exact decide_eq_true ((of_decide_eq_true hab).trans (of_decide_eq_true hbc))
  · intro a b
    simpa using le_total (key a) (key b)

/-! ## Runs of the same key -/

def pushLast (x : α) : List (List α) → List (List α)
  | [] => []
  | [g] => [g ++ [x]]
  | g :: g' :: gs => g :: pushLast x (g' :: gs)

theorem pushLast_append (x : α) (gs : List (List α)) (g : List α) :
    pushLast x (gs ++ [g]) = gs ++ [g ++ [x]] := by
  induction gs with
  | nil => rfl
  | cons g' gs ih =>
    cases gs with
    | nil => rfl
    | cons g'' gs => simp only [cons_append, pushLast] at ih ⊢; rw [ih]

variable [DecidableEq β]

def groupStep (key : α → β) (st : Option β × List (List α)) (x : α) : Option β × List (List α) :=
  if st.1 = some (key x) then (st.1, pushLast x st.2)
  else (some (key x), pushLast x (st.2 ++ [[]]))

def grouped (key : α → β) (l : List α) : List (List α) := (l.foldl (groupStep key) (none, [])).2

/-- The runs with their keys, for a list that is sorted by `order` of the key. -/
structure Runs (key : α → β) (order : β → ℕ) (l : List α) (st : Option β × List (List α))
    (runs : List (β × List α)) : Prop where
  groups : st.2 = runs.map Prod.snd
  last : st.1 = runs.getLast?.map Prod.fst
  flatten : (runs.map Prod.snd).flatten = l
  ne_nil : ∀ run ∈ runs, run.2 ≠ []
  key_eq : ∀ run ∈ runs, ∀ x ∈ run.2, key x = run.1
  sorted : runs.Pairwise fun run run' => order run.1 < order run'.1

namespace Runs

variable {key : α → β} {order : β → ℕ} {l : List α} {st : Option β × List (List α)}
  {runs : List (β × List α)} {run : β × List α}

omit [DecidableEq β] in
theorem mem_of_mem_run (h : Runs key order l st runs) (hrun : run ∈ runs)
    (hx : x ∈ run.2) : x ∈ l := by
  rw [← h.flatten]
  exact mem_flatten.mpr ⟨run.2, mem_map.mpr ⟨run, hrun, rfl⟩, hx⟩

/-- The entry joins the last run. -/
theorem extend {front : List (β × List α)} {g : List α}
    (h : Runs key order l st (front ++ [(key x, g)])) :
    Runs key order (l ++ [x]) (groupStep key st x) (front ++ [(key x, g ++ [x])]) := by
  have hlast : st.1 = some (key x) := by simp [h.last]
  have hgroups : st.2 = front.map Prod.snd ++ [g] := by simp [h.groups]
  have hflatten := h.flatten
  have hsorted := h.sorted
  rw [groupStep, if_pos hlast]
  simp only [map_append, map_cons, map_nil, flatten_append, flatten_cons,
    flatten_nil, append_nil] at hflatten
  refine ⟨?_, ?_, ?_, ?_, ?_, ?_⟩
  · rw [hgroups, pushLast_append]
    simp
  · simp [hlast]
  · simp [← hflatten]
  · intro run hrun
    obtain hrun | hrun := mem_append.mp hrun
    · exact h.ne_nil run (mem_append_left _ hrun)
    · rw [mem_singleton.mp hrun]
      simp
  · intro run hrun y hy
    obtain hrun | hrun := mem_append.mp hrun
    · exact h.key_eq run (mem_append_left _ hrun) y hy
    · rw [mem_singleton.mp hrun] at hy ⊢
      obtain hy | hy := mem_append.mp hy
      · exact h.key_eq (key x, g) (mem_append_right _ (mem_singleton.mpr rfl)) y hy
      · rw [mem_singleton.mp hy]
  · rw [pairwise_append] at hsorted ⊢
    refine ⟨hsorted.1, pairwise_singleton _ _, fun run hrun run' hrun' => ?_⟩
    rw [mem_singleton.mp hrun']
    exact hsorted.2.2 run hrun (key x, g) (mem_singleton.mpr rfl)

theorem begin (h : Runs key order l st runs) (hne : st.1 ≠ some (key x))
    (hlt : ∀ run ∈ runs, order run.1 < order (key x)) :
    Runs key order (l ++ [x]) (groupStep key st x) (runs ++ [(key x, [x])]) := by
  rw [groupStep, if_neg hne, pushLast_append, nil_append]
  refine ⟨?_, ?_, ?_, ?_, ?_, ?_⟩
  · simp [h.groups]
  · simp
  · simp [h.flatten]
  · intro run hrun
    obtain hrun | hrun := mem_append.mp hrun
    · exact h.ne_nil run hrun
    · rw [mem_singleton.mp hrun]
      exact cons_ne_nil _ _
  · intro run hrun y hy
    obtain hrun | hrun := mem_append.mp hrun
    · exact h.key_eq run hrun y hy
    · rw [mem_singleton.mp hrun] at hy ⊢
      rw [mem_singleton.mp hy]
  · refine pairwise_append.mpr ⟨h.sorted, pairwise_singleton _ _, ?_⟩
    intro run hrun run' hrun'
    rw [mem_singleton.mp hrun']
    exact hlt run hrun

theorem eq_filter (h : Runs key order l st runs) (hrun : run ∈ runs) :
    run.2 = l.filter fun x => key x = run.1 := by
  obtain ⟨front, back, rfl⟩ := append_of_mem hrun
  have hsorted := pairwise_append.mp h.sorted
  have hback := (pairwise_cons.mp hsorted.2.1).1
  have hnone : ∀ runs' : List (β × List α), (∀ run' ∈ runs', run' ∈ front ++ run :: back) →
      (∀ run' ∈ runs', order run'.1 ≠ order run.1) →
      (runs'.map Prod.snd).flatten.filter (fun x => key x = run.1) = [] := by
    intro runs' hmem hne
    refine filter_eq_nil_iff.mpr fun x hx hkey => ?_
    obtain ⟨g, hg, hx⟩ := mem_flatten.mp hx
    obtain ⟨run', hrun', rfl⟩ := mem_map.mp hg
    have heq : run'.1 = run.1 := (h.key_eq run' (hmem run' hrun') x hx).symm.trans
      (of_decide_eq_true hkey)
    exact hne run' hrun' (heq ▸ rfl)
  have hall : run.2.filter (fun x => key x = run.1) = run.2 :=
    filter_eq_self.mpr fun x hx => decide_eq_true (h.key_eq run hrun x hx)
  rw [← h.flatten, map_append, map_cons, flatten_append, flatten_cons,
    filter_append, filter_append, hall, hnone front ?_ ?_, hnone back ?_ ?_]
  · simp
  · exact fun run' h' => mem_append_right _ (mem_cons_of_mem _ h')
  · exact fun run' h' => (hback run' h').ne'
  · exact fun run' h' => mem_append_left _ h'
  · exact fun run' h' => (hsorted.2.2 run' h' run mem_cons_self).ne

end Runs

variable {key : α → β} {order : β → ℕ} {l : List α}

theorem exists_runs (hsorted : l.Pairwise fun x y => order (key x) ≤ order (key y))
    (hinj : ∀ x ∈ l, ∀ y ∈ l, order (key x) = order (key y) → key x = key y) :
    ∃ runs, Runs key order l (l.foldl (groupStep key) (none, [])) runs := by
  -- the entries are added at the end, so the induction is on the front of the list
  induction l using reverseRecOn with
  | nil => exact ⟨[], rfl, rfl, rfl, nofun, nofun, .nil⟩
  | append_singleton l x ih =>
    rw [foldl_concat]
    obtain ⟨hfront, -, hle⟩ := pairwise_append.mp hsorted
    obtain ⟨runs, h⟩ := ih hfront fun y hy z hz =>
      hinj y (mem_append_left _ hy) z (mem_append_left _ hz)
    generalize l.foldl (groupStep key) (none, []) = st at h
    by_cases hlast : st.1 = some (key x)
    · rw [h.last] at hlast
      obtain ⟨⟨k, g⟩, hrun, rfl⟩ := Option.map_eq_some_iff.mp hlast
      obtain ⟨front, rfl⟩ := List.getLast?_eq_some_iff.mp hrun
      exact ⟨_, h.extend⟩
    · refine ⟨_, h.begin hlast fun run hrun => ?_⟩
      have hrunle : ∀ run ∈ runs, order run.1 ≤ order (key x) := by
        intro run hrun
        obtain ⟨y, hy⟩ := exists_mem_of_ne_nil _ (h.ne_nil run hrun)
        rw [← h.key_eq run hrun y hy]
        exact hle y (h.mem_of_mem_run hrun hy) x (mem_singleton.mpr rfl)
      obtain ⟨front, last, rfl⟩ := (eq_nil_or_concat' runs).resolve_left (ne_nil_of_mem hrun)
      have hlastlt : order last.1 < order (key x) := by
        have hmem : last ∈ front ++ [last] := mem_append_right _ (mem_singleton.mpr rfl)
        refine (hrunle last hmem).lt_of_ne fun heq => hlast ?_
        obtain ⟨y, hy⟩ := exists_mem_of_ne_nil _ (h.ne_nil last hmem)
        rw [← h.key_eq last hmem y hy] at heq
        have hkey := hinj y (mem_append_left _ (h.mem_of_mem_run hmem hy)) x
          (mem_append_right _ (mem_singleton.mpr rfl)) heq
        rw [h.last, ← hkey, h.key_eq last hmem y hy]
        simp
      obtain hrun | hrun := mem_append.mp hrun
      · have hlt := (pairwise_append.mp h.sorted).2.2 run hrun last (mem_singleton.mpr rfl)
        exact hlt.trans hlastlt
      · rw [mem_singleton.mp hrun]
        exact hlastlt

end Foundation
