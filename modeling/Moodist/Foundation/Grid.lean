import Mathlib

/-!
# Grids cut along given boundaries

A grid has a list of boundaries in every dimension. A cell takes one interval between neighbouring
boundaries in each of them.
-/

namespace Foundation

open List

section Line

variable {α : Type*}

/-- `p` goes from one boundary to the next. -/
def Gap (b : List α) (p : α × α) : Prop := ∃ i : ℕ, b[i]? = some p.1 ∧ b[i + 1]? = some p.2

theorem Gap.cons {a : α} {b : List α} {p : α × α} (h : Gap b p) : Gap (a :: b) p := by
  obtain ⟨i, hlo, hhi⟩ := h
  exact ⟨i + 1, by simpa using hlo, by simpa using hhi⟩

variable [LinearOrder α]

variable {b : List α} {p : α × α}

variable (hb : b.Pairwise (· < ·))

include hb

theorem Gap.lt (h : Gap b p) : p.1 < p.2 := by
  obtain ⟨i, hlo, hhi⟩ := h
  obtain ⟨hi, hp⟩ := List.getElem?_eq_some_iff.mp hlo
  obtain ⟨hi', hp'⟩ := List.getElem?_eq_some_iff.mp hhi
  rw [← hp, ← hp']
  exact pairwise_iff_getElem.mp hb i (i + 1) hi hi' (by omega)

/-- No boundary lies strictly between neighbours. -/
theorem Gap.le_or_le (h : Gap b p) {y : α} (hy : y ∈ b) :
    y ≤ p.1 ∨ p.2 ≤ y := by
  obtain ⟨i, hlo, hhi⟩ := h
  obtain ⟨hi, hp⟩ := List.getElem?_eq_some_iff.mp hlo
  obtain ⟨hi', hp'⟩ := List.getElem?_eq_some_iff.mp hhi
  obtain ⟨j, hj, rfl⟩ := getElem_of_mem hy
  have hmono := pairwise_iff_getElem.mp (hb.imp le_of_lt)
  rw [← hp, ← hp']
  rcases lt_trichotomy j i with h | rfl | h
  · exact .inl (hmono j i hj hi h)
  · exact .inl le_rfl
  · rcases (show i + 1 ≤ j from h).eq_or_lt with rfl | h'
    · exact .inr le_rfl
    · exact .inr (hmono (i + 1) j hi' hj h')

/-- An interval that ends on boundaries contains a point exactly when it contains the gap around
the point. -/
theorem Gap.mem_iff {q : α × α} {x : α} (h : Gap b p)
    (hq : q.1 ∈ b ∧ q.2 ∈ b) (hx : p.1 ≤ x ∧ x < p.2) :
    (q.1 ≤ x ∧ x < q.2) ↔ (q.1 ≤ p.1 ∧ p.2 ≤ q.2) := by
  constructor
  · rintro ⟨hlo, hhi⟩
    constructor
    · exact (h.le_or_le hb hq.1).resolve_right fun hle => absurd (hx.2.trans_le hle) hlo.not_gt
    · exact (h.le_or_le hb hq.2).resolve_left fun hle => absurd (hle.trans hx.1) hhi.not_ge
  · rintro ⟨hlo, hhi⟩
    exact ⟨hlo.trans hx.1, hx.2.trans_le hhi⟩

/-- A point between two boundaries is in some gap. -/
theorem exists_gap {lo hi x : α} (hlo : lo ∈ b) (hhi : hi ∈ b)
    (hx : lo ≤ x ∧ x < hi) : ∃ p, Gap b p ∧ p.1 ≤ x ∧ x < p.2 := by
  induction b generalizing lo with
  | nil => simp at hlo
  | cons a l ih =>
    have hal : ∀ c ∈ l, a < c := fun c hc => rel_of_pairwise_cons hb hc
    have hax : a ≤ x := by
      rcases mem_cons.mp hlo with rfl | h
      · exact hx.1
      · exact (hal lo h).le.trans hx.1
    have hhi' : hi ∈ l := by
      rcases mem_cons.mp hhi with rfl | h
      · exact absurd hx.2 hax.not_gt
      · exact h
    cases l with
    | nil => simp at hhi'
    | cons c l =>
      by_cases hc : x < c
      · exact ⟨(a, c), ⟨0, rfl, rfl⟩, hax, hc⟩
      · obtain ⟨p, hp, hpx⟩ := ih hb.of_cons mem_cons_self hhi' ⟨not_lt.mp hc, hx.2⟩
        exact ⟨p, hp.cons, hpx⟩

end Line

section Space

variable {α : Type*}

def IsCell (bs : List (List α)) (c : List (α × α)) : Prop := Forall₂ Gap bs c

def Aligned (bs : List (List α)) (box : List (α × α)) : Prop :=
  Forall₂ (fun b q => q.1 ∈ b ∧ q.2 ∈ b) bs box

variable [LinearOrder α]

def InSpan (box : List (α × α)) (x : List α) : Prop :=
  Forall₂ (fun q y => q.1 ≤ y ∧ y < q.2) box x

def Inside (c box : List (α × α)) : Prop :=
  Forall₂ (fun p q => q.1 ≤ p.1 ∧ p.2 ≤ q.2) c box

def Increasing (bs : List (List α)) : Prop := ∀ b ∈ bs, b.Pairwise (· < ·)

variable {bs : List (List α)}

theorem Increasing.tail {b : List α} (h : Increasing (b :: bs)) :
    Increasing bs := fun b' hb' => h b' (mem_cons_of_mem _ hb')

variable {c box : List (α × α)} {x : List α}

theorem Inside.inSpan (h : Inside c box) (hx : InSpan c x) : InSpan box x := by
  induction h generalizing x with
  | nil => exact hx
  | cons hpq _ ih =>
    cases hx with
    | cons hy hx => exact .cons ⟨hpq.1.trans hy.1, hy.2.trans_le hpq.2⟩ (ih hx)

variable (hbs : Increasing bs)

include hbs

/-- A box on the grid contains a point exactly when it contains the cell of the point. -/
theorem IsCell.inSpan_iff (hc : IsCell bs c) (hbox : Aligned bs box)
    (hx : InSpan c x) : InSpan box x ↔ Inside c box := by
  refine ⟨fun h => ?_, fun h => h.inSpan hx⟩
  induction hc generalizing box x with
  | nil =>
    cases hbox
    exact .nil
  | cons hp _ ih =>
    cases hbox with
    | cons hq hbox =>
      cases hx with
      | cons hy hx =>
        cases h with
        | cons hy' h =>
          refine .cons ?_ (ih hbs.tail hbox hx h)
          exact (hp.mem_iff (hbs _ mem_cons_self) hq hy).mp hy'

theorem exists_cell (hbox : Aligned bs box) (hx : InSpan box x) :
    ∃ c, IsCell bs c ∧ InSpan c x := by
  induction hbox generalizing x with
  | nil => exact ⟨[], .nil, hx⟩
  | cons hq _ ih =>
    cases hx with
    | cons hy hx =>
      obtain ⟨p, hp, hpy⟩ := exists_gap (hbs _ mem_cons_self) hq.1 hq.2 hy
      obtain ⟨c, hc, hcx⟩ := ih hbs.tail hx
      exact ⟨p :: c, .cons hp hc, .cons hpy hcx⟩

theorem IsCell.inSpan_corner (hc : IsCell bs c) :
    InSpan c (c.map Prod.fst) := by
  induction hc with
  | nil => exact .nil
  | cons hp _ ih =>
    exact .cons ⟨le_rfl, hp.lt (hbs _ mem_cons_self)⟩ (ih hbs.tail)

end Space

end Foundation
