import Mathlib

/-!
# Cartesian products and boxes of lists

An `n`-dimensional object is handled one dimension at a time: a product of lists enumerates every
choice of one element per dimension, with the last dimension running fastest, and a box is a pair of
an offset list and a shape list.
-/

namespace Foundation

open List

variable {α β : Type*}

/-- Every choice of one element per list, the last list running fastest. -/
def product : List (List α) → List (List α)
  | [] => [[]]
  | l :: ls => l.flatMap fun a => (product ls).map (a :: ·)

/-- The point `x` lies in the box `[offset, offset + shape)`. Lists of different
lengths describe no common box. -/
def inBox [Add α] [LinearOrder α] : List α → List α → List α → Bool
  | [], [], [] => true
  | o :: os, s :: ss, x :: xs => (decide (o ≤ x) && decide (x < o + s)) && inBox os ss xs
  | _, _, _ => false

/-- The predicates `ps` hold of the values `xs`, position by position. -/
def allHold : List (α → Bool) → List α → Bool
  | [], [] => true
  | p :: ps, x :: xs => p x && allHold ps xs
  | _, _ => false

theorem mem_product {ls : List (List α)} {xs : List α} :
    xs ∈ product ls ↔ List.Forall₂ (fun x l => x ∈ l) xs ls := by
  induction ls generalizing xs with
  | nil => simp [product]
  | cons l ls ih =>
    simp only [product, mem_flatMap, mem_map]
    constructor
    · rintro ⟨a, ha, ys, hys, rfl⟩
      exact .cons ha (ih.mp hys)
    · intro h
      cases h with
      | cons hx hxs => exact ⟨_, hx, _, ih.mpr hxs, rfl⟩

theorem countP_product (ps : List (α → Bool)) (ls : List (List α)) (hlen : ps.length = ls.length) :
    (product ls).countP (allHold ps) = (List.zipWith (fun p l => l.countP p) ps ls).prod := by
  induction ls generalizing ps with
  | nil =>
    cases ps with
    | nil => simp [product, allHold]
    | cons p ps => simp at hlen
  | cons l ls ih =>
    cases ps with
    | nil => simp at hlen
    | cons p ps =>
      have htail := ih ps (by simpa using hlen)
      simp only [product, zipWith_cons_cons, prod_cons, ← htail]
      clear hlen ih htail
      -- the head list contributes one copy of the tail's count per element satisfying `p`
      induction l with
      | nil => simp
      | cons a l ihl =>
        rw [flatMap_cons, countP_append, ihl, countP_map, countP_cons]
        by_cases ha : p a = true
        · have he : allHold (p :: ps) ∘ (a :: ·) = allHold ps := by
            funext xs; simp [allHold, ha]
          rw [he, if_pos ha]
          ring
        · have he : allHold (p :: ps) ∘ (a :: ·) = fun _ => false := by
            funext xs; simp [allHold, ha]
          rw [he, if_neg ha]
          simp

theorem inBox_cons [Add α] [LinearOrder α] (o s x : α) (os ss xs : List α) :
    inBox (o :: os) (s :: ss) (x :: xs) = true ↔
      (o ≤ x ∧ x < o + s) ∧ inBox os ss xs = true := by
  simp [inBox]

theorem exists_of_inBox_cons [Add α] [LinearOrder α] {o s : α} {os ss x : List α}
    (h : inBox (o :: os) (s :: ss) x = true) :
    ∃ y ys, x = y :: ys ∧ (o ≤ y ∧ y < o + s) ∧ inBox os ss ys = true := by
  cases x with
  | nil => simp [inBox] at h
  | cons y ys => exact ⟨y, ys, rfl, (inBox_cons ..).mp h⟩

/-- A box that holds a point has an extent in every dimension. -/
theorem inBox_pos [AddCommMonoid α] [LinearOrder α] [IsOrderedCancelAddMonoid α]
    {offset shape x : List α} (h : inBox offset shape x = true) : ∀ s ∈ shape, 0 < s := by
  fun_induction inBox offset shape x with
  | case1 => simp
  | case2 o os s ss y ys ih =>
    obtain ⟨⟨hlo, hhi⟩, hrest⟩ := (inBox_cons o s y os ss ys).mp (by simpa [inBox] using h)
    exact forall_mem_cons.mpr ⟨pos_of_lt_add_right (hlo.trans_lt hhi), ih hrest⟩
  | case3 => cases h

end Foundation
