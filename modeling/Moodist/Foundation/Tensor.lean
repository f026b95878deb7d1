import Moodist.Foundation.Product

/-!
# Tensors, their slices and their selections

A tensor has a shape and an element at every index inside that shape. Slicing keeps one interval of
every dimension, as an index expression made of slices does, and copying into a slice overwrites
that part.
-/

namespace Foundation

open List
open Prod (fst snd)

variable {α : Type*}

/-- A tensor. An index outside the shape has no element. -/
@[ext]
structure Tensor (α : Type*) where
  shape : List ℕ
  get : List ℕ → Option α

/-- The index `y` lies inside `shape`. -/
def inShape (shape y : List ℕ) : Bool := inBox (shape.map fun _ => 0) shape y

variable {shape y : List ℕ}

theorem inShape_iff : inShape shape y = true ↔ Forall₂ (· < ·) y shape := by
  induction shape generalizing y with
  | nil => cases y <;> simp [inShape, inBox]
  | cons n shape ih =>
    cases y with
    | nil => simp [inShape, inBox]
    | cons i y =>
      rw [forall₂_cons, ← ih]
      simp [inShape, inBox]

/-- The tensor with the elements `f y`. -/
def Tensor.ofFn (shape : List ℕ) (f : List ℕ → α) : Tensor α where
  shape := shape
  get y := if inShape shape y then some (f y) else none

/-- The first position and the extent that each slice `start : start + size` keeps. A slice
ends with its dimension, and a dimension without a slice is kept whole. -/
def sliceBounds : List ℕ → List (ℕ × ℕ) → List (ℕ × ℕ)
  | [], _ => []
  | n :: shape, [] => (0, n) :: sliceBounds shape []
  | n :: shape, (start, size) :: slices =>
    (min start n, min (start + size) n - min start n) :: sliceBounds shape slices

def Tensor.slice (t : Tensor α) (slices : List (ℕ × ℕ)) : Tensor α :=
  let bounds := sliceBounds t.shape slices
  { shape := bounds.map snd
    get y :=
      if inShape (bounds.map snd) y then
        t.get (zipWith (fun b i => b.1 + i) bounds y)
      else
        none }

/-- Overwrite the part inside the slices by a tensor of its shape. -/
def Tensor.copySlice (t : Tensor α) (slices : List (ℕ × ℕ)) (src : Tensor α) : Tensor α :=
  let bounds := sliceBounds t.shape slices
  { shape := t.shape
    get y :=
      if inBox (bounds.map fst) (bounds.map snd) y then
        src.get (zipWith (fun b i => i - b.1) bounds y)
      else
        t.get y }

variable {slices : List (ℕ × ℕ)}

theorem sliceBounds_of_le (h : Forall₂ (fun s n => s.1 + s.2 ≤ n) slices shape) :
    sliceBounds shape slices = slices := by
  induction h with
  | nil => rfl
  | @cons s n slices shape hs _ ih =>
    rw [sliceBounds, ih, min_eq_left (Nat.le_of_add_right_le hs), min_eq_left hs,
      Nat.add_sub_cancel_left]

/-- A slice of a positive extent that ends inside its dimension is kept as it is, and one of no
extent stays so. -/
theorem sliceBounds_spec (h : Forall₂ (fun s n => 0 < s.2 → s.1 + s.2 ≤ n) slices shape) :
    (sliceBounds shape slices).map snd = slices.map snd ∧
      ∀ y, inShape (slices.map snd) y = true → sliceBounds shape slices = slices := by
  induction h with
  | nil => exact ⟨rfl, fun _ _ => rfl⟩
  | @cons s n slices shape hs _ ih =>
    obtain ⟨hsnd, hkeep⟩ := ih
    constructor
    · have hsize : min (s.1 + s.2) n - min s.1 n = s.2 := by omega
      rw [sliceBounds, map_cons, map_cons, hsnd, hsize]
    · intro y hy
      rw [inShape_iff] at hy
      cases hy with
      | @cons i _ y _ hi hy =>
        have hle := hs (Nat.zero_lt_of_lt hi)
        rw [sliceBounds, hkeep y (inShape_iff.2 hy), min_eq_left (Nat.le_of_add_right_le hle),
          min_eq_left hle, Nat.add_sub_cancel_left]

/-- Reading through such slices, only the slices count. -/
theorem Tensor.slice_eq (t : Tensor α)
    (h : Forall₂ (fun s n => 0 < s.2 → s.1 + s.2 ≤ n) slices t.shape) : t.slice slices =
      ⟨slices.map snd, fun y =>
        if inShape (slices.map snd) y then
          t.get (zipWith (fun b i => b.1 + i) slices y)
        else
          none⟩ := by
  obtain ⟨hsnd, hkeep⟩ := sliceBounds_spec h
  apply Tensor.ext
  · exact hsnd
  · funext y
    simp only [Tensor.slice, hsnd]
    split
    · next hy => rw [hkeep y hy]
    · rfl

/-- The position that `ls` lists at `y`, in every dimension. -/
def lookup (ls : List (List ℕ)) (y : List ℕ) : List ℕ :=
  zipWith (fun l i => l.getD i 0) ls y

def Tensor.pick (t : Tensor α) (ls : List (List ℕ)) : Tensor α where
  shape := ls.map length
  get y := if inShape (ls.map length) y then t.get (lookup ls y) else none

variable {ls ls' : List (List ℕ)}

theorem lookup_inShape (hls : Forall₂ (fun l n => ∀ i ∈ l, i < n) ls shape)
    (hy : inShape (ls.map length) y = true) : inShape shape (lookup ls y) = true := by
  rw [inShape_iff] at hy ⊢
  induction hls generalizing y with
  | nil =>
    cases hy
    exact .nil
  | @cons l n ls shape hl _ ih =>
    cases hy with
    | @cons i _ y _ hi hy =>
      refine .cons (hl _ ?_) (ih hy)
      show l.getD i 0 ∈ l
      rw [getD_eq_getElem l 0 hi]
      exact getElem_mem hi

theorem lookup_lookup (hy : inShape (ls'.map length) y = true) :
    lookup ls (lookup ls' y) =
      lookup (zipWith (fun l l' => l'.map fun i => l.getD i 0) ls ls') y := by
  rw [inShape_iff] at hy
  induction ls generalizing ls' y with
  | nil => simp [lookup]
  | cons l ls ih =>
    cases ls' with
    | nil =>
      cases hy
      simp [lookup]
    | cons l' ls' =>
      cases hy with
      | @cons i _ y _ hi hy =>
        have htail := ih hy
        simp only [lookup, zipWith_cons_cons] at htail ⊢
        rw [htail, getD_eq_getElem l' 0 hi,
          getD_eq_getElem (l'.map fun i => l.getD i 0) 0 (by simpa using hi), getElem_map]

/-- A selection of a selection is one selection. -/
theorem Tensor.pick_pick (t : Tensor α)
    (h : Forall₂ (fun l' l => ∀ i ∈ l', i < l.length) ls' ls) : (t.pick ls).pick ls' =
      t.pick (zipWith (fun l l' => l'.map fun i => l.getD i 0) ls ls') := by
  have hshape : (zipWith (fun l l' => l'.map fun i => l.getD i 0) ls ls').map length =
      ls'.map length := by
    induction h with
    | nil => rfl
    | cons _ _ ih => rw [zipWith_cons_cons, map_cons, ih, length_map, map_cons]
  have hinside : Forall₂ (fun l n => ∀ i ∈ l, i < n) ls' (ls.map length) :=
    forall₂_map_right_iff.mpr h
  apply Tensor.ext
  · exact hshape.symm
  · funext y
    simp only [Tensor.pick, hshape]
    split
    · next hy => rw [if_pos (lookup_inShape hinside hy), lookup_lookup hy]
    · rfl

end Foundation
