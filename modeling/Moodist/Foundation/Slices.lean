import Mathlib

/-!
# Slices for devices

Data of which each of several devices takes a slice of the same size, and the last one the rest.
-/

namespace Foundation

/-- The size of the slice of device `di`; the slices start at multiples of `step`. -/
def sliceSize (total step devices di : ℕ) : ℕ :=
  if di = devices - 1 then total - step * di else step

def InSlice (total step devices di j : ℕ) : Prop :=
  step * di ≤ j ∧ j < step * di + sliceSize total step devices di

variable {total step devices di di' j : ℕ} (h : step * devices ≤ total)

include h

/-- Where the slice of a device ends. -/
theorem mul_add_sliceSize (hdi : di < devices) :
    step * di + sliceSize total step devices di =
      if di + 1 = devices then total else step * (di + 1) := by
  have hle : step * di ≤ total := (Nat.mul_le_mul_left _ hdi.le).trans h
  unfold sliceSize
  by_cases hlast : di + 1 = devices
  · rw [if_pos (by omega), if_pos hlast]
    omega
  · rw [if_neg (by omega), if_neg hlast, Nat.mul_succ]

section

variable (hj : InSlice total step devices di j) (hj' : InSlice total step devices di' j)
  (hdi : di < devices) (hdi' : di' < devices)

include hj hj' hdi hdi'

theorem InSlice.le : di ≤ di' := by
  have hlt := hj'.2
  rw [mul_add_sliceSize h hdi'] at hlt
  split_ifs at hlt with hlast
  · omega
  · by_contra hle
    have hmul : step * (di' + 1) ≤ step * di := Nat.mul_le_mul_left _ (not_le.mp hle)
    exact absurd (hmul.trans hj.1) (not_le.mpr hlt)

theorem InSlice.unique :
    di = di' :=
  le_antisymm (hj.le h hj' hdi hdi') (hj'.le h hj hdi' hdi)

end

/-- Every place is in a slice. -/
theorem exists_inSlice (hdevices : 0 < devices) (hj : j < total) :
    ∃ di < devices, InSlice total step devices di j := by
  by_cases hlast : step * (devices - 1) ≤ j
  · refine ⟨devices - 1, by omega, hlast, ?_⟩
    rw [mul_add_sliceSize h (by omega), if_pos (by omega)]
    exact hj
  · have hpos : 0 < step := Nat.pos_of_ne_zero fun hzero => hlast (by rw [hzero]; omega)
    have hdi : j / step < devices - 1 := by
      rw [Nat.div_lt_iff_lt_mul hpos, Nat.mul_comm]
      exact not_le.mp hlast
    refine ⟨j / step, by omega, Nat.mul_div_le _ _, ?_⟩
    rw [mul_add_sliceSize h (by omega), if_neg (by omega)]
    exact Nat.lt_mul_div_succ j hpos

end Foundation
