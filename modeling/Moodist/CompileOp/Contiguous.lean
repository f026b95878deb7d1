import Moodist.CompileOp.Coverage

/-!
# Contiguous boxes

Phase 4 transfers a box at once if `contiguous` says that its elements follow each other in memory.
-/

namespace CompileOp

open Foundation List

/-- The row-major position of an element in a box of the given shape. -/
def position : List ℤ → List ℤ → ℤ
  | _ :: ss, x :: xs => x * ss.prod + position ss xs
  | _, _ => 0

/-- The `k`-th element of a box in row-major order. -/
def element : List ℤ → List ℤ → ℤ → List ℤ
  | o :: os, _ :: is, k => (o + k / is.prod) :: element os is (k % is.prod)
  | _, _, _ => []

/-- A box that has elements, all of them inside a box at the origin. -/
inductive Inside : List ℤ → List ℤ → List ℤ → Prop
  | nil : Inside [] [] []
  | cons {o i s : ℤ} {os is ss : List ℤ} : 0 ≤ o → 0 < i → o + i ≤ s → Inside os is ss →
    Inside (o :: os) (i :: is) (s :: ss)

/-- The distance from the first element of a box to its last. -/
def extent (inner outer : List ℤ) : ℤ := position outer (inner.map (· - 1))

variable {offset inner outer x : List ℤ} {k : ℤ}

theorem lastMismatch_cons (i s : ℤ) :
    lastMismatch (i :: inner) (s :: outer) =
      ((lastMismatch inner outer).map (· + 1)).or (if i = s then none else some 0) := by
  simp only [lastMismatch, length_cons, range_succ_eq_map, filter_cons, filter_map]
  by_cases h : i = s <;> simp [h, Function.comp_def, getLast?_cons, getLast?_map]

theorem lastMismatch_eq_none (hlen : inner.length = outer.length) :
    lastMismatch inner outer = none ↔ inner = outer := by
  simp only [lastMismatch, getLast?_eq_none_iff, filter_eq_nil_iff, mem_range]
  constructor
  · intro h
    refine ext_getElem hlen fun i hi ho => ?_
    simpa [hi, ho] using h i hi
  · rintro rfl
    simp

/-- Either the rows are taken whole, or from one row only. -/
theorem contiguous_cons {i s : ℤ} (hlen : inner.length = outer.length) :
    contiguous (i :: inner) (s :: outer) = true ↔
      (inner = outer ∨ i = 1) ∧ contiguous inner outer = true := by
  rw [contiguous, contiguous, lastMismatch_cons, ← lastMismatch_eq_none hlen]
  cases lastMismatch inner outer with
  | none => by_cases h : i = s <;> simp [h]
  | some j => simp

namespace Inside

variable (h : Inside offset inner outer)

include h

theorem length_eq : inner.length = outer.length := by
  induction h with
  | nil => rfl
  | cons _ _ _ _ ih => exact congrArg (· + 1) ih

theorem bounds :
    0 < inner.prod ∧ 0 ≤ position outer offset ∧ 0 ≤ extent inner outer ∧
      position outer offset + extent inner outer < outer.prod ∧
      (extent inner outer + 1 = outer.prod → inner = outer) ∧
      (contiguous inner outer = true → extent inner outer + 1 = inner.prod) := by
  induction h with
  | nil => simp [position, extent]
  | @cons o i s os is ss ho hi hs htail ih =>
    obtain ⟨hprod, hpos, hext, hlt, heq, hcont⟩ := ih
    rw [contiguous_cons htail.length_eq]
    simp only [extent, map_cons, position, prod_cons] at *
    have hend : (o + i) * ss.prod ≤ s * ss.prod := by gcongr; omega
    refine ⟨by positivity, by nlinarith, by nlinarith, by nlinarith, fun h => ?_, ?_⟩
    · obtain rfl : is = ss := heq (by nlinarith)
      rw [show i = s by nlinarith]
    · rintro ⟨rfl | rfl, hrest⟩ <;> linarith [hcont hrest]

/-- The positions of a box lie between those of its first and its last element. -/
theorem position_mem (hx : inBox offset inner x = true) :
    position outer offset ≤ position outer x ∧
      position outer x ≤ position outer offset + extent inner outer := by
  induction h generalizing x with
  | nil => simp [position, extent]
  | @cons o i s os is ss ho hi hs htail ih =>
    obtain ⟨y, ys, rfl, hy, hys⟩ := exists_of_inBox_cons hx
    obtain ⟨hlo, hhi⟩ := ih hys
    obtain ⟨-, hpos, hext, hlt, -⟩ := htail.bounds
    simp only [extent, map_cons, position] at *
    constructor <;> nlinarith

theorem inBox_self : inBox offset inner offset = true := by
  induction h with
  | nil => rfl
  | cons _ hi _ _ ih => exact (inBox_cons ..).mpr ⟨by omega, ih⟩

/-- The elements before the `k`-th of a contiguous box fill the positions before it. -/
theorem element_spec (hk : 0 ≤ k) (hlt : k < inner.prod) :
    inBox offset inner (element offset inner k) = true ∧ (contiguous inner outer = true →
      position outer (element offset inner k) = position outer offset + k) := by
  induction h generalizing k with
  | nil =>
    rw [prod_nil] at hlt
    exact ⟨rfl, fun _ => show (0 : ℤ) = 0 + k by omega⟩
  | @cons o i s os is ss ho hi hs htail ih =>
    have hpos := htail.bounds.1
    obtain ⟨hbox, hposition⟩ := ih (Int.emod_nonneg k hpos.ne') (Int.emod_lt_of_pos k hpos)
    rw [element, inBox_cons]
    refine ⟨⟨?_, hbox⟩, fun hcont => ?_⟩
    · have hdiv : k / is.prod < i := Int.ediv_lt_of_lt_mul hpos hlt
      have hnonneg : 0 ≤ k / is.prod := Int.ediv_nonneg hk hpos.le
      omega
    · obtain ⟨hrows, hrest⟩ := (contiguous_cons htail.length_eq).mp hcont
      have hrow : k / is.prod * ss.prod = k / is.prod * is.prod := by
        obtain rfl | rfl := hrows
        · rfl
        · rw [prod_cons, one_mul] at hlt
          rw [Int.ediv_eq_zero_of_lt hk hlt, zero_mul, zero_mul]
      have hdiv := Int.ediv_mul_add_emod k is.prod
      rw [position, position, add_mul, hrow, hposition hrest]
      omega

theorem positions_of_contiguous (hcont : contiguous inner outer = true) (q : ℤ) :
    (∃ x, inBox offset inner x = true ∧ position outer x = q) ↔
      position outer offset ≤ q ∧ q < position outer offset + inner.prod := by
  constructor
  · rintro ⟨x, hx, rfl⟩
    have hmem := h.position_mem hx
    have hext := h.bounds.2.2.2.2.2 hcont
    omega
  · rintro ⟨hlo, hhi⟩
    have hk : 0 ≤ q - position outer offset := by omega
    have hlt : q - position outer offset < inner.prod := by omega
    refine ⟨_, (h.element_spec hk hlt).1, ?_⟩
    rw [(h.element_spec hk hlt).2 hcont]
    omega

/-- The gap between two rows that are not taken whole is a position of no element. -/
theorem contiguous_of_convex
    (hconvex : ∀ x y q, inBox offset inner x = true → inBox offset inner y = true →
      position outer x ≤ q → q ≤ position outer y →
        ∃ z, inBox offset inner z = true ∧ position outer z = q) :
    contiguous inner outer = true := by
  induction h with
  | nil => rfl
  | @cons o i s os is ss ho hi hs htail ih =>
    rw [contiguous_cons htail.length_eq]
    by_cases hi' : i = 1
    · refine ⟨.inr hi', ih fun x y q hx hy hlo hhi => ?_⟩
      have hrow : ∀ {z}, inBox os is z = true → inBox (o :: os) (i :: is) (o :: z) = true :=
        fun hz => (inBox_cons ..).mpr ⟨by omega, hz⟩
      obtain ⟨z, hz, hzq⟩ := hconvex _ _ (o * ss.prod + q) (hrow hx) (hrow hy)
        (add_le_add_right hlo _) (add_le_add_right hhi _)
      obtain ⟨w, ws, rfl, hw, hws⟩ := exists_of_inBox_cons hz
      obtain rfl : w = o := by omega
      exact ⟨ws, hws, add_left_cancel hzq⟩
    · obtain ⟨-, hpos, hext, hlt, heq, -⟩ := htail.bounds
      suffices hrows : is = ss by simp [hrows, contiguous, lastMismatch]
      refine heq (le_antisymm (by omega) (not_lt.mp fun hgap => ?_))
      have hfirst : ∀ w, o ≤ w → w < o + i → inBox (o :: os) (i :: is) (w :: os) = true :=
        fun w hlo hhi => (inBox_cons ..).mpr ⟨⟨hlo, hhi⟩, htail.inBox_self⟩
      have hnext : (o + 1) * ss.prod = o * ss.prod + ss.prod := by ring
      obtain ⟨z, hz, hzq⟩ := hconvex _ _ (o * ss.prod + position ss os + extent is ss + 1)
        (hfirst o le_rfl (by omega)) (hfirst (o + 1) (by omega) (by omega))
        (by rw [position]; omega) (by rw [position]; omega)
      obtain ⟨w, ws, rfl, hw, hws⟩ := exists_of_inBox_cons hz
      have hmem := htail.position_mem hws
      rw [position] at hzq
      rcases hw.1.eq_or_lt with rfl | hlater
      · omega
      · have : (o + 1) * ss.prod ≤ w * ss.prod := by gcongr <;> omega
        omega

theorem linearOffsetStride_eq :
    linearOffsetStride offset outer = (position outer offset % 2 ^ 64, outer.prod % 2 ^ 64) := by
  induction h with
  | nil => rfl
  | cons _ _ _ _ ih =>
    rw [linearOffsetStride, ih, position, prod_cons]
    simp [Int.add_emod, Int.mul_emod, add_comm, mul_comm]

end Inside

theorem contiguous_iff_interval (hin : Inside offset inner outer) :
    (contiguous inner outer = true ↔ ∃ a b, ∀ q,
      (∃ x, inBox offset inner x = true ∧ position outer x = q) ↔ a ≤ q ∧ q < b) ∧
    (contiguous inner outer = true → outer.prod ≤ 2 ^ 64 → ∀ k < numel inner,
      position outer (element offset inner k) = linearOffset offset outer + k) := by
  refine ⟨⟨fun hcont => ⟨_, _, hin.positions_of_contiguous hcont⟩,
    fun ⟨a, b, hint⟩ => ?_⟩, fun hcont hfit k hk => ?_⟩
  · refine hin.contiguous_of_convex fun x y q hx hy hlo hhi => (hint q).mpr ?_
    exact ⟨((hint _).mp ⟨x, hx, rfl⟩).1.trans hlo, hhi.trans_lt ((hint _).mp ⟨y, hy, rfl⟩).2⟩
  · obtain ⟨hprod, hpos, hext, hlt, -⟩ := hin.bounds
    have hnumel := numel_eq inner
    rw [(hin.element_spec (by omega) (by omega)).2 hcont, linearOffset, hin.linearOffsetStride_eq,
      Int.emod_eq_of_lt hpos (by omega), Int.toNat_of_nonneg hpos]

/-- A box of one element, at position `2 ^ 64` of an outer box with more elements than that. -/
theorem linearOffset_wraps : Inside [2 ^ 32, 0] [1, 1] [2 ^ 32 + 1, 2 ^ 32] ∧
    contiguous [1, 1] [2 ^ 32 + 1, 2 ^ 32] = true ∧ numel [1, 1] = 1 ∧
    position [2 ^ 32 + 1, 2 ^ 32] (element [2 ^ 32, 0] [1, 1] 0) = 2 ^ 64 ∧
    linearOffset [2 ^ 32, 0] [2 ^ 32 + 1, 2 ^ 32] = 0 :=
  ⟨.cons (by decide) (by decide) (by decide) (.cons (by decide) (by decide) (by decide) .nil),
    by decide, by decide, by decide, by decide⟩

theorem contiguous_iff_interval_row : Inside [1, 1] [1, 2] [3, 4] ∧
    position [3, 4] (element [1, 1] [1, 2] 1) = linearOffset [1, 1] [3, 4] + 1 :=
  have hin : Inside [1, 1] [1, 2] [3, 4] :=
    .cons (by decide) (by decide) (by decide) (.cons (by decide) (by decide) (by decide) .nil)
  ⟨hin, (contiguous_iff_interval hin).2 (by decide) (by decide) 1 (by decide)⟩

end CompileOp
