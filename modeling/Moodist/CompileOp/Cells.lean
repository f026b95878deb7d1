import Moodist.Foundation.Grid
import Moodist.Foundation.Product
import Moodist.CompileOp.Defs

/-!
# The cells of one output

Phase 2 cuts an output along the ends of the inputs that reach it and looks at every cell.
-/

namespace CompileOp

open Foundation List

/-! ## Boxes -/

/-- The first position and the one behind the last, in every dimension. -/
def span (box : Box) : List (ℤ × ℤ) := box.map fun p => (p.1, p.1 + p.2)

theorem span_cons (p : ℤ × ℤ) (box : Box) : span (p :: box) = (p.1, p.1 + p.2) :: span box := rfl

theorem span_length (box : Box) : (span box).length = box.length := length_map _

variable {x offset shape : List ℤ}

theorem inBox_iff_inSpan (hlen : offset.length = shape.length) :
    inBox offset shape x = true ↔ InSpan (span (offset.zip shape)) x := by
  induction offset generalizing shape x with
  | nil =>
    obtain rfl : shape = [] := length_eq_zero_iff.mp hlen.symm
    cases x <;> simp [inBox, InSpan, span]
  | cons o os ih =>
    cases shape with
    | nil => simp at hlen
    | cons s ss =>
      cases x with
      | nil => simp [inBox, InSpan, span]
      | cons y ys =>
        have := ih (x := ys) (Nat.succ_injective hlen)
        simp only [InSpan] at this
        simp [inBox, InSpan, span_cons, this]

variable {box : Box}

theorem within_iff_inside {cell : Box} (hlen : cell.length = box.length) :
    within cell box = true ↔ Inside (span cell) (span box) := by
  induction cell generalizing box with
  | nil =>
    obtain rfl : box = [] := length_eq_zero_iff.mp hlen.symm
    simp [within, Inside, span]
  | cons p cell ih =>
    cases box with
    | nil => simp at hlen
    | cons q box =>
      have := ih (Nat.succ_injective hlen)
      simp only [within, Inside] at this
      simp only [within, Inside, span_cons, zip_cons_cons, all_cons, Bool.and_eq_true,
        this, forall₂_cons]
      simp

theorem zip_map_fst_snd (box : Box) : (box.map Prod.fst).zip (box.map Prod.snd) = box := by
  simpa using zip_unzip box

/-! ## The grid -/

theorem mem_sortUnique {l : List ℤ} {a : ℤ} : a ∈ sortUnique l ↔ a ∈ l := by
  rw [sortUnique, mem_dedup]
  exact (perm_insertionSort _ l).mem_iff

theorem sortUnique_pairwise (l : List ℤ) : (sortUnique l).Pairwise (· < ·) := by
  have hle : (sortUnique l).Pairwise (· ≤ ·) :=
    (pairwise_insertionSort (· ≤ ·) l).sublist (dedup_sublist _)
  have hne : (sortUnique l).Pairwise (· ≠ ·) := nodup_dedup _
  exact (hle.and hne).imp fun h => lt_of_le_of_ne h.1 h.2

theorem boundaries_increasing (out : Box) (inputs : List LogicalInput) :
    Increasing (boundaries out inputs) := by
  intro b hb
  obtain ⟨d, -, rfl⟩ := mem_map.mp hb
  exact sortUnique_pairwise _

variable {out : Box} {inputs : List LogicalInput} {bs : List (List ℤ)}

/-- A box is on the grid when its ends are among the boundaries of every dimension. -/
theorem aligned_boundaries (hlen : box.length = out.length) (h : ∀ d, (box.getD d (0, 0)).1 ∈
      boundariesAt out inputs d ∧ (box.getD d (0, 0)).1 + (box.getD d (0, 0)).2 ∈ boundariesAt out
      inputs d) : Aligned (boundaries out inputs) (span box) := by
  refine forall₂_iff_get.mpr ⟨by simp [boundaries, span_length, hlen], fun d h₁ h₂ => ?_⟩
  have hd : d < box.length := by simpa [span_length] using h₂
  have hmem := h d
  rw [getD_eq_getElem _ _ hd] at hmem
  simpa only [boundaries, span, get_eq_getElem, getElem_map, getElem_range] using hmem

theorem aligned_out (out : Box) (inputs : List LogicalInput) :
    Aligned (boundaries out inputs) (span out) := by
  refine aligned_boundaries rfl fun d => ?_
  constructor <;> rw [boundariesAt, mem_sortUnique] <;> simp

theorem aligned_input {li : LogicalInput} (hli : li ∈ inputs) (hlen : li.box.length = out.length) :
    Aligned (boundaries out inputs) (span li.box) := by
  refine aligned_boundaries hlen fun d => ?_
  constructor <;> rw [boundariesAt, mem_sortUnique] <;>
    exact mem_cons_of_mem _ (mem_cons_of_mem _ (mem_flatMap.mpr ⟨li, hli, by simp⟩))

theorem decodeCell_length (bs : List (List ℤ)) (k : ℕ) :
    (decodeCell bs k).1.length = bs.length := by
  induction bs with
  | nil => rfl
  | cons b bs ih => simp [decodeCell, ih]

/-- The number of cells; `totalCells` is this number if it is a `size_t`. -/
def cellCount (bs : List (List ℤ)) : ℕ := (bs.map fun b => b.length - 1).prod

theorem totalCells_eq (bs : List (List ℤ)) : totalCells bs = cellCount bs % 2 ^ 64 := by
  have hloop : ∀ (bs : List (List ℤ)) (n : ℕ), n < 2 ^ 64 →
      bs.foldl (fun n b => n * (b.length - 1) % 2 ^ 64) n = n * cellCount bs % 2 ^ 64 := by
    intro bs
    induction bs with
    | nil =>
      intro n hn
      rw [foldl_nil, cellCount, map_nil, prod_nil, mul_one, Nat.mod_eq_of_lt hn]
    | cons b bs ih =>
      intro n _
      rw [foldl_cons, ih _ (Nat.mod_lt _ (by norm_num)), Nat.mod_mul_mod, mul_assoc]
      rfl
  simpa [totalCells] using hloop bs 1 (by norm_num)

/-- Every number decodes to a cell, if no dimension is without an interval. -/
theorem isCell_decodeCell (h : cellCount bs ≠ 0) (k : ℕ) :
    IsCell bs (span (decodeCell bs k).1) := by
  induction bs with
  | nil => exact .nil
  | cons b bs ih =>
    have hmul : (b.length - 1) * cellCount bs ≠ 0 := by simpa [cellCount] using h
    have hlt := Nat.mod_lt (decodeCell bs k).2 (Nat.pos_of_ne_zero (left_ne_zero_of_mul hmul))
    refine .cons ⟨(decodeCell bs k).2 % (b.length - 1), ?_, ?_⟩ (ih (right_ne_zero_of_mul hmul))
    · rw [List.getElem?_eq_getElem (by omega), getD_eq_getElem _ _ (by omega)]
    · show _ = some (b.getD _ 0 + (b.getD _ 0 - b.getD _ 0))
      rw [add_sub_cancel, List.getElem?_eq_getElem (by omega), getD_eq_getElem _ _ (by omega)]

/-- Every cell has a number, with any remainder above it. -/
theorem exists_decodeCell {c : List (ℤ × ℤ)} (hc : IsCell bs c) (k : ℕ) :
    ∃ idx < cellCount bs, span (decodeCell bs (idx + cellCount bs * k)).1 = c ∧
      (decodeCell bs (idx + cellCount bs * k)).2 = k := by
  induction hc generalizing k with
  | nil => exact ⟨0, by simp [cellCount], rfl, by simp [decodeCell, cellCount]⟩
  | @cons b p bs c hp _ ih =>
    obtain ⟨i, hlo, hhi⟩ := hp
    obtain ⟨hi, hlo⟩ := List.getElem?_eq_some_iff.mp hlo
    obtain ⟨hi', hhi⟩ := List.getElem?_eq_some_iff.mp hhi
    have hn : i < b.length - 1 := by omega
    obtain ⟨idx, hidx, hspan, hrem⟩ := ih (i + (b.length - 1) * k)
    have htotal : cellCount (b :: bs) = (b.length - 1) * cellCount bs := by simp [cellCount]
    have hkey : idx + cellCount bs * i + cellCount (b :: bs) * k =
        idx + cellCount bs * (i + (b.length - 1) * k) := by
      rw [htotal]
      ring
    refine ⟨idx + cellCount bs * i, ?_, ?_, ?_⟩
    · calc idx + cellCount bs * i < cellCount bs + cellCount bs * i := by omega
        _ = cellCount bs * (i + 1) := by ring
        _ ≤ cellCount bs * (b.length - 1) := Nat.mul_le_mul_left _ (by omega)
        _ = cellCount (b :: bs) := by rw [htotal, Nat.mul_comm]
    · have hmod : (i + (b.length - 1) * k) % (b.length - 1) = i := by
        rw [Nat.add_mul_mod_self_left, Nat.mod_eq_of_lt hn]
      rw [hkey]
      simp only [decodeCell, hrem, hmod, span_cons, hspan, add_sub_cancel]
      rw [getD_eq_getElem _ _ hi, getD_eq_getElem _ _ hi', hlo, hhi]
    · rw [hkey]
      simp only [decodeCell, hrem]
      rw [Nat.add_mul_div_left _ _ (by omega), Nat.div_eq_of_lt hn, Nat.zero_add]

/-! ## The loop over the cells -/

def cover (inputs : List LogicalInput) (box : Box) : ℕ :=
  inputs.countP fun inp => within box inp.box

def IsGap (out : Box) (inputs : List LogicalInput) (box : Box) : Prop :=
  within box out = true ∧ cover inputs box = 0

/-- A cell of the output that two inputs cover although they must not. -/
def IsOverlap (reduce : ReduceOp) (out : Box) (inputs : List LogicalInput) (box : Box) : Prop :=
  within box out = true ∧ 2 ≤ cover inputs box ∧ reduce = .none

/-- `count` tells whether there are cells with a property, and `details` lists some of them. -/
structure Tally (P : Box → Prop) (done : List Box) (count : ℕ) (details : List Cell) : Prop where
  pos_iff : 0 < count ↔ ∃ box ∈ done, P box
  listed : ∀ c ∈ details, ∃ box ∈ done, P box ∧ c = cellOf box
  nonempty : 0 < count → details ≠ []

variable {done : List Box} {details : List Cell} {P : Box → Prop} {count : ℕ}

theorem Tally.skip
    (h : Tally P done count details) (hbox : ¬ P box) : Tally P (done ++ [box]) count details where
  pos_iff := by
    rw [h.pos_iff]
    constructor
    · rintro ⟨c, hc, hPc⟩
      exact ⟨c, mem_append_left _ hc, hPc⟩
    · rintro ⟨c, hc, hPc⟩
      rcases mem_append.mp hc with hc | hc
      · exact ⟨c, hc, hPc⟩
      · exact absurd (mem_singleton.mp hc ▸ hPc) hbox
  listed c hc := by
    obtain ⟨b, hb, hPb⟩ := h.listed c hc
    exact ⟨b, mem_append_left _ hb, hPb⟩
  nonempty := h.nonempty

theorem Tally.hit
    (h : Tally P done count details) (hbox : P box) : Tally P (done ++ [box]) (count + 1)
      (if count + 1 ≤ maxReportedRegions then details ++ [cellOf box] else details) where
  pos_iff := by
    refine ⟨fun _ => ⟨box, by simp, hbox⟩, fun _ => Nat.succ_pos _⟩
  listed c hc := by
    have hc' : c ∈ details ++ [cellOf box] := by
      split at hc
      · exact hc
      · exact mem_append_left _ hc
    rcases mem_append.mp hc' with hc | hc
    · obtain ⟨b, hb, hPb⟩ := h.listed c hc
      exact ⟨b, mem_append_left _ hb, hPb⟩
    · exact ⟨box, by simp, hbox, mem_singleton.mp hc⟩
  nonempty _ := by
    split
    · simp
    · rename_i hcount
      exact h.nonempty (by simp only [maxReportedRegions] at hcount; omega)

/-- What the loop knows about the cells it has seen. -/
structure Scanned (reduce : ReduceOp) (out : Box) (inputs : List LogicalInput) (done : List Box)
    (s : Scan) : Prop where
  gaps : Tally (IsGap out inputs) done s.gapCount s.gapDetails
  overlaps : Tally (IsOverlap reduce out inputs) done s.overlapCount (s.overlapDetails.map Prod.fst)

theorem cover_eq_length (inputs : List LogicalInput) (box : Box) :
    cover inputs box = (inputs.filter fun inp => within box inp.box).length :=
  countP_eq_length_filter

variable {reduce : ReduceOp}

/-- One iteration. -/
theorem Scanned.step {s : Scan} (h : Scanned reduce out inputs done s) (pick : ℕ) (box : Box) :
    Scanned reduce out inputs (done ++ [box]) (scanCell reduce pick out inputs box s) := by
  have hcover := cover_eq_length inputs box
  unfold scanCell
  split
  case isFalse hout =>
    exact ⟨h.gaps.skip fun hg => hout hg.1, h.overlaps.skip fun ho => hout ho.1⟩
  case isTrue hout =>
    split
    case h_1 hf =>
      simp only [hf, length_nil] at hcover
      refine ⟨h.gaps.hit ⟨hout, hcover⟩, h.overlaps.skip ?_⟩
      rintro ⟨-, htwo, -⟩
      omega
    case h_2 a hf =>
      simp only [hf, length_singleton] at hcover
      constructor
      · apply h.gaps.skip
        rintro ⟨-, hzero⟩
        omega
      · apply h.overlaps.skip
        rintro ⟨-, htwo, -⟩
        omega
    case h_3 a b rest hf =>
      simp only [hf, length_cons] at hcover
      have hgap : ¬ IsGap out inputs box := by
        rintro ⟨-, hzero⟩
        omega
      split
      case isTrue hr =>
        have hhit := h.overlaps.hit (show IsOverlap reduce out inputs box from ⟨hout, by omega, hr⟩)
        refine ⟨h.gaps.skip hgap, ?_⟩
        show Tally _ _ (s.overlapCount + 1) (List.map Prod.fst (if _ then _ else _))
        rw [apply_ite (List.map Prod.fst)]
        simpa using hhit
      case isFalse hr =>
        exact ⟨h.gaps.skip hgap, h.overlaps.skip fun ho => hr ho.2.2⟩

def cells (out : Box) (inputs : List LogicalInput) : List Box :=
  (List.range (totalCells (boundaries out inputs))).map fun cellIdx =>
    (decodeCell (boundaries out inputs) cellIdx).1

/-- The whole loop. -/
theorem scanCells_spec (reduce : ReduceOp) (pick : ℕ → ℕ) (out : Box) (inputs : List LogicalInput) :
    Scanned reduce out inputs (cells out inputs) (scanCells reduce pick out inputs) := by
  have hloop : ∀ (ks : List ℕ) (done : List Box) (s : Scan), Scanned reduce out inputs done s →
      Scanned reduce out inputs
        (done ++ ks.map fun k => (decodeCell (boundaries out inputs) k).1)
        (ks.foldl (fun s k =>
          scanCell reduce (pick k) out inputs (decodeCell (boundaries out inputs) k).1 s) s) := by
    intro ks
    induction ks with
    | nil =>
      intro done s h
      simpa using h
    | cons k ks ih =>
      intro done s h
      simpa using ih _ _ (h.step (pick k) (decodeCell (boundaries out inputs) k).1)
  have hstart : ∀ P : Box → Prop, Tally P [] 0 [] := fun P => ⟨by simp, by simp, by simp⟩
  exact hloop _ [] {} ⟨hstart _, hstart _⟩

theorem scanCell_source {pick : ℕ} {s : Scan} (h : ∀ c ∈ s.cells, c.source ∈ inputs) :
    ∀ c ∈ (scanCell reduce pick out inputs box s).cells, c.source ∈ inputs := by
  have hcover : ∀ li ∈ inputs.filter fun inp => within box inp.box, li ∈ inputs :=
    fun li hli => mem_of_mem_filter hli
  have hadd : ∀ (cell : Cell) (li : LogicalInput), li ∈ inputs →
      ∀ c ∈ s.cells ++ [⟨cell, li⟩], c.source ∈ inputs := by
    intro cell li hli c hc
    rcases mem_append.mp hc with hc | hc
    · exact h c hc
    · rw [mem_singleton.mp hc]
      exact hli
  unfold scanCell
  split
  case isFalse => exact h
  case isTrue =>
    split
    case h_1 => exact h
    case h_2 a hf => exact hadd _ a (hcover a (by simp [hf]))
    case h_3 a b rest hf =>
      split
      case isTrue => exact h
      case isFalse =>
        refine hadd _ _ (hcover _ ?_)
        rw [hf, getD_eq_getElem _ _ (Nat.mod_lt _ (by simp))]
        exact getElem_mem _

theorem resolveOutput_source {pick : ℕ → ℕ} {outIdx : ℕ} {out : TensorDescr}
    {cs : List CellSource} (h : resolveOutput reduce pick outIdx out inputs = .ok cs) :
    ∀ c ∈ cs, c.source ∈ inputs := by
  have hloop : ∀ (ks : List ℕ) (s : Scan), (∀ c ∈ s.cells, c.source ∈ inputs) →
      ∀ c ∈ (ks.foldl (fun s k => scanCell reduce (pick k) out.box inputs
        (decodeCell (boundaries out.box inputs) k).1 s) s).cells, c.source ∈ inputs := by
    intro ks
    induction ks with
    | nil => exact fun s hs => hs
    | cons k ks ih => exact fun s hs => ih _ (scanCell_source hs)
  unfold resolveOutput at h
  split at h
  case isTrue =>
    cases h
    simp
  case isFalse =>
    simp only at h
    split at h
    · cases h
    · split at h
      · cases h
      · cases h
        exact hloop _ {} (by simp)

/-! ## Cells and coordinates -/

theorem cellCount_ne_zero {k : ℕ} (hk : k < totalCells bs) : cellCount bs ≠ 0 := by
  intro hzero
  rw [totalCells_eq, hzero, Nat.zero_mod] at hk
  exact Nat.not_lt_zero _ hk

def hits (inputs : List LogicalInput) (x : List ℤ) : ℕ :=
  inputs.countP fun li => inBox li.offset li.shape x

def Fits (ndim : ℕ) (inputs : List LogicalInput) : Prop :=
  ∀ li ∈ inputs, li.offset.length = ndim ∧ li.shape.length = ndim

theorem hits_eq_cover (hfits : Fits out.length inputs) (hbox : box ∈ cells out inputs)
    (hx : InSpan (span box) x) :
    (InSpan (span out) x ↔ within box out = true) ∧ hits inputs x = cover inputs box := by
  obtain ⟨k, hk, rfl⟩ := mem_map.mp hbox
  have hpos : cellCount (boundaries out inputs) ≠ 0 := cellCount_ne_zero (mem_range.mp hk)
  have hcell := isCell_decodeCell hpos k
  have hlen : (decodeCell (boundaries out inputs) k).1.length = out.length := by
    rw [decodeCell_length]
    simp [boundaries]
  have hinc := boundaries_increasing out inputs
  constructor
  · rw [within_iff_inside hlen]
    exact hcell.inSpan_iff hinc (aligned_out out inputs) hx
  · refine countP_congr fun li hli => ?_
    obtain ⟨ho, hs⟩ := hfits li hli
    have hli' : li.box.length = out.length := by simp [LogicalInput.box, ho, hs]
    rw [inBox_iff_inSpan (ho.trans hs.symm), within_iff_inside (hlen.trans hli'.symm)]
    exact hcell.inSpan_iff hinc (aligned_input hli hli') hx

theorem exists_inSpan_cell (hbox : box ∈ cells out inputs) : ∃ x, InSpan (span box) x := by
  obtain ⟨k, hk, rfl⟩ := mem_map.mp hbox
  have hpos : cellCount (boundaries out inputs) ≠ 0 := cellCount_ne_zero (mem_range.mp hk)
  exact ⟨_, (isCell_decodeCell hpos k).inSpan_corner (boundaries_increasing out inputs)⟩

theorem exists_cell_of_inSpan (hcount : cellCount (boundaries out inputs) < 2 ^ 64)
    (hx : InSpan (span out) x) : ∃ box ∈ cells out inputs, InSpan (span box) x := by
  obtain ⟨c, hc, hcx⟩ := exists_cell (boundaries_increasing out inputs) (aligned_out out inputs) hx
  obtain ⟨k, hk, hspan, -⟩ := exists_decodeCell hc 0
  rw [Nat.mul_zero, Nat.add_zero] at hspan
  rw [← Nat.mod_eq_of_lt hcount, ← totalCells_eq] at hk
  exact ⟨_, mem_map.mpr ⟨k, mem_range.mpr hk, rfl⟩, hspan ▸ hcx⟩

/-- There is a cell of the output with a property of its number of inputs exactly when there is
such a coordinate. -/
theorem exists_cell_cover_iff (Q : ℕ → Prop) (hfits : Fits out.length inputs)
    (hcount : ∀ x, InSpan (span out) x → cellCount (boundaries out inputs) < 2 ^ 64) :
    (∃ box ∈ cells out inputs, within box out = true ∧ Q (cover inputs box)) ↔
      ∃ x, InSpan (span out) x ∧ Q (hits inputs x) := by
  constructor
  · rintro ⟨box, hbox, hin, hQ⟩
    obtain ⟨x, hx⟩ := exists_inSpan_cell hbox
    obtain ⟨hiff, hcover⟩ := hits_eq_cover hfits hbox hx
    exact ⟨x, hiff.mpr hin, hcover ▸ hQ⟩
  · rintro ⟨x, hx, hQ⟩
    obtain ⟨box, hbox, hboxx⟩ := exists_cell_of_inSpan (hcount x hx) hx
    obtain ⟨hiff, hcover⟩ := hits_eq_cover hfits hbox hboxx
    exact ⟨box, hbox, hiff.mp hx, hcover ▸ hQ⟩

/-- A cell that is not empty, lies in the box and has a defect at each of its coordinates. -/
structure Reported (offset shape : List ℤ) (defect : List ℤ → Prop) (c : Cell) : Prop where
  nonempty : ∃ x, inBox c.offset c.shape x = true
  inside : ∀ x, inBox c.offset c.shape x = true → inBox offset shape x = true ∧ defect x

theorem inBox_cellOf :
    inBox (cellOf box).offset (cellOf box).shape x = true ↔ InSpan (span box) x := by
  rw [inBox_iff_inSpan (by simp [cellOf])]
  simp only [cellOf, zip_map_fst_snd]

theorem reported_cellOf (hlen : offset.length = shape.length)
    (Q : ℕ → Prop) (hfits : Fits (offset.zip shape).length inputs)
    (hbox : box ∈ cells (offset.zip shape) inputs) (hin : within box (offset.zip shape) = true)
    (hQ : Q (cover inputs box)) :
    Reported offset shape (fun x => Q (hits inputs x)) (cellOf box) where
  nonempty := by
    obtain ⟨x, hx⟩ := exists_inSpan_cell hbox
    exact ⟨x, inBox_cellOf.2 hx⟩
  inside x hx := by
    obtain ⟨hiff, hcover⟩ := hits_eq_cover hfits hbox (inBox_cellOf.1 hx)
    exact ⟨(inBox_iff_inSpan hlen).mpr (hiff.mpr hin), hcover ▸ hQ⟩

/-! ## One output -/

section Output

variable {out : TensorDescr} {inputs : List LogicalInput} {reduce : ReduceOp}

def HasGap (out : TensorDescr) (inputs : List LogicalInput) : Prop :=
  ∃ x, inBox out.offset out.shape x = true ∧ hits inputs x = 0

/-- Some coordinate of the output has two inputs although it must not. -/
def HasOverlap (reduce : ReduceOp) (out : TensorDescr) (inputs : List LogicalInput) : Prop :=
  reduce = .none ∧ ∃ x, inBox out.offset out.shape x = true ∧ 2 ≤ hits inputs x

variable (hlen : out.offset.length = out.shape.length) (hfits : Fits out.box.length inputs)
  (hcount : ∀ x, InSpan (span out.box) x → cellCount (boundaries out.box inputs) < 2 ^ 64)
  (pick : ℕ → ℕ)

include hlen hfits

section

include hcount

theorem gapCount_pos_iff :
    0 < (scanCells reduce pick out.box inputs).gapCount ↔ HasGap out inputs := by
  rw [(scanCells_spec reduce pick out.box inputs).gaps.pos_iff, HasGap]
  simp only [IsGap, inBox_iff_inSpan hlen]
  exact exists_cell_cover_iff (fun n => n = 0) hfits hcount

theorem overlapCount_pos_iff :
    0 < (scanCells reduce pick out.box inputs).overlapCount ↔ HasOverlap reduce out inputs := by
  rw [(scanCells_spec reduce pick out.box inputs).overlaps.pos_iff, HasOverlap]
  simp only [IsOverlap, inBox_iff_inSpan hlen]
  have := exists_cell_cover_iff (fun n => 2 ≤ n) hfits hcount
  constructor
  · rintro ⟨box, hbox, hin, htwo, hr⟩
    exact ⟨hr, this.mp ⟨box, hbox, hin, htwo⟩⟩
  · rintro ⟨hr, hx⟩
    obtain ⟨box, hbox, hin, htwo⟩ := this.mpr hx
    exact ⟨box, hbox, hin, htwo, hr⟩

end

theorem gapDetails_reported {c : Cell}
    (hc : c ∈ (scanCells reduce pick out.box inputs).gapDetails) :
    Reported out.offset out.shape (fun x => hits inputs x = 0) c := by
  obtain ⟨box, hbox, ⟨hin, hzero⟩, rfl⟩ :=
    (scanCells_spec reduce pick out.box inputs).gaps.listed c hc
  exact reported_cellOf hlen (fun n => n = 0) hfits hbox hin hzero

theorem overlapDetails_reported {c : Cell × ℕ × ℕ}
    (hc : c ∈ (scanCells reduce pick out.box inputs).overlapDetails) :
    Reported out.offset out.shape (fun x => 2 ≤ hits inputs x) c.1 := by
  obtain ⟨box, hbox, ⟨hin, htwo, -⟩, heq⟩ :=
    (scanCells_spec reduce pick out.box inputs).overlaps.listed c.1 (mem_map_of_mem hc)
  rw [heq]
  exact reported_cellOf hlen (fun n => 2 ≤ n) hfits hbox hin htwo

include hcount

theorem resolveOutput_gap (outIdx : ℕ) (hnumel : out.numel ≠ 0) (hgap : HasGap out inputs) :
    ∃ count regions, resolveOutput reduce pick outIdx out inputs =
        .error (.missingCoverage outIdx count regions) ∧ regions ≠ [] ∧
      ∀ c ∈ regions, Reported out.offset out.shape (fun x => hits inputs x = 0) c := by
  set s := scanCells reduce pick out.box inputs with hs
  have hpos : 0 < s.gapCount := (gapCount_pos_iff hlen hfits hcount pick).mpr hgap
  refine ⟨s.gapCount, s.gapDetails, ?_,
    (scanCells_spec reduce pick out.box inputs).gaps.nonempty hpos,
    fun c hc => gapDetails_reported hlen hfits pick hc⟩
  simp only [resolveOutput, if_neg hnumel, ← hs, gt_iff_lt, if_pos hpos]

/-- An output that is covered, with a coordinate that two inputs cover. -/
theorem resolveOutput_overlap (outIdx : ℕ) (hnumel : out.numel ≠ 0) (hgap : ¬ HasGap out inputs)
    (hover : HasOverlap reduce out inputs) :
    ∃ count regions, resolveOutput reduce pick outIdx out inputs =
        .error (.overlappingInputs outIdx count regions) ∧ regions ≠ [] ∧
      ∀ c ∈ regions, Reported out.offset out.shape (fun x => 2 ≤ hits inputs x) c.1 := by
  set s := scanCells reduce pick out.box inputs with hs
  have hzero : ¬ 0 < s.gapCount := fun h => hgap ((gapCount_pos_iff hlen hfits hcount pick).mp h)
  have hpos : 0 < s.overlapCount := (overlapCount_pos_iff hlen hfits hcount pick).mpr hover
  refine ⟨s.overlapCount, s.overlapDetails, ?_, fun h => ?_,
    fun c hc => overlapDetails_reported hlen hfits pick hc⟩
  · simp only [resolveOutput, if_neg hnumel, ← hs, gt_iff_lt, if_neg hzero, if_pos hpos]
  · exact (scanCells_spec reduce pick out.box inputs).overlaps.nonempty hpos (by rw [h]; rfl)

/-- An output without a defect. -/
theorem resolveOutput_ok (outIdx : ℕ) (hgap : out.numel ≠ 0 → ¬ HasGap out inputs)
    (hover : out.numel ≠ 0 → ¬ HasOverlap reduce out inputs) :
    ∃ cells, resolveOutput reduce pick outIdx out inputs = .ok cells := by
  by_cases hnumel : out.numel = 0
  · exact ⟨[], by rw [resolveOutput, if_pos hnumel]⟩
  · have hzero : ¬ 0 < (scanCells reduce pick out.box inputs).gapCount :=
      fun h => hgap hnumel ((gapCount_pos_iff hlen hfits hcount pick).mp h)
    have hzero' : ¬ 0 < (scanCells reduce pick out.box inputs).overlapCount :=
      fun h => hover hnumel ((overlapCount_pos_iff hlen hfits hcount pick).mp h)
    refine ⟨(scanCells reduce pick out.box inputs).cells, ?_⟩
    simp only [resolveOutput, if_neg hnumel, gt_iff_lt, if_neg hzero, if_neg hzero']

end Output

end CompileOp
