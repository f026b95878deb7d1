import Moodist.CudaAllocator.Edits

/-!
# Sets of spans

`add_span` of `core/allocator.cc` finds the place of a span by bisection and changes the vector in
place. `core/moo_allocator_impl.h` has the same function for its own spans.
-/

namespace CudaAllocator.Spans

open List

/-- The first span between `a` and `b` that begins behind `start`. -/
def search (spans : List Span) (start a b : ℕ) : ℕ :=
  if a < b then
    if spans[(a + b) / 2]?.any fun s => s.start ≤ start then search spans start ((a + b) / 2 + 1) b
    else search spans start a ((a + b) / 2)
  else a
termination_by b - a

/-- `none` is a failed check. -/
def addSpan (spans : List Span) (span : Span) : Option (List Span) :=
  let a := search spans span.start 0 spans.length
  let left := if a = 0 then none else spans[a - 1]?.filter fun s => s.stop = span.start
  let right := spans[a]?.filter fun s => s.start = span.stop
  if span.start < span.stop then
    some <| match left, right with
    | some l, some r => (spans.set (a - 1) ⟨l.start, r.stop⟩).eraseIdx a
    | some l, none => spans.set (a - 1) ⟨l.start, span.stop⟩
    | none, some r => spans.set a ⟨span.start, r.stop⟩
    | none, none => spans.insertIdx a span
  else none

/-- `add_span` of `core/moo_allocator_impl.h`. -/
def mooAddSpan : List Span → Span → Option (List Span) := addSpan

/-- Sorted spans, none of them empty, with a gap between any two. -/
structure Normal (spans : List Span) : Prop where
  lt : ∀ s ∈ spans, s.start < s.stop
  apart : spans.Pairwise fun s s' => s.stop < s'.start

def Covers (spans : List Span) (b : ℕ) : Prop := ∃ s ∈ spans, s.has b = true

section

variable {spans spans' l l' ranges : List Span} {span : Span} {start a b : ℕ}

theorem search_eq (hl : ∀ s ∈ l, s.start ≤ start) (hl' : ∀ s ∈ l', start < s.start)
    (ha : a ≤ l.length) (hb : l.length ≤ b) (hlen : b ≤ (l ++ l').length) :
    search (l ++ l') start a b = l.length := by
  fun_induction search (l ++ l') start a b with
  | case1 a b hab hmid ih =>
    refine ih (not_lt.mp fun hlt => ?_) hb hlen
    rw [getElem?_append_right (by omega), Option.any_eq_true] at hmid
    obtain ⟨s, hs, hle⟩ := hmid
    have := hl' s (mem_of_getElem? hs)
    simp at hle
    omega
  | case2 a b hab hmid ih =>
    refine ih ha (not_lt.mp fun hlt => hmid ?_) (by omega)
    rw [getElem?_append_left hlt, getElem?_eq_getElem hlt]
    simpa using hl _ (getElem_mem hlt)
  | case3 a b hab => omega

theorem insertIdx_length_succ (x : Span) :
    (l ++ x :: l').insertIdx (l.length + 1) span = l ++ x :: span :: l' := by
  induction l <;> simp_all

/-- The search finds the place at which the regions are divided. -/
theorem addSpan_eq (hspans : Normal spans) (hspan : span.start < span.stop)
    (hfresh : ∀ s ∈ spans, span.stop ≤ s.start ∨ s.stop ≤ span.start) :
    addSpan spans span = some (CudaAllocator.addSpan spans span) := by
  obtain ⟨hok, hnew⟩ := regions_ok hspans.lt hfresh
  obtain ⟨l, l', rfl, hbefore, hafter⟩ : ∃ l l', spans = l ++ l' ∧
      before (spans.map fun s => ⟨s, []⟩) span = l.map (fun s => ⟨s, []⟩) ∧
      after (spans.map fun s => ⟨s, []⟩) span = l'.map (fun s => ⟨s, []⟩) :=
    ⟨_, _, takeWhile_append_dropWhile.symm, takeWhile_map .., dropWhile_map ..⟩
  have hl : ∀ s ∈ l, s.start ≤ span.start := fun s hs =>
    (hspans.lt s (mem_append_left _ hs)).le.trans <|
      stop_le_of_mem_before hspan hnew (hbefore ▸ mem_map_of_mem hs)
  have hl' : ∀ s ∈ l', span.start < s.start := fun s hs => hspan.trans_le <|
    le_start_of_mem_after hok (pairwise_map.mpr hspans.apart) hnew (hafter ▸ mem_map_of_mem hs)
  rw [addSpan, search_eq hl hl' (Nat.zero_le _) (by simp) le_rfl, CudaAllocator.addSpan, insertSpan,
    keptBefore, keptAfter, joined, leftOf, rightOf, hbefore, hafter]
  rcases eq_nil_or_concat' l with rfl | ⟨l, x, rfl⟩
  · cases l' with
    | nil => simp [hspan]
    | cons y l' =>
      by_cases hy : y.start = span.stop <;> simp [hspan, Option.filter, hy, Function.comp_def]
  · cases l' with
    | nil =>
      by_cases hx : x.stop = span.start <;>
        simp [hspan, Option.filter, hx, insertIdx_length_succ, Function.comp_def]
    | cons y l' =>
      by_cases hx : x.stop = span.start <;> by_cases hy : y.start = span.stop <;>
        simp [hspan, Option.filter, hx, hy, insertIdx_length_succ, eraseIdx_append,
          Function.comp_def]

/-- Spans without a common byte do not overlap. -/
theorem fresh_of_not_covers (hlt : ∀ s ∈ spans, s.start < s.stop) (hspan : span.start < span.stop)
    (hdisj : ∀ b, span.has b = true → ¬ Covers spans b) :
    ∀ s ∈ spans, span.stop ≤ s.start ∨ s.stop ≤ span.start := by
  intro s hs
  by_contra hover
  have := hlt s hs
  refine hdisj (max span.start s.start) (Span.has_iff.mpr ?_) ⟨s, hs, Span.has_iff.mpr ?_⟩ <;> omega

theorem Normal.addSpan (hspans : Normal spans) (hdisj : ∀ b, span.has b = true → ¬ Covers spans b)
    (hspan : span.start < span.stop) :
    ∃ spans', addSpan spans span = some spans' ∧ Normal spans' ∧
      ∀ b, Covers spans' b ↔ Covers spans b ∨ span.has b = true := by
  have hfresh := fresh_of_not_covers hspans.lt hspan hdisj
  obtain ⟨hap, hlt, hbytes⟩ := addSpan_spec (pairwise_map.mpr hspans.apart) hspans.lt hspan hfresh
  refine ⟨_, addSpan_eq hspans hspan hfresh, ⟨hlt, pairwise_map.mp hap⟩, fun b => ?_⟩
  have hbyte := hbytes b
  simp only [any_eq_true, Span.ind] at hbyte
  grind [Covers]

theorem foldlM_addSpan (hspans : Normal spans)
    (hdisj : ∀ r ∈ ranges, ∀ b, r.has b = true → ¬ Covers spans b)
    (hranges : ranges.Pairwise fun r r' => ∀ b, r.has b = true → r'.has b = false) :
    (∀ spans', ranges.foldlM addSpan spans = some spans' →
      Normal spans' ∧ ∀ b, Covers spans' b ↔ Covers spans b ∨ Covers ranges b) ∧
    ((∀ r ∈ ranges, r.start < r.stop) → (ranges.foldlM addSpan spans).isSome) := by
  induction ranges generalizing spans with
  | nil => simp_all [Covers]
  | cons r ranges ih =>
    rw [foldlM_cons]
    by_cases hr : r.start < r.stop
    · obtain ⟨next, hadd, hnext, hcovers⟩ := hspans.addSpan (hdisj r mem_cons_self) hr
      obtain ⟨hrun, hsome⟩ := ih hnext (fun r' hr' b hb hcov => by
        rcases (hcovers b).mp hcov with hcov | hcov
        · exact hdisj r' (mem_cons_of_mem _ hr') b hb hcov
        · exact absurd (rel_of_pairwise_cons hranges hr' b hcov) (by simp [hb])) hranges.of_cons
      rw [hadd]
      refine ⟨fun spans' h => ⟨(hrun spans' h).1, fun b => ?_⟩,
        fun h => hsome fun r' hr' => h r' (mem_cons_of_mem _ hr')⟩
      rw [(hrun spans' h).2, hcovers]
      simp [Covers, or_assoc]
    · simp [addSpan, hr]

/-- Spans added to an empty set stay normal, and the set is their union. -/
theorem addSpans_normal
    (hranges : ranges.Pairwise fun r r' => ∀ b, r.has b = true → r'.has b = false) :
    (∀ spans, ranges.foldlM addSpan [] = some spans →
      Normal spans ∧ ∀ b, (∃ s ∈ spans, s.has b = true) ↔ ∃ r ∈ ranges, r.has b = true) ∧
    ((∀ r ∈ ranges, r.start < r.stop) → (ranges.foldlM addSpan []).isSome) := by
  have hspec := foldlM_addSpan ⟨by simp, .nil⟩ (by simp [Covers]) hranges
  simpa [Covers] using hspec

theorem addSpans_normal_merge :
    ∃ spans, [⟨0, 4⟩, ⟨8, 12⟩, ⟨4, 8⟩].foldlM addSpan [] = some spans ∧ Normal spans := by
  have hspec := @addSpans_normal [⟨0, 4⟩, ⟨8, 12⟩, ⟨4, 8⟩] (by
    simp only [pairwise_cons, Span.has]
    grind)
  obtain ⟨spans, hspans⟩ := Option.isSome_iff_exists.mp (hspec.2 (by decide))
  exact ⟨spans, hspans, (hspec.1 spans hspans).1⟩

end

end CudaAllocator.Spans
