import Moodist.CudaAllocator.Defs

/-!
# Maps of regions

The regions of a map are apart from each other, their events are sorted and lie inside them, and
the index by size has exactly one entry for each. Every change of a map keeps this and changes
the bytes of the map by a span.
-/

namespace CudaAllocator

open List

/-! ## The invariant -/

/-- The events are sorted by their first byte and lie inside the span. -/
structure EventsOk (span : Span) (events : List EventRegion) : Prop where
  sorted : events.Pairwise fun a b => a.span.start ≤ b.span.start
  inside : ∀ e ∈ events,
    span.start ≤ e.span.start ∧ e.span.start < e.span.stop ∧ e.span.stop ≤ span.stop

structure Region.Ok (r : Region) : Prop where
  lt : r.span.start < r.span.stop
  events : EventsOk r.span r.events

def Apart (map : List Region) : Prop := map.Pairwise fun a b => a.span.stop < b.span.start

structure Regions.Ok (rs : Regions) : Prop where
  apart : Apart rs.map
  region : ∀ r ∈ rs.map, r.Ok
  index : rs.sizes.Perm (rs.map.map Region.key)
  sorted : rs.sizes.Pairwise keyLe

def countIn (map : List Region) (b : ℕ) : ℕ := map.countP fun r => r.span.has b

def Regions.count (rs : Regions) (b : ℕ) : ℕ := countIn rs.map b

def Span.ind (s : Span) (b : ℕ) : ℕ := if s.has b then 1 else 0

theorem Span.has_iff {s : Span} {b : ℕ} : s.has b = true ↔ s.start ≤ b ∧ b < s.stop := by
  simp [Span.has]

theorem Span.ind_eq (s : Span) (b : ℕ) : s.ind b = if s.start ≤ b ∧ b < s.stop then 1 else 0 := by
  simp only [Span.ind, Span.has_iff]

theorem countIn_append (l l' : List Region) (b : ℕ) :
    countIn (l ++ l') b = countIn l b + countIn l' b := countP_append

theorem countIn_cons (r : Region) (l : List Region) (b : ℕ) :
    countIn (r :: l) b = r.span.ind b + countIn l b := by
  rw [countIn, countP_cons, Span.ind, add_comm]
  rfl

theorem countIn_nil (b : ℕ) : countIn [] b = 0 := rfl

theorem Apart.cases {map : List Region} (h : Apart map) {a b : Region} (ha : a ∈ map)
    (hb : b ∈ map) : a = b ∨ a.span.stop < b.span.start ∨ b.span.stop < a.span.start := by
  induction map with
  | nil => cases ha
  | cons r map ih =>
    rcases mem_cons.mp ha with rfl | ha'
    · rcases mem_cons.mp hb with rfl | hb'
      · exact .inl rfl
      · exact .inr (.inl (rel_of_pairwise_cons h hb'))
    · rcases mem_cons.mp hb with rfl | hb'
      · exact .inr (.inr (rel_of_pairwise_cons h ha'))
      · exact ih h.of_cons ha' hb'

/-- A byte is in one region at most. -/
theorem countIn_le_one {map : List Region} (hap : Apart map)
    (hok : ∀ r ∈ map, r.span.start < r.span.stop)
    (b : ℕ) : countIn map b ≤ 1 := by
  induction map with
  | nil => exact Nat.zero_le 1
  | cons r map ih =>
    have hrest := ih hap.of_cons fun x hx => hok x (mem_cons_of_mem _ hx)
    rw [countIn_cons, Span.ind]
    split
    · next hb =>
      have hzero : countIn map b = 0 := by
        refine countP_eq_zero.mpr fun x hx hxb => ?_
        have hlt := rel_of_pairwise_cons hap hx
        rw [Span.has_iff] at hb hxb
        omega
      omega
    · omega

/-- Events of neighbouring spans. -/
theorem EventsOk.append {a m c : ℕ} {es es' : List EventRegion} (h : EventsOk ⟨a, m⟩ es)
    (h' : EventsOk ⟨m, c⟩ es') (ham : a ≤ m) (hmc : m ≤ c) : EventsOk ⟨a, c⟩ (es ++ es') := by
  refine ⟨pairwise_append.mpr ⟨h.sorted, h'.sorted, fun e he e' he' => ?_⟩, fun e he => ?_⟩
  · have := h.inside e he
    have := h'.inside e' he'
    simp only at *
    omega
  · rcases mem_append.mp he with he | he
    · have := h.inside e he
      simp only at *
      omega
    · have := h'.inside e he
      simp only at *
      omega

theorem Regions.ok_empty : Regions.Ok {} := ⟨.nil, by simp, .refl _, .nil⟩

/-! ## The index by size -/

instance : Std.Total keyLe := ⟨fun a b => by unfold keyLe; omega⟩

instance : IsTrans (ℕ × ℕ) keyLe := ⟨fun a b c hab hbc => by unfold keyLe at *; omega⟩

variable {l l' : List Region} {r : Region} {sizes : List (ℕ × ℕ)}

theorem pairwise_start (hok : ∀ x ∈ l ++ r :: l', x.Ok) (h : Apart (l ++ r :: l')) :
    (∀ x ∈ l, x.span.start ≠ r.span.start) ∧ ∀ x ∈ l', x.span.start ≠ r.span.start := by
  obtain ⟨-, hr, hcross⟩ := pairwise_append.mp h
  have hlt := (hok r (by simp)).lt
  constructor
  · intro x hx
    have hx' := (hok x (by simp [hx])).lt
    have := hcross x hx r mem_cons_self
    omega
  · intro x hx
    have := rel_of_pairwise_cons hr hx
    omega

theorem filter_start_ne (hok : ∀ x ∈ l ++ r :: l', x.Ok) (h : Apart (l ++ r :: l')) :
    (l ++ r :: l').filter (fun x => x.span.start ≠ r.span.start) = l ++ l' := by
  obtain ⟨hl, hl'⟩ := pairwise_start hok h
  rw [filter_append, filter_cons_of_neg (by simp)]
  rw [filter_eq_self.mpr (by simpa using hl), filter_eq_self.mpr (by simpa using hl')]

theorem map_start_eq {r' : Region} (f : Region → Region) (hok : ∀ x ∈ l ++ r :: l', x.Ok)
    (h : Apart (l ++ r :: l')) (hf : f r = r') :
    (l ++ r :: l').map (fun x => if x.span.start = r.span.start then f x else x) =
      l ++ r' :: l' := by
  obtain ⟨hl, hl'⟩ := pairwise_start hok h
  have hid : ∀ m : List Region, (∀ x ∈ m, x.span.start ≠ r.span.start) →
      m.map (fun x => if x.span.start = r.span.start then f x else x) = m := by
    intro m hm
    calc m.map (fun x => if x.span.start = r.span.start then f x else x) = m.map id :=
          map_congr_left fun x hx => if_neg (hm x hx)
      _ = m := map_id m
  rw [map_append, map_cons, if_pos rfl, hf, hid l hl, hid l' hl']

theorem filter_key (map : List Region) (start : ℕ) :
    (map.map Region.key).filter (fun e => e.2 ≠ start) =
      (map.filter fun x => x.span.start ≠ start).map Region.key := by
  rw [filter_map]
  rfl

/-- Taking a region out of the index leaves the entries of the others. -/
theorem dropSize_perm {o : Option Region}
    (hok : ∀ x ∈ l ++ (o.toList ++ l'), x.Ok) (h : Apart (l ++ (o.toList ++ l')))
    (hperm : sizes.Perm ((l ++ (o.toList ++ l')).map Region.key)) :
    (dropSize sizes o).Perm ((l ++ l').map Region.key) := by
  cases o with
  | none => simpa [dropSize] using hperm
  | some r =>
    have := hperm.filter fun e => decide (e.2 ≠ r.span.start)
    rw [filter_key] at this
    rw [show l ++ ((some r).toList ++ l') = l ++ r :: l' from rfl] at this hok h
    rwa [filter_start_ne hok h] at this

theorem dropSize_sorted (o : Option Region) (h : sizes.Pairwise keyLe) :
    (dropSize sizes o).Pairwise keyLe := by
  cases o with
  | none => exact h
  | some r => exact h.filter _

/-! ## Adding a span -/

section Insert

variable {map : List Region} {span : Span} {events : List EventRegion}

theorem before_append_after : before map span ++ after map span = map :=
  takeWhile_append_dropWhile

def Fresh (map : List Region) (span : Span) : Prop :=
  ∀ r ∈ map, r.span.stop ≤ span.start ∨ span.stop ≤ r.span.start

variable {p : Region}

theorem mem_of_leftOf (h : leftOf map span = some p) : p ∈ map :=
  (takeWhile_subset _) (mem_of_getLast? (Option.mem_filter_iff.mp h).1)

theorem mem_of_rightOf (h : rightOf map span = some p) : p ∈ map :=
  (dropWhile_suffix _).subset (mem_of_mem_head? (Option.mem_filter_iff.mp h).1)

theorem mem_insertSpan (h : r ∈ insertSpan map span events) :
    r ∈ map ∨ r = joined map span events := by
  rcases mem_append.mp h with h | h
  · left
    refine (takeWhile_subset _) (?_ : r ∈ before map span)
    unfold keptBefore at h
    split at h
    · exact mem_of_mem_dropLast h
    · exact h
  · rcases mem_cons.mp h with h | h
    · exact .inr h
    · left
      refine (dropWhile_suffix _).subset (?_ : r ∈ after map span)
      unfold keptAfter at h
      split at h
      · exact mem_of_mem_tail h
      · exact h

theorem stop_le_of_mem_before (hspan : span.start < span.stop) (hfresh : Fresh map span)
    (hr : r ∈ before map span) : r.span.stop ≤ span.start := by
  have hle : r.span.start ≤ span.start := by simpa using mem_takeWhile_imp hr
  have hmem : r ∈ map := (takeWhile_subset _) hr
  have := hfresh r hmem
  omega

theorem le_start_of_mem_after (hok : ∀ r ∈ map, r.Ok) (hap : Apart map) (hfresh : Fresh map span)
    (hr : r ∈ after map span) : span.stop ≤ r.span.start := by
  have hmem : r ∈ map := (dropWhile_suffix _).subset hr
  suffices hlt : span.start < r.span.start by
    have := hfresh r hmem
    have := (hok r hmem).lt
    omega
  have hapAfter : Apart (after map span) := hap.sublist (dropWhile_suffix _).sublist
  cases hafter : after map span with
  | nil => simp [hafter] at hr
  | cons a rest =>
    have hhead := head?_dropWhile_not (fun r => decide (r.span.start ≤ span.start)) map
    rw [← after, hafter] at hhead
    have ha : span.start < a.span.start := by simpa using hhead
    rw [hafter] at hr hapAfter
    rcases mem_cons.mp hr with rfl | hr
    · exact ha
    · have := rel_of_pairwise_cons hapAfter hr
      have := (hok a ((dropWhile_suffix _).subset (hafter ▸ mem_cons_self))).lt
      omega

theorem left_cases (hok : ∀ r ∈ map, r.Ok) (hap : Apart map) (hspan : span.start < span.stop)
    (hfresh : Fresh map span) :
    (leftOf map span = none ∧ keptBefore map span = before map span ∧
      ∀ r ∈ before map span, r.span.stop < span.start) ∨
    ∃ init p, before map span = init ++ [p] ∧ leftOf map span = some p ∧
      keptBefore map span = init ∧ p.span.stop = span.start := by
  have hapBefore : Apart (before map span) := hap.sublist (takeWhile_sublist _)
  rcases eq_nil_or_concat (before map span) with hb | ⟨init, p, hb⟩
  · left
    have hleft : leftOf map span = none := by simp [leftOf, hb]
    exact ⟨hleft, by simp [keptBefore, hleft], by simp [hb]⟩
  · rw [concat_eq_append] at hb
    by_cases hp : p.span.stop = span.start
    · right
      have hleft : leftOf map span = some p := by simp [leftOf, hb, hp]
      exact ⟨init, p, hb, hleft, by simp [keptBefore, hleft, hb], hp⟩
    · left
      have hleft : leftOf map span = none := by simp [leftOf, hb, hp]
      refine ⟨hleft, by simp [keptBefore, hleft], fun r hr => ?_⟩
      have hmem : p ∈ before map span := by simp [hb]
      have hple := stop_le_of_mem_before hspan hfresh hmem
      rw [hb] at hr hapBefore
      rcases mem_append.mp hr with hr | hr
      · have := (pairwise_append.mp hapBefore).2.2 r hr p (by simp)
        have := (hok p ((takeWhile_subset _) hmem)).lt
        omega
      · rw [mem_singleton.mp hr]
        omega

theorem right_cases (hok : ∀ r ∈ map, r.Ok) (hap : Apart map) (hfresh : Fresh map span) :
    (rightOf map span = none ∧ keptAfter map span = after map span ∧
      ∀ r ∈ after map span, span.stop < r.span.start) ∨
    ∃ i rest, after map span = i :: rest ∧ rightOf map span = some i ∧
      keptAfter map span = rest ∧ i.span.start = span.stop := by
  have hapAfter : Apart (after map span) := hap.sublist (dropWhile_suffix _).sublist
  cases ha : after map span with
  | nil =>
    left
    have hright : rightOf map span = none := by simp [rightOf, ha]
    exact ⟨hright, by simp [keptAfter, hright, ha], by simp⟩
  | cons i rest =>
    have hmem : i ∈ after map span := by simp [ha]
    have hile := le_start_of_mem_after hok hap hfresh hmem
    by_cases hi : i.span.start = span.stop
    · right
      have hright : rightOf map span = some i := by simp [rightOf, ha, hi]
      exact ⟨i, rest, rfl, hright, by simp [keptAfter, hright, ha], hi⟩
    · left
      have hright : rightOf map span = none := by simp [rightOf, ha, hi]
      refine ⟨hright, by simp [keptAfter, hright, ha], fun r hr => ?_⟩
      rw [ha] at hapAfter
      rcases mem_cons.mp hr with rfl | hr
      · omega
      · have := rel_of_pairwise_cons hapAfter hr
        have := (hok i ((dropWhile_suffix _).subset hmem)).lt
        omega

variable (hok : ∀ r ∈ map, r.Ok) (hap : Apart map) (hspan : span.start < span.stop)
  (hfresh : Fresh map span)

include hok hap hspan hfresh

theorem map_eq_kept : map = keptBefore map span ++
    ((leftOf map span).toList ++ ((rightOf map span).toList ++ keptAfter map span)) := by
  have hleft : keptBefore map span ++ (leftOf map span).toList = before map span := by
    rcases left_cases hok hap hspan hfresh with ⟨hl, hk, -⟩ | ⟨init, p, hb, hl, hk, -⟩
    · rw [hl, hk]
      simp
    · rw [hl, hk, hb]
      rfl
  have hright : (rightOf map span).toList ++ keptAfter map span = after map span := by
    rcases right_cases hok hap hfresh with ⟨hr, hk, -⟩ | ⟨i, rest, ha, hr, hk, -⟩
    · rw [hr, hk]
      simp
    · rw [hr, hk, ha]
      rfl
  rw [← append_assoc, hleft, hright, before_append_after]

theorem stop_lt_joined (events : List EventRegion) (hr : r ∈ keptBefore map span) :
    r.span.stop < (joined map span events).span.start := by
  rcases left_cases hok hap hspan hfresh with ⟨hl, hk, hlt⟩ | ⟨init, p, hb, hl, hk, -⟩
  · rw [hk] at hr
    simpa [joined, hl] using hlt r hr
  · have hapBefore : Apart (before map span) := hap.sublist (takeWhile_sublist _)
    rw [hb] at hapBefore
    rw [hk] at hr
    simpa [joined, hl] using (pairwise_append.mp hapBefore).2.2 r hr p (by simp)

omit hspan in
theorem joined_lt_start (events : List EventRegion) (hr : r ∈ keptAfter map span) :
    (joined map span events).span.stop < r.span.start := by
  rcases right_cases hok hap hfresh with ⟨hl, hk, hlt⟩ | ⟨i, rest, ha, hl, hk, -⟩
  · rw [hk] at hr
    simpa [joined, hl] using hlt r hr
  · have hapAfter : Apart (after map span) := hap.sublist (dropWhile_suffix _).sublist
    rw [ha] at hapAfter
    rw [hk] at hr
    simpa [joined, hl] using rel_of_pairwise_cons hapAfter hr

theorem joined_ind (events : List EventRegion) (b : ℕ) : (joined map span events).span.ind b =
    countIn (leftOf map span).toList b + span.ind b + countIn (rightOf map span).toList b := by
  have hmem : ∀ r ∈ before map span ++ after map span, r.Ok := before_append_after ▸ hok
  rcases left_cases hok hap hspan hfresh with ⟨hl, -, -⟩ | ⟨init, p, hb, hl, -, hp⟩ <;>
    rcases right_cases hok hap hfresh with ⟨hr, -, -⟩ | ⟨i, rest, ha, hr, -, hi⟩ <;>
    simp only [joined, hl, hr, Option.map_none, Option.map_some, Option.getD_none, Option.getD_some,
      Option.toList_none, Option.toList_some, countIn_cons, countIn_nil, Span.ind_eq]
  · omega
  · have := (hmem i (by simp [ha])).lt
    split_ifs <;> omega
  · have := (hmem p (by simp [hb])).lt
    split_ifs <;> omega
  · have := (hmem i (by simp [ha])).lt
    have := (hmem p (by simp [hb])).lt
    split_ifs <;> omega

theorem joined_ok (hevents : EventsOk span events) : (joined map span events).Ok := by
  have hmem : ∀ r ∈ before map span ++ after map span, r.Ok := before_append_after ▸ hok
  set start := ((leftOf map span).map fun p => p.span.start).getD span.start with hstart
  set stop := ((rightOf map span).map fun i => i.span.stop).getD span.stop with hstop
  have hleft : start ≤ span.start ∧ EventsOk ⟨start, span.start⟩ (eventsOf (leftOf map span)) := by
    rcases left_cases hok hap hspan hfresh with ⟨hl, -, -⟩ | ⟨init, p, hb, hl, -, hp⟩
    · rw [hstart, hl]
      exact ⟨le_rfl, .nil, by simp [eventsOf]⟩
    · have hpok := hmem p (by simp [hb])
      rw [hstart, hl, ← hp]
      exact ⟨hpok.lt.le, hpok.events⟩
  have hright : span.stop ≤ stop ∧ EventsOk ⟨span.stop, stop⟩ (eventsOf (rightOf map span)) := by
    rcases right_cases hok hap hfresh with ⟨hr, -, -⟩ | ⟨i, rest, ha, hr, -, hi⟩
    · rw [hstop, hr]
      exact ⟨le_rfl, .nil, by simp [eventsOf]⟩
    · have hiok := hmem i (by simp [ha])
      rw [hstop, hr, ← hi]
      exact ⟨hiok.lt.le, hiok.events⟩
  constructor
  · show start < stop
    omega
  · exact (hleft.2.append hevents hleft.1 hspan.le).append hright.2 (by omega) hright.1

/-- Adding a span keeps the invariant of the regions by address. -/
theorem insertSpan_spec (hevents : EventsOk span events) :
    Apart (insertSpan map span events) ∧ (∀ r ∈ insertSpan map span events, r.Ok) ∧
      ∀ b, countIn (insertSpan map span events) b = countIn map b + span.ind b := by
  have hmap := map_eq_kept hok hap hspan hfresh
  have hjoined := joined_ok hok hap hspan hfresh hevents
  have hap' := hap
  have hok' := hok
  rw [hmap] at hap' hok'
  obtain ⟨hbefore, hrest, -⟩ := pairwise_append.mp hap'
  obtain ⟨-, hrest, -⟩ := pairwise_append.mp hrest
  obtain ⟨-, hafter, -⟩ := pairwise_append.mp hrest
  refine ⟨?_, fun r hr => ?_, fun b => ?_⟩
  · refine pairwise_append.mpr ⟨hbefore, pairwise_cons.mpr ⟨fun x hx => ?_, hafter⟩,
      fun x hx y hy => ?_⟩
    · exact joined_lt_start hok hap hfresh events hx
    · have hx' := stop_lt_joined hok hap hspan hfresh events hx
      rcases mem_cons.mp hy with rfl | hy
      · exact hx'
      · have := joined_lt_start hok hap hfresh events hy
        have := hjoined.lt
        omega
  · rcases mem_append.mp hr with hr | hr
    · exact hok' r (mem_append_left _ hr)
    · rcases mem_cons.mp hr with rfl | hr
      · exact hjoined
      · exact hok' r (by simp [hr])
  · have hcount := congrArg (fun l => countIn l b) hmap
    have hind := joined_ind hok hap hspan hfresh events b
    simp only [countIn_append] at hcount
    rw [insertSpan, countIn_append, countIn_cons, hind, hcount]
    omega

end Insert

section

variable {rs : Regions} (h : rs.Ok) {span : Span} {events : List EventRegion}
  (hspan : span.start < span.stop) (hfresh : Fresh rs.map span) (hevents : EventsOk span events)

include h hspan hfresh hevents

/-- Adding a span keeps the invariant. -/
theorem Regions.Ok.insertRegion : (rs.insertRegion span events).Ok := by
  obtain ⟨hap, hok, -⟩ := insertSpan_spec h.region h.apart hspan hfresh hevents
  have hmap := map_eq_kept h.region h.apart hspan hfresh
  have hap' := h.apart
  have hok' := h.region
  have hindex := h.index
  rw [hmap] at hap' hok' hindex
  refine ⟨hap, hok, ?_, ?_⟩
  · have hdrop := dropSize_perm hok' hap' hindex
    have hok'' : ∀ x ∈ keptBefore rs.map span ++ ((rightOf rs.map span).toList ++
        keptAfter rs.map span), x.Ok := by
      intro x hx
      refine hok' x ?_
      simp only [mem_append] at hx ⊢
      tauto
    have hap'' : Apart (keptBefore rs.map span ++ ((rightOf rs.map span).toList ++
        keptAfter rs.map span)) :=
      hap'.sublist (List.Sublist.append_left (sublist_append_right _ _) _)
    have hdrop' := dropSize_perm hok'' hap'' hdrop
    refine (perm_orderedInsert _ _ _).trans ((hdrop'.cons _).trans ?_)
    rw [Regions.insertRegion, insertSpan, map_append, map_append, map_cons]
    exact perm_middle.symm
  · exact (dropSize_sorted _ (dropSize_sorted _ h.sorted)).orderedInsert _ _

theorem Regions.count_insertRegion (b : ℕ) :
    (rs.insertRegion span events).count b = rs.count b + span.ind b :=
  (insertSpan_spec h.region h.apart hspan hfresh hevents).2.2 b

end

/-! ## Taking bytes away -/

section Take

variable {rs : Regions}

theorem Regions.Ok.exists_split (h : rs.Ok) (hr : r ∈ rs.map) :
    ∃ l l', rs.map = l ++ r :: l' ∧ (∀ x ∈ l ++ r :: l', x.Ok) ∧ Apart (l ++ r :: l') ∧
      rs.sizes.Perm ((l ++ r :: l').map Region.key) := by
  obtain ⟨l, l', hmap⟩ := append_of_mem hr
  exact ⟨l, l', hmap, hmap ▸ h.region, hmap ▸ h.apart, hmap ▸ h.index⟩

/-- Taking a region out. -/
theorem Regions.Ok.remove (h : rs.Ok) (hr : r ∈ rs.map) :
    (rs.remove r.span.start).Ok ∧
      ∀ b, rs.count b = (rs.remove r.span.start).count b + r.span.ind b := by
  obtain ⟨l, l', hmap, hok, hap, hindex⟩ := h.exists_split hr
  have hmap' : (rs.remove r.span.start).map = l ++ l' := by
    rw [Regions.remove, hmap]
    exact filter_start_ne hok hap
  have hsub : (l ++ l').Sublist (l ++ r :: l') := (sublist_cons_self r l').append_left l
  refine ⟨⟨?_, fun x hx => ?_, ?_, h.sorted.filter _⟩, fun b => ?_⟩
  · rw [hmap']
    exact hap.sublist hsub
  · rw [hmap'] at hx
    exact hok x (hsub.subset hx)
  · rw [hmap']
    have := hindex.filter fun e => decide (e.2 ≠ r.span.start)
    rwa [filter_key, filter_start_ne hok hap] at this
  · rw [Regions.count, Regions.count, hmap, hmap', countIn_append, countIn_append, countIn_cons]
    omega

variable {bytes : ℕ}

theorem Regions.Ok.shrink (h : rs.Ok) (hr : r ∈ rs.map) {events : List EventRegion}
    (hbytes : bytes < r.span.bytes) (hpos : 0 < bytes)
    (hevents : EventsOk ⟨r.span.start + bytes, r.span.stop⟩ events) :
    (rs.shrink r bytes events).Ok ∧ ∀ b, rs.count b =
      (rs.shrink r bytes events).count b + (⟨r.span.start, r.span.start + bytes⟩ : Span).ind b := by
  obtain ⟨l, l', hmap, hok, hap, hindex⟩ := h.exists_split hr
  set r' : Region := ⟨⟨r.span.start + bytes, r.span.stop⟩, events⟩ with hr'
  have hmap' : (rs.shrink r bytes events).map = l ++ r' :: l' := by
    rw [Regions.shrink, hmap]
    exact map_start_eq (fun _ => r') hok hap rfl
  have hlt : r.span.start + bytes < r.span.stop := by
    rw [Span.bytes] at hbytes
    omega
  obtain ⟨hl, hcons, hcross⟩ := pairwise_append.mp hap
  obtain ⟨hrel, hl'⟩ := pairwise_cons.mp hcons
  refine ⟨⟨?_, fun x hx => ?_, ?_, (h.sorted.filter _).orderedInsert _ _⟩, fun b => ?_⟩
  · rw [hmap']
    refine pairwise_append.mpr ⟨hl, pairwise_cons.mpr ⟨hrel, hl'⟩, fun x hx y hy => ?_⟩
    rcases mem_cons.mp hy with rfl | hy
    · have := hcross x hx r mem_cons_self
      show x.span.stop < r.span.start + bytes
      omega
    · exact hcross x hx y (mem_cons_of_mem _ hy)
  · rw [hmap'] at hx
    rcases mem_append.mp hx with hx | hx
    · exact hok x (mem_append_left _ hx)
    · rcases mem_cons.mp hx with rfl | hx
      · exact ⟨hlt, hevents⟩
      · exact hok x (by simp [hx])
  · have hfilter := hindex.filter fun e => decide (e.2 ≠ r.span.start)
    rw [filter_key, filter_start_ne hok hap] at hfilter
    rw [hmap']
    refine (perm_orderedInsert _ _ _).trans ((hfilter.cons _).trans ?_)
    rw [map_append, map_append, map_cons]
    exact perm_middle.symm
  · have hind : r.span.ind b = r'.span.ind b +
        (⟨r.span.start, r.span.start + bytes⟩ : Span).ind b := by
      simp only [Span.ind_eq, hr']
      split_ifs <;> omega
    rw [Regions.count, Regions.count, hmap, hmap', countIn_append, countIn_append, countIn_cons,
      countIn_cons, hind]
    omega

/-- The index leads to the smallest region that is large enough. -/
theorem Regions.Ok.find_size (h : rs.Ok) {e : ℕ × ℕ}
    (he : rs.sizes.find? (fun e => bytes ≤ e.1) = some e) :
    ∃ r ∈ rs.map, rs.map.find? (fun r => r.span.start = e.2) = some r ∧ e = r.key ∧
      bytes ≤ r.span.bytes := by
  have hmem := mem_of_find?_eq_some he
  have hle : bytes ≤ e.1 := by simpa using List.find?_some he
  obtain ⟨r, hr, rfl⟩ := mem_map.mp (h.index.mem_iff.mp hmem)
  obtain ⟨l, l', hmap, hok, hap, -⟩ := h.exists_split hr
  refine ⟨r, hr, ?_, rfl, hle⟩
  rw [hmap, List.find?_append, List.find?_eq_none.mpr, Option.none_or]
  · exact List.find?_cons_of_pos (by simp [Region.key])
  · intro x hx
    rw [decide_eq_true_eq]
    exact (pairwise_start hok hap).1 x hx

theorem Regions.Ok.find_size_none (h : rs.Ok) (he : rs.sizes.find? (fun e => bytes ≤ e.1) = none) :
    ∀ r ∈ rs.map, r.span.bytes < bytes := by
  intro r hr
  have := List.find?_eq_none.mp he r.key (h.index.mem_iff.mpr (mem_map_of_mem hr))
  rw [decide_eq_true_eq, not_le] at this
  exact this

end Take

end CudaAllocator
