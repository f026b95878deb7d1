import Moodist.Sharding.Partition

/-!
# Placements as cuts of lists

What a placement does to the ranges of its dimension depends on their positions only through their
number: it cuts a list. Cutting commutes with mapping, so that a cut of a local tensor is the cut of
the positions it holds.
-/

namespace Sharding

open Foundation List Option

variable {β γ : Type*}

def Placement.dim? : Placement → Option ℕ
  | .replicate => none
  | .shard dim => some dim
  | .stridedShard dim _ => some dim

def Placement.Splits : Placement → Prop
  | .stridedShard _ splitFactor => 1 ≤ splitFactor
  | _ => True

/-- The part of a non-empty list that the member `idx` of a mesh dimension of size `groupSize`
keeps. There is none if the code would divide by zero. -/
def part (idx groupSize : ℕ) (l : List β) : Placement → Option (List β)
  | .replicate => some l
  | .shard _ =>
    if groupSize = 0 then none else some (chunk l ((l.length + groupSize - 1) / groupSize) idx)
  | .stridedShard _ splitFactor =>
    if splitFactor * groupSize = 0 then
      none
    else
      some ((everyNth (stridedNumChunks l.length splitFactor groupSize) groupSize
        (stridedNumChunks l.length splitFactor groupSize) idx).flatMap
          (chunk l (stridedChunkSize l.length splitFactor groupSize)))

/-- The part of a list that the member keeps. An empty list is not cut. -/
def cut (p : Placement) (idx groupSize : ℕ) (l : List β) : Option (List β) :=
  if l.isEmpty then some l else part idx groupSize l p

/-- The cuts that the placements make in the dimension `d`. -/
def cutDim (d : ℕ) : List (Placement × (ℕ × ℕ)) → List β → Option (List β)
  | [], l => some l
  | (p, idx, groupSize) :: rest, l =>
    if p.dim? = some d then (cut p idx groupSize l).bind (cutDim d rest) else cutDim d rest l

/-! ## Cuts of lists -/

variable {d : ℕ} {p : Placement}

theorem cutDim_cons_self (h : p.dim? = some d) (idx groupSize : ℕ)
    (ps : List (Placement × (ℕ × ℕ))) (l : List β) :
    cutDim d ((p, idx, groupSize) :: ps) l = (cut p idx groupSize l).bind (cutDim d ps) :=
  if_pos h

theorem cutDim_cons_ne (h : p.dim? ≠ some d) (idx groupSize : ℕ) (ps : List (Placement × (ℕ × ℕ)))
    (l : List β) : cutDim d ((p, idx, groupSize) :: ps) l = cutDim d ps l :=
  if_neg h

theorem chunk_map (f : β → γ) (l : List β) (k c : ℕ) :
    chunk (l.map f) k c = (chunk l k c).map f := by
  simp only [chunk, map_drop, map_take]

theorem part_map (f : β → γ) (idx groupSize : ℕ) (l : List β) (p : Placement) :
    part idx groupSize (l.map f) p = (part idx groupSize l p).map (map f) := by
  cases p with
  | replicate => rfl
  | shard dim =>
    rw [part, part, length_map, chunk_map]
    split <;> rfl
  | stridedShard dim splitFactor =>
    rw [part, part, length_map]
    split
    · rfl
    · simp only [map_some, map_flatMap, ← chunk_map]

theorem cut_map (f : β → γ) (p : Placement) (idx groupSize : ℕ) (l : List β) :
    cut p idx groupSize (l.map f) = (cut p idx groupSize l).map (map f) := by
  have hempty : (l.map f).isEmpty = l.isEmpty := by cases l <;> rfl
  rw [cut, cut, hempty, part_map]
  split <;> rfl

theorem cutDim_map (f : β → γ) (d : ℕ) (ps : List (Placement × (ℕ × ℕ))) (l : List β) :
    cutDim d ps (l.map f) = (cutDim d ps l).map (map f) := by
  induction ps generalizing l with
  | nil => rfl
  | cons q ps ih =>
    obtain ⟨p, idx, groupSize⟩ := q
    rw [cutDim, cutDim]
    split
    · rw [cut_map]
      cases cut p idx groupSize l with
      | none => rfl
      | some l' => exact ih l'
    · exact ih l

variable {idx groupSize : ℕ} {l l' : List β}

theorem part_sublist (h : part idx groupSize l p = some l') : l'.Sublist l := by
  cases p with
  | replicate =>
    cases h
    exact Sublist.refl _
  | shard dim =>
    rw [part, ite_none_left_eq_some] at h
    obtain rfl := some.inj h.2
    exact chunk_sublist _ _ _
  | stridedShard dim splitFactor =>
    rw [part, ite_none_left_eq_some] at h
    obtain rfl := some.inj h.2
    have hpos : 0 < groupSize := Nat.pos_of_ne_zero (right_ne_zero_of_mul h.1)
    exact (flatMap_everyNth_sublist _ _ _ hpos _ _).trans (drop_sublist _ _)

theorem cut_sublist (h : cut p idx groupSize l = some l') : l'.Sublist l := by
  rw [cut] at h
  split at h
  · cases h
    exact Sublist.refl _
  · exact part_sublist h

variable {ps : List (Placement × (ℕ × ℕ))} {ranges : List Range}

theorem cutDim_sublist (h : cutDim d ps l = some l') : l'.Sublist l := by
  induction ps generalizing l with
  | nil =>
    cases h
    exact Sublist.refl _
  | cons q ps ih =>
    obtain ⟨p, idx, groupSize⟩ := q
    rw [cutDim] at h
    split at h
    · obtain ⟨l₁, hl₁, hrest⟩ := bind_eq_some_iff.mp h
      exact (ih hrest).trans (cut_sublist hl₁)
    · exact ih h

theorem cutDim_of_ne (h : ∀ q ∈ ps, q.1.dim? ≠ some d) (l : List β) : cutDim d ps l = some l := by
  induction ps with
  | nil => rfl
  | cons q ps ih =>
    obtain ⟨p, idx, groupSize⟩ := q
    rw [cutDim, if_neg (h _ mem_cons_self)]
    exact ih fun q hq => h q (mem_cons_of_mem _ hq)

/-- The only member of a mesh dimension keeps everything. -/
theorem cut_one (hp : p.Splits) (l : List β) : cut p 0 1 l = some l := by
  rw [cut]
  split
  · rfl
  · next hne =>
    cases p with
    | replicate => rfl
    | shard dim =>
      rw [part, if_neg one_ne_zero]
      simp [chunk]
    | stridedShard dim splitFactor =>
      have hsplit : splitFactor * 1 ≠ 0 := by
        rw [Nat.mul_one]
        exact Nat.one_le_iff_ne_zero.mp hp
      have hlen : 0 < l.length := length_pos_of_ne_nil (mt isEmpty_iff.mpr hne)
      have hk : 0 < stridedChunkSize l.length splitFactor 1 :=
        ceilDiv_pos hlen (Nat.pos_of_ne_zero hsplit)
      have hcover : l.length ≤ stridedNumChunks l.length splitFactor 1 *
          stridedChunkSize l.length splitFactor 1 := by
        rw [Nat.mul_comm]
        exact le_mul_ceilDiv _ hk
      rw [part, if_neg hsplit, flatMap_everyNth_one hcover (Nat.zero_add _), Nat.zero_mul,
        drop_zero]

/-- Two members of a mesh dimension cut a list of one or two elements one by one. -/
theorem cut_two (hp : p.Splits) (hd : p.dim? = some d) (x y : β) :
    cut p 0 2 [x] = some [x] ∧ cut p 1 2 [x] = some [] ∧ cut p 0 2 [x, y] = some [x] ∧
      cut p 1 2 [x, y] = some [y] := by
  cases p with
  | replicate => cases hd
  | shard dim => simp [cut, part, chunk]
  | stridedShard dim splitFactor =>
    have hsplit : 1 ≤ splitFactor := hp
    have hv : splitFactor * 2 ≠ 0 := by omega
    have hchunk : ∀ n, 1 ≤ n → n ≤ 2 → stridedChunkSize n splitFactor 2 = 1 := by
      intro n h₁ h₂
      rw [stridedChunkSize, Nat.div_eq_iff (by omega)]
      omega
    have hnum : ∀ n, 1 ≤ n → n ≤ 2 → stridedNumChunks n splitFactor 2 = n := by
      intro n h₁ h₂
      rw [stridedNumChunks, hchunk n h₁ h₂, Nat.add_sub_cancel, Nat.div_one]
    have hone := hchunk 1 le_rfl one_le_two
    have htwo := hchunk 2 one_le_two le_rfl
    have hone' := hnum 1 le_rfl one_le_two
    have htwo' := hnum 2 one_le_two le_rfl
    simp [cut, part, hv, hone, htwo, hone', htwo', everyNth, chunk]

theorem cut_ne_none (hp : p.Splits) (hg : 0 < groupSize) (idx : ℕ) (l : List β) :
    cut p idx groupSize l ≠ none := by
  rw [cut]
  split
  · simp
  · cases p with
    | replicate => simp [part]
    | shard dim => simp [part, hg.ne']
    | stridedShard dim splitFactor =>
      have hv : splitFactor * groupSize ≠ 0 := (Nat.mul_pos hp hg).ne'
      simp [part, hg.ne', Nat.one_le_iff_ne_zero.mp hp]

theorem cutDim_ne_none (h : ∀ q ∈ ps, q.1.Splits ∧ 0 < q.2.2) (d : ℕ) (l : List β) :
    cutDim d ps l ≠ none := by
  induction ps generalizing l with
  | nil => simp [cutDim]
  | cons q ps ih =>
    obtain ⟨p, idx, groupSize⟩ := q
    obtain ⟨⟨hp, hg⟩, hps⟩ := forall_mem_cons.mp h
    by_cases hd : p.dim? = some d
    · obtain ⟨l', hl'⟩ := Option.ne_none_iff_exists'.mp (cut_ne_none hp hg idx l)
      rw [cutDim_cons_self hd, hl', bind_some]
      exact ih hps l'
    · rw [cutDim_cons_ne hd]
      exact ih hps l

/-- Mesh dimensions with one member cut nothing off. -/
theorem cutDim_ones_append (h : ∀ q ∈ ps, q.1.Splits ∧ q.2 = (0, 1)) (d : ℕ)
    (qs : List (Placement × (ℕ × ℕ))) (l : List β) : cutDim d (ps ++ qs) l = cutDim d qs l := by
  induction ps with
  | nil => rfl
  | cons q ps ih =>
    obtain ⟨p, idx, groupSize⟩ := q
    obtain ⟨⟨hp, hq⟩, hps⟩ := forall_mem_cons.mp h
    obtain ⟨rfl, rfl⟩ := Prod.mk.inj hq
    rw [cons_append]
    by_cases hd : p.dim? = some d
    · rw [cutDim_cons_self hd, cut_one hp, bind_some]
      exact ih hps
    · rw [cutDim_cons_ne hd]
      exact ih hps

/-! ## The placement loop -/

theorem cut_positions (hpos : totalSize ranges ≠ 0) :
    cut p idx groupSize (positions ranges) = part idx groupSize (positions ranges) p := by
  rw [cut, if_neg]
  rw [isEmpty_iff_length_eq_zero, length_positions]
  exact hpos

theorem cut_positions_zero (hzero : totalSize ranges = 0) :
    cut p idx groupSize (positions ranges) = some (positions ranges) := by
  rw [cut, if_pos]
  rw [isEmpty_iff_length_eq_zero, length_positions]
  exact hzero

def CutsRanges (p : Placement) (idx groupSize : ℕ)
    (f : List Range → Except ShardingError (List Range)) : Prop :=
  ∀ current, totalSize current ≠ 0 →
    ((∃ err, f current = .error err) ∧ cut p idx groupSize (positions current) = none) ∨
    ∃ ranges, f current = .ok ranges ∧ ranges ≠ [] ∧
      cut p idx groupSize (positions current) = some (positions ranges)

theorem cutsRanges_applyShard (dim idx groupSize : ℕ) :
    CutsRanges (.shard dim) idx groupSize fun current => applyShard current groupSize idx := by
  intro current hpos
  rw [cut_positions hpos, part]
  by_cases hg : groupSize = 0
  · left
    refine ⟨⟨.zeroDivisionError, ?_⟩, if_pos hg⟩
    simp only [applyShard, regularShardRanges, if_pos hg]
    rfl
  · right
    obtain ⟨ranges, hrun, hne, hranges⟩ :
        ∃ ranges, applyShard current groupSize idx = .ok ranges ∧ ranges ≠ [] ∧ _ :=
      applyShard_spec (Nat.pos_of_ne_zero hg) idx
    exact ⟨ranges, hrun, hne, by rw [if_neg hg, length_positions, hranges]⟩

theorem cutsRanges_applyStrided (dim splitFactor idx groupSize : ℕ) :
    CutsRanges (.stridedShard dim splitFactor) idx groupSize fun current =>
      applyStrided current splitFactor groupSize idx := by
  intro current hpos
  rw [cut_positions hpos, part]
  by_cases hv : splitFactor * groupSize = 0
  · left
    refine ⟨⟨.zeroDivisionError, ?_⟩, if_pos hv⟩
    simp only [applyStrided, stridedShardRanges, if_pos hv]
    rfl
  · right
    obtain ⟨hs, hg⟩ := Nat.mul_ne_zero_iff.mp hv
    obtain ⟨ranges, hrun, hne, hranges⟩ := applyStrided_spec (Nat.pos_of_ne_zero hs)
      (Nat.pos_of_ne_zero hg) (Nat.pos_of_ne_zero hpos) idx
    exact ⟨ranges, hrun, hne, by rw [if_neg hv, length_positions, hranges]⟩

/-- The ranges of `R'` are those of `R`, cut in the dimension of the placement. -/
structure CutRanges (p : Placement) (idx groupSize : ℕ) (R R' : List (List Range)) : Prop where
  length_eq : R'.length = R.length
  dim_lt : ∀ dim, p.dim? = some dim → dim < R.length
  ranges : ∀ d rs, R[d]? = some rs → ∃ rs', R'[d]? = some rs' ∧ (Ranges rs → Ranges rs') ∧
    (if p.dim? = some d then cut p idx groupSize (positions rs) else some (positions rs)) =
      some (positions rs')

def CutsOrFails (p : Placement) (idx groupSize : ℕ) (R : List (List Range))
    (result : Except ShardingError (List (List Range))) : Prop :=
  ((∃ err, result = .error err) ∧ ∃ dim, p.dim? = some dim ∧
      ∀ rs, R[dim]? = some rs → cut p idx groupSize (positions rs) = none) ∨
    ∃ R', result = .ok R' ∧ CutRanges p idx groupSize R R'

theorem shardDim_cut {dim : ℕ} (hp : p.dim? = some dim)
    {f : List Range → Except ShardingError (List Range)} (hf : CutsRanges p idx groupSize f)
    (R : List (List Range)) : CutsOrFails p idx groupSize R (shardDim R dim f) := by
  have hdim_lt : dim < R.length → ∀ dim', p.dim? = some dim' → dim' < R.length := by
    intro hdim dim' hdim'
    rwa [← some.inj (hp.symm.trans hdim')]
  have hother : ∀ d, dim ≠ d → ¬ p.dim? = some d := by
    intro d hd heq
    exact hd (some.inj (hp.symm.trans heq))
  cases hget : R[dim]? with
  | none =>
    left
    rw [shardDim, hget]
    refine ⟨⟨_, rfl⟩, dim, hp, fun rs hrs => ?_⟩
    rw [hget] at hrs
    cases hrs
  | some current =>
    have hdim : dim < R.length := (List.getElem?_eq_some_iff.mp hget).1
    -- a dimension with nothing left is not cut any further
    by_cases hzero : totalSize current = 0
    · right
      refine ⟨R, by simp only [shardDim, hget, if_pos hzero], rfl, hdim_lt hdim, fun d rs hrs => ?_⟩
      refine ⟨rs, hrs, id, ?_⟩
      split
      · next hd =>
        obtain rfl : dim = d := some.inj (hp.symm.trans hd)
        obtain rfl : current = rs := some.inj (hget.symm.trans hrs)
        exact cut_positions_zero hzero
      · rfl
    · rcases hf current hzero with ⟨⟨err, herr⟩, hnone⟩ | ⟨ranges, hrun, hne, hcut⟩
      · left
        refine ⟨⟨err, by simp only [shardDim, hget, if_neg hzero, herr]; rfl⟩, dim, hp, ?_⟩
        intro rs hrs
        obtain rfl : current = rs := some.inj (hget.symm.trans hrs)
        exact hnone
      · right
        refine ⟨R.set dim ranges, by simp only [shardDim, hget, if_neg hzero, hrun]; rfl,
          by simp, hdim_lt hdim, fun d rs hrs => ?_⟩
        by_cases hd : dim = d
        · subst hd
          obtain rfl : current = rs := some.inj (hget.symm.trans hrs)
          refine ⟨ranges, by simp [hdim], fun hR => ⟨hne, hR.2.sublist (cut_sublist hcut)⟩, ?_⟩
          rw [if_pos hp, hcut]
        · refine ⟨rs, by rwa [List.getElem?_set_ne hd], id, ?_⟩
          rw [if_neg (hother d hd)]

theorem applyPlacement_cut (p : Placement) (idx groupSize : ℕ) (R : List (List Range)) :
    CutsOrFails p idx groupSize R (applyPlacement R p idx groupSize) := by
  cases p with
  | replicate =>
    right
    refine ⟨R, rfl, rfl, fun dim hdim => ?_, fun d rs hrs => ⟨rs, hrs, id, ?_⟩⟩
    · cases hdim
    · rw [if_neg]
      intro hd
      cases hd
  | shard dim => exact shardDim_cut rfl (cutsRanges_applyShard dim idx groupSize) R
  | stridedShard dim splitFactor =>
    exact shardDim_cut rfl (cutsRanges_applyStrided dim splitFactor idx groupSize) R

/-- The ranges of `R'` are those of `R`, cut by the placements in every dimension. -/
structure CutAll (ps : List (Placement × (ℕ × ℕ))) (R R' : List (List Range)) : Prop where
  length_eq : R'.length = R.length
  dim_lt : ∀ q ∈ ps, ∀ dim, q.1.dim? = some dim → dim < R.length
  ranges : ∀ d rs, R[d]? = some rs → ∃ rs', R'[d]? = some rs' ∧ (Ranges rs → Ranges rs') ∧
    cutDim d ps (positions rs) = some (positions rs')

theorem CutAll.cons {p : Placement} {idx groupSize : ℕ} {ps : List (Placement × (ℕ × ℕ))}
    {R R₁ R₂ : List (List Range)} (h₁ : CutRanges p idx groupSize R R₁) (h₂ : CutAll ps R₁ R₂) :
    CutAll ((p, idx, groupSize) :: ps) R R₂ := by
  refine ⟨h₂.length_eq.trans h₁.length_eq, ?_, fun d rs hrs => ?_⟩
  · intro q hq dim hdim
    rcases mem_cons.mp hq with rfl | hq
    · exact h₁.dim_lt dim hdim
    · rw [← h₁.length_eq]
      exact h₂.dim_lt q hq dim hdim
  · obtain ⟨rs₁, hrs₁, hR₁, hcut₁⟩ := h₁.ranges d rs hrs
    obtain ⟨rs₂, hrs₂, hR₂, hcut₂⟩ := h₂.ranges d rs₁ hrs₁
    refine ⟨rs₂, hrs₂, hR₂ ∘ hR₁, ?_⟩
    rw [cutDim]
    split at hcut₁
    · next hd => rw [if_pos hd, hcut₁, bind_some, hcut₂]
    · next hd => rw [if_neg hd, some.inj hcut₁, hcut₂]

variable {R : List (List Range)} {shape : List ℕ}

/-- A run of the placement loop cuts every dimension. -/
theorem cutAll_of_applyPlacements {R' : List (List Range)} (h : applyPlacements R ps = .ok R') :
    CutAll ps R R' := by
  induction ps generalizing R with
  | nil =>
    cases h
    exact ⟨rfl, by simp, fun d rs hrs => ⟨rs, hrs, id, rfl⟩⟩
  | cons q ps ih =>
    obtain ⟨p, idx, groupSize⟩ := q
    rw [applyPlacements] at h
    rcases applyPlacement_cut p idx groupSize R with ⟨⟨err, herr⟩, -⟩ | ⟨R₁, hrun, hcut⟩
    · rw [herr] at h
      cases h
    · rw [hrun] at h
      exact CutAll.cons hcut (ih h)

/-- The placement loop runs through if every dimension can be cut. -/
theorem exists_applyPlacements (hdim : ∀ q ∈ ps, ∀ dim, q.1.dim? = some dim → dim < R.length)
    (hcut : ∀ d rs, R[d]? = some rs → cutDim d ps (positions rs) ≠ none) :
    ∃ R', applyPlacements R ps = .ok R' := by
  induction ps generalizing R with
  | nil => exact ⟨R, rfl⟩
  | cons q ps ih =>
    obtain ⟨p, idx, groupSize⟩ := q
    rcases applyPlacement_cut p idx groupSize R with ⟨-, dim, hp, hnone⟩ | ⟨R₁, hrun, hcut₁⟩
    · have hlt : dim < R.length := hdim _ mem_cons_self dim hp
      have hget : R[dim]? = some R[dim] := List.getElem?_eq_getElem hlt
      refine absurd ?_ (hcut dim R[dim] hget)
      rw [cutDim, if_pos hp, hnone R[dim] hget, bind_none]
    · have hrest : ∀ d rs₁, R₁[d]? = some rs₁ → cutDim d ps (positions rs₁) ≠ none := by
        intro d rs₁ hrs₁
        have hlt : d < R.length := hcut₁.length_eq ▸ (List.getElem?_eq_some_iff.mp hrs₁).1
        obtain ⟨rs', hrs', -, hcut'⟩ := hcut₁.ranges d R[d] (List.getElem?_eq_getElem hlt)
        obtain rfl : rs₁ = rs' := some.inj (hrs₁.symm.trans hrs')
        have hall := hcut d R[d] (List.getElem?_eq_getElem hlt)
        rw [cutDim] at hall
        split at hcut'
        · next hd => rwa [if_pos hd, hcut', bind_some] at hall
        · next hd => rwa [if_neg hd, some.inj hcut'] at hall
      obtain ⟨R₂, hR₂⟩ := ih (R := R₁) (by
        intro q hq dim hd
        rw [hcut₁.length_eq]
        exact hdim q (mem_cons_of_mem _ hq) dim hd) hrest
      exact ⟨R₂, by rw [applyPlacements, hrun]; exact hR₂⟩

theorem exists_applyPlacements_initial
    (hdim : ∀ q ∈ ps, ∀ dim, q.1.dim? = some dim → dim < shape.length)
    (h : ∀ q ∈ ps, q.1.Splits ∧ 0 < q.2.2) :
    ∃ R, applyPlacements (initialRanges shape) ps = .ok R := by
  refine exists_applyPlacements ?_ fun d rs _ => cutDim_ne_none h d _
  rwa [initialRanges, length_map]

/-- What a run of the placement loop from the whole tensor ends with. -/
theorem applyPlacements_initial (h : applyPlacements (initialRanges shape) ps = .ok R) :
    R.length = shape.length ∧ (∀ rs ∈ R, Ranges rs) ∧
      (∀ q ∈ ps, ∀ dim, q.1.dim? = some dim → dim < shape.length) ∧
      ∀ d n : ℕ, shape[d]? = some n →
        ∃ rs, R[d]? = some rs ∧ cutDim d ps (range n) = some (positions rs) := by
  have hcut := cutAll_of_applyPlacements h
  have hlen : (initialRanges shape).length = shape.length := length_map _
  have hget : ∀ d n : ℕ, shape[d]? = some n →
      (initialRanges shape)[d]? = some ([⟨0, n⟩] : List Range) := by
    intro d n hn
    rw [initialRanges, List.getElem?_map, hn]
    rfl
  have hrun : ∀ d n : ℕ, shape[d]? = some n → ∃ rs, R[d]? = some rs ∧ Ranges rs ∧
      cutDim d ps (range n) = some (positions rs) := by
    intro d n hn
    obtain ⟨rs, hrs, hranges, hrun⟩ := hcut.ranges d _ (hget d n hn)
    refine ⟨rs, hrs, hranges ?_, ?_⟩
    · exact ranges_initial shape _ (mem_of_getElem? (hget d n hn))
    · rw [range_eq_range', ← hrun]
      simp [Range.elems]
  have hshape : R.length = shape.length := hcut.length_eq.trans hlen
  refine ⟨hshape, fun rs hrs => ?_, ?_, fun d n hn => ?_⟩
  · obtain ⟨d, hd, rfl⟩ := getElem_of_mem hrs
    have hn : shape[d]? = some shape[d] := List.getElem?_eq_getElem _
    obtain ⟨rs, hrs, hranges, -⟩ := hrun d _ hn
    rw [List.getElem?_eq_getElem hd] at hrs
    rwa [some.inj hrs]
  · rw [← hlen]
    exact hcut.dim_lt
  · obtain ⟨rs, hrs, -, hcut⟩ := hrun d n hn
    exact ⟨rs, hrs, hcut⟩

end Sharding
