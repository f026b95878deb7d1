import Moodist.Sharding.Ranges

/-!
# The shards of all owners partition the tensor

Each placement deals the positions of one dimension out to the members of its mesh dimension
(`applyPlacement_owned`); going through the placements one at a time, every element of the tensor
ends with exactly one owner per choice of the replicated coordinates
(`applyPlacements_existsUnique`).
-/

namespace Sharding

open Foundation List Forall₂

def Placement.WellFormed (ndim : ℕ) : Placement → Prop
  | .replicate => True
  | .shard dim => dim < ndim
  | .stridedShard dim splitFactor => dim < ndim ∧ 1 ≤ splitFactor

/-- The coordinates of a member of a mesh with the given group sizes. -/
def ValidCoord (coord sizes : List ℕ) : Prop := Forall₂ (· < ·) coord sizes

def AgreeOnReplicate (placements : List Placement) (coord fixed : List ℕ) : Prop :=
  ∀ i : ℕ, placements[i]? = some .replicate → coord[i]? = fixed[i]?

/-- How many of the chunks hold the global element `x`. -/
def globalCount (chunks : List ShardInfo) (x : List ℕ) : ℕ :=
  chunks.countP fun c => inBox c.globalOffset c.shape x

/-- How many of the chunks hold the local element `y`. -/
def localCount (chunks : List ShardInfo) (y : List ℕ) : ℕ :=
  chunks.countP fun c => inBox c.localOffset c.shape y

/-- The global element at local element `y` of a chunk. -/
def ShardInfo.globalOf (c : ShardInfo) (y : List ℕ) : List ℕ :=
  zipWith (· + ·) c.globalOffset (zipWith (· - ·) y c.localOffset)

/-- The global position at local position `y`, one list of positions per dimension. -/
def globalAt (dimRanges : List (List Range)) (y : List ℕ) : List ℕ :=
  zipWith (fun ranges i => (positions ranges).getD i 0) dimRanges y

/-- The element `x` is among the positions of every dimension. -/
def Owned (dimRanges : List (List Range)) (x : List ℕ) : Prop :=
  Forall₂ (fun i ranges => i ∈ positions ranges) x dimRanges

/-- The positions of every dimension come from those of `R`, in order. -/
def Shrinks (R' R : List (List Range)) : Prop :=
  Forall₂ (fun rs' rs => (positions rs').Sublist (positions rs)) R' R

theorem Shrinks.refl (R : List (List Range)) : Shrinks R R :=
  forall₂_same.mpr fun _ _ => Sublist.refl _

variable {R : List (List Range)}

theorem Shrinks.trans {R₂ R₁ : List (List Range)} (h₂ : Shrinks R₂ R₁) (h₁ : Shrinks R₁ R) :
    Shrinks R₂ R := by
  unfold Shrinks at h₁ h₂ ⊢
  induction h₂ generalizing R with
  | nil => exact h₁
  | cons hs _ ih =>
    cases h₁ with
    | cons hs₁ h₁ => exact .cons (hs.trans hs₁) (ih h₁)

/-- What every list of ranges in the placement loop keeps: it is not empty and visits
no position twice. -/
def Ranges (ranges : List Range) : Prop := ranges ≠ [] ∧ (positions ranges).Nodup

/-! ## One placement -/

/-- `f` deals the positions of a non-empty dimension out to `n` members. -/
def Deals (f : ℕ → List Range → Except ShardingError (List Range)) (n : ℕ) : Prop :=
  ∀ current, 0 < totalSize current → ∃ part, SplitsInto (positions current) n part ∧
    ∀ idx, ∃ ranges, f idx current = .ok ranges ∧ ranges ≠ [] ∧ positions ranges = part idx

variable {n : ℕ}

theorem deals_applyShard (hn : 0 < n) :
    Deals (fun idx current => applyShard current n idx) n := fun _ hpos =>
  ⟨_, splitsInto_applyShard hn hpos, fun idx => applyShard_spec hn idx⟩

theorem deals_applyStrided {splitFactor : ℕ} (hs : 0 < splitFactor) (hn : 0 < n) :
    Deals (fun idx current => applyStrided current splitFactor n idx) n := fun _ hpos =>
  ⟨_, splitsInto_applyStrided hs hn hpos, fun idx => applyStrided_spec hs hn hpos idx⟩

variable {dim : ℕ}

theorem shrinks_set {current ranges : List Range} (hget : R[dim]? = some current)
    (hsub : (positions ranges).Sublist (positions current)) : Shrinks (R.set dim ranges) R := by
  rw [Shrinks, forall₂_iff_get]
  refine ⟨by simp, fun i h₁ h₂ => ?_⟩
  simp only [get_eq_getElem, getElem_set]
  split
  · next heq =>
    subst heq
    have hlt : dim < R.length := h₂
    rw [List.getElem?_eq_getElem hlt, Option.some.injEq] at hget
    rwa [hget]
  · exact Sublist.refl _

variable {x : List ℕ} {f : ℕ → List Range → Except ShardingError (List Range)} {idx : ℕ}

theorem owned_set_iff {current : List Range} (ranges : List Range) (hget : R[dim]? = some current)
    (hx : Owned R x) :
    Owned (R.set dim ranges) x ↔ ∀ i, x[dim]? = some i → i ∈ positions ranges := by
  rw [Owned, forall₂_iff_get]
  rw [Owned, forall₂_iff_get] at hx
  have hdim : dim < R.length := (List.getElem?_eq_some_iff.mp hget).1
  obtain ⟨hlen, hx⟩ := hx
  constructor
  · rintro ⟨_, h⟩ i hi
    obtain ⟨hlt, rfl⟩ := List.getElem?_eq_some_iff.mp hi
    have := h dim hlt (by simpa using hdim)
    simpa using this
  · intro h
    refine ⟨by simpa using hlen, fun i h₁ h₂ => ?_⟩
    simp only [get_eq_getElem, getElem_set]
    split
    · next heq =>
      subst heq
      exact h _ (List.getElem?_eq_getElem h₁)
    · exact hx i h₁ (by simpa using h₂)

/-- What one member's ranges are after a placement that deals dimension `dim` out. -/
theorem shardDim_spec
    (hf : Deals f n) (hdim : dim < R.length) (hR : ∀ rs ∈ R, Ranges rs) (hidx : idx < n) :
    ∃ R', shardDim R dim (f idx) = .ok R' ∧ (∀ rs ∈ R', Ranges rs) ∧
      Shrinks R' R := by
  have hget : R[dim]? = some R[dim] := List.getElem?_eq_getElem hdim
  by_cases hzero : totalSize R[dim] = 0
  · exact ⟨R, by simp [shardDim, hget, hzero], hR, Shrinks.refl R⟩
  · obtain ⟨part, hsplit, hpart⟩ := hf R[dim] (Nat.pos_of_ne_zero hzero)
    obtain ⟨ranges, hok, hne, hpos⟩ := hpart idx
    have hsub : (positions ranges).Sublist (positions R[dim]) := by
      rw [hpos]
      exact hsplit.sublist idx hidx
    refine ⟨R.set dim ranges, by simp [shardDim, hget, hzero, hok], ?_, ?_⟩
    · intro rs hrs
      rcases mem_or_eq_of_mem_set hrs with hmem | rfl
      · exact hR rs hmem
      · exact ⟨hne, hsub.nodup (hR _ (getElem_mem hdim)).2⟩
    · exact shrinks_set hget hsub

/-- A placement that deals dimension `dim` out gives `x` to exactly one member. -/
theorem shardDim_existsUnique
    (hf : Deals f n) (hdim : dim < R.length) (hR : ∀ rs ∈ R, Ranges rs) (hx : Owned R x) :
    ∃! idx, idx < n ∧ ∃ R', shardDim R dim (f idx) = .ok R' ∧ Owned R' x := by
  have hget : R[dim]? = some R[dim] := List.getElem?_eq_getElem hdim
  have hdimx : dim < x.length := by
    rw [length_eq hx]
    exact hdim
  have hxdim : x[dim] ∈ positions R[dim] := (forall₂_iff_get.mp hx).2 dim hdimx hdim
  have hpos : 0 < totalSize R[dim] := by
    rw [← length_positions]
    exact length_pos_of_mem hxdim
  obtain ⟨part, hsplit, hpart⟩ := hf R[dim] hpos
  have hstep : ∀ idx, (∃ R', shardDim R dim (f idx) = .ok R' ∧ Owned R' x) ↔
      x[dim] ∈ part idx := by
    intro idx
    obtain ⟨ranges, hok, _, hranges⟩ := hpart idx
    have hset : shardDim R dim (f idx) = .ok (R.set dim ranges) := by
      simp [shardDim, hget, Nat.pos_iff_ne_zero.mp hpos, hok]
    have howned := owned_set_iff ranges hget hx
    rw [List.getElem?_eq_getElem hdimx, hranges] at howned
    constructor
    · rintro ⟨R', hR', hown⟩
      rw [hset, Except.ok.injEq] at hR'
      subst hR'
      exact howned.mp hown _ rfl
    · intro hmem
      refine ⟨_, hset, howned.mpr fun i hi => ?_⟩
      rw [Option.some.injEq] at hi
      rwa [← hi]
  simp only [hstep]
  exact hsplit.existsUnique (hR _ (getElem_mem hdim)).2 _ hxdim

variable {p : Placement}

variable (hp : p.WellFormed R.length) (hn : 0 < n) (hR : ∀ rs ∈ R, Ranges rs)

include hp hn hR

/-- After one placement every member's ranges keep the invariant and shrink. -/
theorem applyPlacement_spec (hidx : idx < n) :
    ∃ R', applyPlacement R p idx n = .ok R' ∧ (∀ rs ∈ R', Ranges rs) ∧
      Shrinks R' R := by
  cases p with
  | replicate =>
    exact ⟨R, rfl, hR, Shrinks.refl R⟩
  | shard dim => exact shardDim_spec (deals_applyShard hn) hp hR hidx
  | stridedShard dim splitFactor =>
    exact shardDim_spec (deals_applyStrided hp.2 hn) hp.1 hR hidx

/-- A placement that is not replicated gives `x` to exactly one member. -/
theorem applyPlacement_existsUnique (hx : Owned R x) (hrep : p ≠ .replicate) :
    ∃! idx, idx < n ∧ ∃ R', applyPlacement R p idx n = .ok R' ∧ Owned R' x := by
  cases p with
  | replicate => exact absurd rfl hrep
  | shard dim => exact shardDim_existsUnique (deals_applyShard hn) hp hR hx
  | stridedShard dim splitFactor =>
    exact shardDim_existsUnique (deals_applyStrided hp.2 hn) hp.1 hR hx

omit hp hn hR

/-- Ownership only shrinks along the placements. -/
theorem Owned.of_sublist {R' : List (List Range)} (hx : Owned R' x) (hsub : Shrinks R' R) :
    Owned R x := by
  unfold Owned at hx ⊢
  unfold Shrinks at hsub
  induction hx generalizing R with
  | nil => cases hsub; exact .nil
  | cons hhead _ ih =>
    cases hsub with
    | cons hs hsub => exact .cons (hs.subset hhead) (ih hsub)

/-! ## The placement loop -/

variable {placements : List Placement} {coord sizes : List ℕ}

theorem applyPlacements_spec (hlen : placements.length = sizes.length)
    (hp : ∀ p ∈ placements, p.WellFormed R.length) (hR : ∀ rs ∈ R, Ranges rs)
    (hcoord : ValidCoord coord sizes) :
    ∃ R', applyPlacements R (placements.zip (coord.zip sizes)) = .ok R' ∧
      (∀ rs ∈ R', Ranges rs) ∧
      Shrinks R' R := by
  unfold ValidCoord at hcoord
  induction hcoord generalizing R placements with
  | nil =>
    have hnil : placements = [] := eq_nil_of_length_eq_zero hlen
    subst hnil
    exact ⟨R, rfl, hR, Shrinks.refl R⟩
  | @cons idx n coord sizes hidx _ ih =>
    cases placements with
    | nil => simp at hlen
    | cons p placements =>
      have hn : 0 < n := Nat.zero_lt_of_lt hidx
      obtain ⟨R₁, hok, hR₁, hsub⟩ := applyPlacement_spec (hp p (by simp)) hn hR hidx
      have hlenR : R₁.length = R.length := length_eq hsub
      obtain ⟨R₂, hok₂, hR₂, hsub₂⟩ := ih (R := R₁) (by simpa using hlen)
        (fun q hq => by rw [hlenR]; exact hp q (by simp [hq])) hR₁
      refine ⟨R₂, ?_, hR₂, ?_⟩
      · simp only [zip_cons_cons, applyPlacements, hok]
        exact hok₂
      · exact hsub₂.trans hsub

theorem agreeOnReplicate_cons {c f : ℕ} {coord fixed : List ℕ} :
    AgreeOnReplicate (p :: placements) (c :: coord) (f :: fixed) ↔
      (p = .replicate → c = f) ∧ AgreeOnReplicate placements coord fixed := by
  constructor
  · intro h
    refine ⟨fun hp => ?_, fun i hi => ?_⟩
    · simpa using h 0 (by simp [hp])
    · simpa using h (i + 1) (by simpa using hi)
  · rintro ⟨hhead, htail⟩ i hi
    cases i with
    | zero => simpa using hhead (by simpa using hi)
    | succ i => simpa using htail i (by simpa using hi)

/-- One member index fits the head placement: the fixed one if it is replicated, else
the one that is dealt `x`. -/
theorem applyPlacement_choice {fixed : ℕ} (hp : p.WellFormed R.length) (hn : 0 < n)
    (hfixed : fixed < n) (hR : ∀ rs ∈ R, Ranges rs) (hx : Owned R x) :
    ∃! idx, idx < n ∧ (p = .replicate → idx = fixed) ∧
      ∃ R', applyPlacement R p idx n = .ok R' ∧ Owned R' x := by
  by_cases hrep : p = .replicate
  · subst hrep
    exact ⟨fixed, ⟨hfixed, fun _ => rfl, R, rfl, hx⟩, fun idx h => h.2.1 rfl⟩
  · obtain ⟨idx, ⟨hidx, hown⟩, huniq⟩ := applyPlacement_existsUnique hp hn hR hx hrep
    refine ⟨idx, ⟨hidx, fun h => absurd h hrep, hown⟩, ?_⟩
    rintro idx' ⟨hidx', _, hown'⟩
    exact huniq idx' ⟨hidx', hown'⟩

/-- Along all placements, exactly one coordinate that agrees with `fixed` in the
replicated dimensions ends up owning `x`. -/
theorem applyPlacements_existsUnique {fixed sizes : List ℕ}
    (hlen : placements.length = sizes.length) (hp : ∀ p ∈ placements, p.WellFormed R.length)
    (hR : ∀ rs ∈ R, Ranges rs) (hfixed : ValidCoord fixed sizes) (hx : Owned R x) :
    ∃! coord, ValidCoord coord sizes ∧ AgreeOnReplicate placements coord fixed ∧
      ∃ R', applyPlacements R (placements.zip (coord.zip sizes)) = .ok R' ∧ Owned R' x := by
  unfold ValidCoord at hfixed
  induction hfixed generalizing R placements with
  | nil =>
    have hnil : placements = [] := eq_nil_of_length_eq_zero hlen
    subst hnil
    refine ⟨[], ⟨.nil, fun i hi => by simp at hi, R, rfl, hx⟩, ?_⟩
    rintro coord ⟨hcoord, _⟩
    cases hcoord
    rfl
  | @cons f n fixed sizes hf _ ih =>
    cases placements with
    | nil => simp at hlen
    | cons p placements =>
      have hn : 0 < n := Nat.zero_lt_of_lt hf
      have hwf := hp p (by simp)
      obtain ⟨idx, ⟨hidx, hrep, R₁, hok, hown⟩, huniq⟩ := applyPlacement_choice hwf hn hf hR hx
      obtain ⟨R₁', hok', hR₁, hsub⟩ := applyPlacement_spec hwf hn hR hidx
      rw [hok, Except.ok.injEq] at hok'
      subst hok'
      have hlenR : R₁.length = R.length := length_eq hsub
      have hp₁ : ∀ q ∈ placements, q.WellFormed R₁.length := fun q hq => by
        rw [hlenR]
        exact hp q (by simp [hq])
      obtain ⟨coord, ⟨hcoord, hagree, R₂, hok₂, hown₂⟩, huniq₂⟩ :=
        ih (by simpa using hlen) hp₁ hR₁ hown
      refine ⟨idx :: coord, ⟨.cons hidx hcoord, agreeOnReplicate_cons.2 ⟨hrep, hagree⟩,
        R₂, ?_, hown₂⟩, ?_⟩
      · simp only [zip_cons_cons, applyPlacements, hok]
        exact hok₂
      · rintro coord' ⟨hcoord', hagree', R', hrun, hown'⟩
        cases hcoord' with
        | @cons idx' _ coord' _ hidx' hcoord' =>
          obtain ⟨hrep', hagree'⟩ := agreeOnReplicate_cons.1 hagree'
          obtain ⟨S₁, hS₁, hRS₁, hsubS⟩ := applyPlacement_spec hwf hn hR hidx'
          simp only [zip_cons_cons, applyPlacements, hS₁] at hrun
          have hlenS : S₁.length = R.length := length_eq hsubS
          -- whoever owns `x` at the end owned it after the head placement
          obtain ⟨S₂, hS₂, _, hsubS₂⟩ := applyPlacements_spec (R := S₁)
            (by simpa using hlen) (fun q hq => by rw [hlenS]; exact hp q (by simp [hq]))
            hRS₁ hcoord'
          have hR' : R' = S₂ := by
            have heq := hrun.symm.trans hS₂
            rwa [Except.ok.injEq] at heq
          subst hR'
          have hhead : idx' = idx := huniq idx' ⟨hidx', hrep', S₁, hS₁, hown'.of_sublist hsubS₂⟩
          subst hhead
          rw [hok, Except.ok.injEq] at hS₁
          subst hS₁
          rw [huniq₂ coord' ⟨hcoord', hagree', R', hrun, hown'⟩]

/-! ## Chunks -/

theorem inBox_global_eq (combo : List (ℕ × Range)) (x : List ℕ) :
    inBox (chunkOf combo).globalOffset (chunkOf combo).shape x =
      allHold (x.map fun i r => decide (r.2.offset ≤ i) && decide (i < r.2.offset + r.2.size))
        combo := by
  induction combo generalizing x with
  | nil => cases x <;> rfl
  | cons r combo ih =>
    cases x with
    | nil => rfl
    | cons i x =>
      have h := ih x
      simp only [chunkOf] at h
      simp only [chunkOf, map_cons, inBox, allHold, h]

theorem inBox_local_eq (combo : List (ℕ × Range)) (y : List ℕ) :
    inBox (chunkOf combo).localOffset (chunkOf combo).shape y =
      allHold (y.map fun i r => decide (r.1 ≤ i) && decide (i < r.1 + r.2.size)) combo := by
  induction combo generalizing y with
  | nil => cases y <;> rfl
  | cons r combo ih =>
    cases y with
    | nil => rfl
    | cons i y =>
      have h := ih y
      simp only [chunkOf] at h
      simp only [chunkOf, map_cons, inBox, allHold, h]

theorem countP_global (rs : List Range) (k i : ℕ) :
    (withLocalOffsets k rs).countP
      (fun r => decide (r.2.offset ≤ i) && decide (i < r.2.offset + r.2.size)) =
      (positions rs).count i := by
  induction rs generalizing k with
  | nil => rfl
  | cons r rs ih =>
    rw [withLocalOffsets, countP_cons, ih, positions_cons, count_append, Nat.add_comm]
    congr 1
    rw [Range.elems, (nodup_range' (s := r.offset) (n := r.size)).count]
    simp

/-- A local position from `k` on lies in one of the ranges that start at `k`. -/
theorem countP_local (rs : List Range) (k i : ℕ) :
    (withLocalOffsets k rs).countP (fun r => decide (r.1 ≤ i) && decide (i < r.1 + r.2.size)) =
      if k ≤ i ∧ i < k + totalSize rs then 1 else 0 := by
  induction rs generalizing k with
  | nil =>
    have hno : ¬(k ≤ i ∧ i < k + totalSize []) := by
      simp [totalSize]
    simp [withLocalOffsets, hno]
  | cons r rs ih =>
    rw [withLocalOffsets, countP_cons, ih, totalSize_cons]
    by_cases hhead : k ≤ i ∧ i < k + r.size
    · have htail : ¬(k + r.size ≤ i ∧ i < k + r.size + totalSize rs) := by omega
      have hall : k ≤ i ∧ i < k + (r.size + totalSize rs) := by omega
      simp [hhead, htail, hall]
    · have hiff : (k + r.size ≤ i ∧ i < k + r.size + totalSize rs) ↔
          (k ≤ i ∧ i < k + (r.size + totalSize rs)) := by omega
      simp only [hiff]
      have hfalse : (decide (k ≤ i) && decide (i < k + r.size)) = false := by
        simpa using hhead
      simp [hfalse]

theorem globalCount_chunksOf (hlen : x.length = R.length) : globalCount (chunksOf R) x =
      (zipWith (fun i rs => (positions rs).count i) x R).prod := by
  rw [globalCount, chunksOf, countP_map]
  have hfun : ((fun c : ShardInfo => inBox c.globalOffset c.shape x) ∘ chunkOf) =
      allHold (x.map fun i r =>
        decide (r.2.offset ≤ i) && decide (i < r.2.offset + r.2.size)) :=
    funext fun combo => inBox_global_eq combo x
  rw [hfun, countP_product _ _ (by simpa using hlen)]
  rw [zipWith_map]
  congr 2
  funext i rs
  exact countP_global rs 0 i

variable {y shape : List ℕ} {rs : List Range} {c : ShardInfo}

theorem localCount_chunksOf (hlen : y.length = R.length) : localCount (chunksOf R) y =
      (zipWith (fun i rs => if i < totalSize rs then 1 else 0) y R).prod := by
  rw [localCount, chunksOf, countP_map]
  have hfun : ((fun c : ShardInfo => inBox c.localOffset c.shape y) ∘ chunkOf) =
      allHold (y.map fun i r => decide (r.1 ≤ i) && decide (i < r.1 + r.2.size)) :=
    funext fun combo => inBox_local_eq combo y
  rw [hfun, countP_product _ _ (by simpa using hlen)]
  rw [zipWith_map]
  congr 2
  funext i rs
  rw [countP_local]
  simp

/-- With no position visited twice, the chunks hold `x` once if it is owned, else never. -/
theorem globalCount_eq (hR : ∀ rs ∈ R, Ranges rs) (hlen : x.length = R.length) :
    globalCount (chunksOf R) x ≤ 1 ∧ (globalCount (chunksOf R) x = 1 ↔ Owned R x) := by
  rw [globalCount_chunksOf hlen]
  induction R generalizing x with
  | nil =>
    have hnil : x = [] := eq_nil_of_length_eq_zero hlen
    subst hnil
    exact ⟨le_rfl, fun _ => .nil, fun _ => rfl⟩
  | cons rs R ih =>
    cases x with
    | nil => simp at hlen
    | cons i x =>
      obtain ⟨hle, hiff⟩ := ih (fun q hq => hR q (by simp [hq])) (by simpa using hlen)
      rw [zipWith_cons_cons, prod_cons]
      have hcount := ((hR rs (by simp)).2).count (a := i)
      by_cases hmem : i ∈ positions rs
      · rw [hcount, if_pos hmem, one_mul]
        refine ⟨hle, hiff.trans ⟨fun h => .cons hmem h, fun h => ?_⟩⟩
        cases h with
        | cons _ h => exact h
      · rw [hcount, if_neg hmem, zero_mul]
        refine ⟨by omega, ⟨fun h => by omega, fun h => ?_⟩⟩
        cases h with
        | cons h _ => exact absurd h hmem

theorem localCount_eq_one (hy : Forall₂ (fun i rs => i < totalSize rs) y R) :
    localCount (chunksOf R) y = 1 := by
  rw [localCount_chunksOf (length_eq hy)]
  induction hy with
  | nil => rfl
  | cons hi _ ih => rw [zipWith_cons_cons, prod_cons, ih, if_pos hi]

/-- What a range knows about its place: it ends inside the local view, and its part of
the local view is its own positions. -/
theorem withLocalOffsets_spec {k : ℕ} (lo : ℕ) (r : Range)
    (hmem : (lo, r) ∈ withLocalOffsets k rs) :
    k ≤ lo ∧ lo + r.size ≤ k + totalSize rs ∧
      ∀ j < r.size, (positions rs)[lo - k + j]? = some (r.offset + j) := by
  induction rs generalizing k with
  | nil => simp [withLocalOffsets] at hmem
  | cons r' rs ih =>
    have hlen : r'.elems.length = r'.size := by simp [Range.elems]
    rw [withLocalOffsets, mem_cons] at hmem
    rw [totalSize_cons, positions_cons]
    rcases hmem with heq | htail
    · obtain ⟨rfl, rfl⟩ := Prod.mk.injEq _ _ _ _ ▸ heq
      refine ⟨le_rfl, by omega, fun j hj => ?_⟩
      rw [Nat.sub_self, Nat.zero_add, List.getElem?_append_left (by omega), Range.elems,
        List.getElem?_range' hj]
      simp
    · obtain ⟨hk, hend, hpos⟩ := ih htail
      refine ⟨by omega, by omega, fun j hj => ?_⟩
      rw [List.getElem?_append_right (by omega), ← hpos j hj]
      congr 1
      omega

theorem exists_last_range (hne : rs ≠ []) (k : ℕ) :
    ∃ r ∈ withLocalOffsets k rs, r.1 + r.2.size = k + totalSize rs := by
  induction rs generalizing k with
  | nil => exact absurd rfl hne
  | cons r rs ih =>
    rw [totalSize_cons]
    cases rs with
    | nil => exact ⟨(k, r), by simp [withLocalOffsets], by simp [totalSize]⟩
    | cons r' rs =>
      obtain ⟨q, hq, hend⟩ := ih (by simp) (k + r.size)
      refine ⟨q, ?_, by omega⟩
      rw [withLocalOffsets, mem_cons]
      exact Or.inr hq

theorem mem_chunksOf : c ∈ chunksOf R ↔ ∃ combo, chunkOf combo = c ∧
      Forall₂ (fun r rs => r ∈ withLocalOffsets 0 rs) combo R := by
  rw [chunksOf, mem_map]
  constructor
  · rintro ⟨combo, hmem, rfl⟩
    exact ⟨combo, rfl, forall₂_map_right_iff.mp (mem_product.mp hmem)⟩
  · rintro ⟨combo, rfl, hall⟩
    exact ⟨combo, mem_product.mpr (forall₂_map_right_iff.mpr hall), rfl⟩

theorem exists_last_combo (hR : ∀ rs ∈ R, Ranges rs) :
    ∃ combo, Forall₂ (fun r rs => r ∈ withLocalOffsets 0 rs) combo R ∧
      Forall₂ (fun r rs => r.1 + r.2.size = totalSize rs) combo R := by
  induction R with
  | nil => exact ⟨[], .nil, .nil⟩
  | cons rs R ih =>
    obtain ⟨combo, hmem, hend⟩ := ih fun q hq => hR q (by simp [hq])
    obtain ⟨r, hr, hrend⟩ := exists_last_range (hR rs (by simp)).1 0
    exact ⟨r :: combo, .cons hr hmem, .cons (by omega) hend⟩

/-- The local tensor extends over the sum of the ranges in every dimension. -/
theorem outputShape_chunksOf (hR : ∀ rs ∈ R, Ranges rs) :
    outputShape (chunksOf R) = R.map totalSize := by
  obtain ⟨last, hlast, hends⟩ := exists_last_combo hR
  have hlastMem : chunkOf last ∈ chunksOf R := mem_chunksOf.2 ⟨last, rfl, hlast⟩
  cases hchunks : chunksOf R with
  | nil => rw [hchunks] at hlastMem; simp at hlastMem
  | cons c cs =>
    have hc : c ∈ chunksOf R := by simp [hchunks]
    obtain ⟨combo, rfl, hcombo⟩ := mem_chunksOf.1 hc
    have hlenc : combo.length = R.length := length_eq hcombo
    rw [outputShape, ← hchunks]
    apply ext_getElem
    · simp [chunkOf, hlenc]
    · intro d h₁ h₂
      have hd : d < R.length := by simpa using h₂
      rw [getElem_map, getElem_map, getElem_range]
      refine le_antisymm (max_le_of_forall_le _ _ fun a ha => ?_) (le_max_of_le ?_ le_rfl)
      rotate_left
      · refine mem_map.mpr ⟨chunkOf last, hlastMem, ?_⟩
        have hdl : d < last.length := by rw [length_eq hlast]; exact hd
        have := (forall₂_iff_get.mp hends).2 d hdl hd
        simpa [chunkOf, getD_eq_getElem?_getD, hdl] using this
      · obtain ⟨c', hc', rfl⟩ := mem_map.mp ha
        obtain ⟨combo', rfl, hcombo'⟩ := mem_chunksOf.1 hc'
        have hdc : d < combo'.length := by rw [length_eq hcombo']; exact hd
        have hmem := (forall₂_iff_get.mp hcombo').2 d hdc hd
        have hspec := withLocalOffsets_spec combo'[d].1 combo'[d].2 hmem
        have hend := hspec.2.1
        simpa [chunkOf, getD_eq_getElem?_getD, hdc] using hend

/-- A chunk's local box lies in the local tensor, and reads the concatenated ranges
there. -/
theorem chunk_local_spec (hc : c ∈ chunksOf R) (hy : inBox c.localOffset c.shape y = true) :
    Forall₂ (fun i rs => i < totalSize rs) y R ∧ c.globalOf y = globalAt R y := by
  obtain ⟨combo, rfl, hcombo⟩ := mem_chunksOf.1 hc
  clear hc
  induction hcombo generalizing y with
  | nil =>
    cases y with
    | nil => exact ⟨.nil, rfl⟩
    | cons i y => simp [chunkOf, inBox] at hy
  | @cons r rs combo R hr _ ih =>
    simp only [chunkOf, map_cons] at hy
    obtain ⟨i, y, rfl, ⟨hlo, hhi⟩, htail⟩ := exists_of_inBox_cons hy
    obtain ⟨hall, hglobal⟩ := ih (y := y) htail
    obtain ⟨_, hend, hpos⟩ := withLocalOffsets_spec r.1 r.2 hr
    refine ⟨.cons (by omega) hall, ?_⟩
    have hget := hpos (i - r.1) (by omega)
    have hidx : r.1 - 0 + (i - r.1) = i := by omega
    rw [hidx] at hget
    simp only [ShardInfo.globalOf, chunkOf] at hglobal
    simp only [ShardInfo.globalOf, chunkOf, map_cons, zipWith_cons_cons, globalAt,
      hglobal, getD_eq_getElem?_getD, hget, Option.getD_some]

theorem forall₂_lt_totalSize_iff :
    inBox ((R.map totalSize).map fun _ => 0) (R.map totalSize) y = true ↔
      Forall₂ (fun i rs => i < totalSize rs) y R := by
  induction R generalizing y with
  | nil =>
    cases y with
    | nil | cons i y => simp [inBox]
  | cons rs R ih =>
    cases y with
    | nil => simp [inBox]
    | cons i y =>
      rw [map_cons, map_cons, inBox_cons, ih, forall₂_cons]
      simp

theorem ranges_initial (shape : List ℕ) : ∀ rs ∈ initialRanges shape, Ranges rs := by
  intro rs hrs
  obtain ⟨s, _, rfl⟩ := mem_map.mp hrs
  refine ⟨by simp, ?_⟩
  simpa [Range.elems] using nodup_range' (s := 0) (n := s)

theorem owned_initial_iff :
    Owned (initialRanges shape) x ↔ inBox (shape.map fun _ => 0) shape x = true := by
  induction shape generalizing x with
  | nil => cases x <;> simp [Owned, initialRanges, inBox]
  | cons s shape ih =>
    cases x with
    | nil => simp [Owned, initialRanges, inBox]
    | cons i x =>
      simp only [Owned, initialRanges] at ih
      simp only [Owned, initialRanges, map_cons, forall₂_cons, inBox_cons, ih]
      simp [Range.elems]

/-- The chunks of an owner tile its local tensor: every local element lies in exactly
one chunk, no chunk leaves the tensor, and along each dimension the local order is
the concatenation of the ranges. -/
def TilesLocal (chunks : List ShardInfo) : Prop :=
  ∃ dimRanges : List (List Range),
    chunks = chunksOf dimRanges ∧ outputShape chunks = dimRanges.map totalSize ∧
    (∀ y, inBox ((outputShape chunks).map fun _ => 0) (outputShape chunks) y = true →
      localCount chunks y = 1) ∧
    ∀ c ∈ chunks, ∀ y, inBox c.localOffset c.shape y = true →
      inBox ((outputShape chunks).map fun _ => 0) (outputShape chunks) y = true ∧
      c.globalOf y = globalAt dimRanges y

theorem tilesLocal_chunksOf (hR : ∀ rs ∈ R, Ranges rs) : TilesLocal (chunksOf R) := by
  have hshape := outputShape_chunksOf hR
  refine ⟨R, rfl, hshape, fun y hy => ?_, fun c hc y hy => ?_⟩
  · rw [hshape] at hy
    exact localCount_eq_one (forall₂_lt_totalSize_iff.1 hy)
  · obtain ⟨hall, hglobal⟩ := chunk_local_spec hc hy
    refine ⟨?_, hglobal⟩
    rw [hshape]
    exact forall₂_lt_totalSize_iff.2 hall

theorem computeShards_eq
    (hlen : placements.length = sizes.length) (hcoord : ValidCoord coord sizes) :
    computeShards shape placements (coord.zip sizes) = (do
      let dimRanges ← applyPlacements (initialRanges shape) (placements.zip (coord.zip sizes))
      return chunksOf dimRanges) := by
  have hc : coord.length = sizes.length := length_eq hcoord
  rw [computeShards, if_neg]
  simp [hlen, hc]

/-- **The shards partition the tensor.** For every shape, every list of placements and
every list of group sizes: each owner's chunks are computed, tile its local tensor
and hold no element twice; and whatever the coordinates on the replicated mesh
dimensions, each element of the tensor lies in a chunk of exactly one owner. -/
theorem computeShards_partition (shape : List ℕ) (placements : List Placement)
    (sizes : List ℕ) (hlen : placements.length = sizes.length)
    (hp : ∀ p ∈ placements, p.WellFormed shape.length) :
    (∀ coord, ValidCoord coord sizes →
      ∃ chunks, computeShards shape placements (coord.zip sizes) = .ok chunks ∧
        TilesLocal chunks ∧
        ∀ x, inBox (shape.map fun _ => 0) shape x = true → globalCount chunks x ≤ 1) ∧
    ∀ fixed, ValidCoord fixed sizes →
      ∀ x, inBox (shape.map fun _ => 0) shape x = true →
        ∃! coord, ValidCoord coord sizes ∧ AgreeOnReplicate placements coord fixed ∧
          ∃ chunks, computeShards shape placements (coord.zip sizes) = .ok chunks ∧
            globalCount chunks x = 1 := by
  have hinit := ranges_initial shape
  have hwf : ∀ p ∈ placements, p.WellFormed (initialRanges shape).length := by
    simpa [initialRanges] using hp
  have hxlen : ∀ {R x}, Shrinks R (initialRanges shape) → Owned (initialRanges shape) x →
      x.length = R.length := fun hsub hx =>
    (length_eq hx).trans (length_eq hsub).symm
  constructor
  · intro coord hcoord
    obtain ⟨R, hrun, hR, hsub⟩ := applyPlacements_spec hlen hwf hinit hcoord
    refine ⟨chunksOf R, by rw [computeShards_eq hlen hcoord, hrun]; rfl,
      tilesLocal_chunksOf hR, fun x hx => ?_⟩
    exact (globalCount_eq hR (hxlen hsub (owned_initial_iff.2 hx))).1
  · intro fixed hfixed x hx
    have howned := owned_initial_iff.2 hx
    -- owning `x` at the end of the loop is having one chunk around it
    have hiff : ∀ coord, ValidCoord coord sizes →
        ((∃ R, applyPlacements (initialRanges shape) (placements.zip (coord.zip sizes)) = .ok R ∧
          Owned R x) ↔
        ∃ chunks, computeShards shape placements (coord.zip sizes) = .ok chunks ∧
          globalCount chunks x = 1) := by
      intro coord hcoord
      obtain ⟨R, hrun, hR, hsub⟩ := applyPlacements_spec hlen hwf hinit hcoord
      have hcount := (globalCount_eq hR (hxlen hsub howned)).2
      rw [computeShards_eq hlen hcoord, hrun]
      constructor
      · rintro ⟨R', hR', hown⟩
        rw [Except.ok.injEq] at hR'
        subst hR'
        exact ⟨_, rfl, hcount.mpr hown⟩
      · rintro ⟨chunks, hchunks, hone⟩
        have hc : chunksOf R = chunks := Except.ok.inj hchunks
        subst hc
        exact ⟨R, rfl, hcount.mp hone⟩
    obtain ⟨coord, ⟨hcoord, hagree, hex⟩, huniq⟩ :=
      applyPlacements_existsUnique hlen hwf hinit hfixed howned
    refine ⟨coord, ⟨hcoord, hagree, (hiff coord hcoord).mp hex⟩, ?_⟩
    rintro coord' ⟨hcoord', hagree', hex'⟩
    exact huniq coord' ⟨hcoord', hagree', (hiff coord' hcoord').mpr hex'⟩

/-- The partition at a mesh that strides, replicates and shards an uneven dimension. -/
theorem computeShards_partition_strided :
    ∃! coord, ValidCoord coord [2, 3, 2] ∧
      AgreeOnReplicate [.stridedShard 0 2, .replicate, .shard 0] coord [0, 2, 0] ∧
      ∃ chunks, computeShards [5, 4] [.stridedShard 0 2, .replicate, .shard 0]
          (coord.zip [2, 3, 2]) = .ok chunks ∧
        globalCount chunks [3, 1] = 1 :=
  (computeShards_partition [5, 4] [.stridedShard 0 2, .replicate, .shard 0] [2, 3, 2] rfl
    (by simp [Placement.WellFormed])).2 [0, 2, 0] (by simp [ValidCoord]) [3, 1] (by decide)

example : computeShards [5, 4] [.stridedShard 0 2, .replicate, .shard 0]
    [(0, 2), (2, 3), (1, 2)] = .ok [⟨[4, 0], [0, 0], [1, 4]⟩] := by decide

end Sharding
