import Moodist.AllGather.Order

/-!
# Shuffled reads

Model of `AllGather::shuffledReads`: the order in which a rank reads the chunks of its sources. All
ranks of a column shuffle the same list, rotate it by their own place in the column, and drop their
own entries.
-/

namespace AllGather

open Foundation List

variable {size : ℕ}

/-- `std::ranges::shuffle`. The seed has only numbers that all ranks have in common, and so does the
order in which the places come out. -/
def shuffle {α : Type*} (order : List ℕ) (l : List α) : List α := order.filterMap (l[·]?)

namespace Nodes

variable (nodes : Nodes size)

def sortedRanks (rank : Fin size) : List (Fin size) :=
  (nodes.recvRanks rank ++ [rank]).mergeSort fun a b => decide (a ≤ b)

/-- One round of the last loop. It is `none` if a check fails, and `some none` if nothing is added
to the list. -/
def readOf (rank : Fin size) (v : Fin size × ℕ) : Option (Option (ℕ × ℕ)) := do
  guard (v.1 ∈ nodes.sortedRanks rank)
  let myIndex := (nodes.sortedRanks rank).idxOf rank
  let n := ((nodes.sortedRanks rank).idxOf v.1 + myIndex) % (nodes.sortedRanks rank).length
  let source ← (nodes.sortedRanks rank)[n]?
  if source ≠ rank then
    guard (source ∈ nodes.recvRanks rank)
    return some ((nodes.recvRanks rank).idxOf source, v.2)
  else
    return none

/-- The reads, as indices into `recvRanks` and chunks. -/
def shuffledReads (order : List ℕ) (numRecvs numChunks : ℕ) (rank : Fin size) :
    Option (List (ℕ × ℕ)) := do
  guard (numRecvs = (nodes.recvRanks rank).length)
  let rr := (nodes.sortedRanks rank).flatMap fun i => (range numChunks).map fun c => (i, c)
  let rr := (shuffle order rr).mergeSort fun a b => decide (a.2 ≤ b.2)
  let r ← rr.mapM (nodes.readOf rank)
  return r.reduceOption

end Nodes

/-! ## Shuffling -/

section Shuffle

variable {α β : Type*} {order : List ℕ}

theorem shuffle_map (f : α → β) (l : List α) :
    shuffle order (l.map f) = (shuffle order l).map f := by
  simp only [shuffle, map_filterMap, List.getElem?_map]

theorem filterMap_getElem?_range (l : List α) : (range l.length).filterMap (l[·]?) = l := by
  induction l with
  | nil => rfl
  | cons a l ih =>
    rw [length_cons, range_succ_eq_map, filterMap_cons, filterMap_map]
    exact congrArg (List.cons a) ih

theorem shuffle_perm {l : List α} (h : order.Perm (range l.length)) :
    (shuffle order l).Perm l := by
  have hperm := h.filterMap (l[·]?)
  rwa [filterMap_getElem?_range] at hperm

theorem reduceOption_map_ite (p : α → Prop) [DecidablePred p] (f : α → β) (l : List α) :
    (l.map fun a => if p a then some (f a) else none).reduceOption =
      (l.filter fun a => decide (p a)).map f := by
  induction l with
  | nil => rfl
  | cons a l ih => by_cases h : p a <;> simp [h, ih]

end Shuffle

/-! ## The list that all ranks have in common -/

section Consecutive

variable {numNodes perNode : ℕ}

def table (numNodes numChunks : ℕ) : List (Fin numNodes × ℕ) :=
  (finRange numNodes).flatMap fun n => (range numChunks).map fun c => (n, c)

def common (numNodes numChunks : ℕ) (order : List ℕ) : List (Fin numNodes × ℕ) :=
  ((shuffle order (table numNodes numChunks)).mergeSort fun a b => decide (a.2 ≤ b.2)).filter
    fun v => decide (v.1.val ≠ 0)

def shift (n i : Fin numNodes) : Fin numNodes := ⟨(i + n) % numNodes, Nat.mod_lt _ i.pos⟩

theorem shift_eq_iff {n i m : Fin numNodes} : shift n i = m ↔ steps n m = i := by
  have hn := n.isLt
  have hi := i.isLt
  have hm := m.isLt
  rw [steps_eq_iff, shift, Fin.ext_iff]
  dsimp only
  by_cases hlt : (i : ℕ) + n < numNodes
  · rw [Nat.mod_eq_of_lt hlt]
    omega
  · rw [Nat.mod_eq_sub_mod (not_lt.mp hlt), Nat.mod_eq_of_lt (by omega)]
    omega

variable {v : Fin numNodes × ℕ}

theorem mem_table {numChunks : ℕ} : v ∈ table numNodes numChunks ↔ v.2 < numChunks := by
  obtain ⟨n, c⟩ := v
  simp [table]

theorem table_nodup (numNodes numChunks : ℕ) : (table numNodes numChunks).Nodup := by
  refine nodup_flatMap.mpr ⟨fun n _ => nodup_range.map fun c d h => ?_, ?_⟩
  · exact (Prod.mk.inj h).2
  · refine (nodup_finRange numNodes).imp fun {n m} hne v hv hv' => hne ?_
    obtain ⟨c, -, rfl⟩ := mem_map.mp hv
    obtain ⟨d, -, h⟩ := mem_map.mp hv'
    exact (Prod.mk.inj h).1.symm

theorem length_table (numNodes numChunks : ℕ) :
    (table numNodes numChunks).length = numNodes * numChunks := by
  simp [table]

variable {numChunks : ℕ} {order : List ℕ}

theorem common_perm (horder : order.Perm (range (numNodes * numChunks))) :
    (common numNodes numChunks order).Perm
      ((table numNodes numChunks).filter fun v => decide (v.1.val ≠ 0)) := by
  rw [← length_table] at horder
  exact ((mergeSort_perm _ _).trans (shuffle_perm horder)).filter _

theorem common_pairwise (numNodes numChunks : ℕ) (order : List ℕ) :
    (common numNodes numChunks order).Pairwise fun a b => a.2 ≤ b.2 :=
  (pairwise_mergeSort_le Prod.snd _).filter _

/-! ## The list of a rank -/

variable (hpos : 0 < perNode) (rank : Fin (numNodes * perNode))

def column (numNodes : ℕ) (l : Fin perNode) : List (Fin (numNodes * perNode)) :=
  (finRange numNodes).map fun n => rankAt n l

theorem column_pairwise (l : Fin perNode) : (column numNodes l).Pairwise (· < ·) := by
  refine pairwise_map.mpr ((pairwise_lt_finRange numNodes).imp fun {n m} hlt => ?_)
  have hmul : perNode * ((n : ℕ) + 1) ≤ perNode * m := Nat.mul_le_mul_left _ hlt
  have hl := l.isLt
  rw [Fin.lt_def, rank_val, rank_val (rankAt m l)]
  simp only [node_rankAt, localRank_rankAt]
  rw [Nat.mul_succ] at hmul
  omega

theorem sortedRanks_consecutive :
    (consecutive _ _ hpos).sortedRanks rank = column numNodes (localRank rank) := by
  have hperm := mergeSort_perm ((consecutive _ _ hpos).recvRanks rank ++ [rank])
    fun a b => decide (a ≤ b)
  have hnot : rank ∉ (consecutive _ _ hpos).recvRanks rank := fun h =>
    ((mem_recvRanks_consecutive hpos).mp h).1 rfl
  have hnodup : ((consecutive _ _ hpos).sortedRanks rank).Nodup := by
    refine hperm.nodup_iff.mpr (nodup_append'.mpr
      ⟨Nodes.recvRanks_nodup _ rank, nodup_singleton _, ?_⟩)
    exact disjoint_singleton.mpr hnot
  have hsorted : ((consecutive _ _ hpos).sortedRanks rank).Pairwise (· ≤ ·) :=
    pairwise_mergeSort_le id _
  have hlt := (hsorted.and hnodup).imp fun {a b} h => lt_of_le_of_ne h.1 h.2
  refine hlt.eq_of_mem_iff (column_pairwise _) fun r => ?_
  rw [Nodes.sortedRanks, hperm.mem_iff, mem_append, mem_singleton,
    mem_recvRanks_consecutive, column, mem_map]
  constructor
  · rintro (⟨-, hlocal⟩ | rfl)
    · exact ⟨node r, mem_finRange _, hlocal ▸ rankAt_node_localRank r⟩
    · exact ⟨node r, mem_finRange _, rankAt_node_localRank r⟩
  · rintro ⟨n, -, rfl⟩
    by_cases hn : n = node rank
    · exact .inr (hn ▸ rankAt_node_localRank rank)
    · exact .inl ⟨by rwa [node_rankAt], (localRank_rankAt n _).symm⟩

theorem idxOf_column (n : Fin numNodes) (l : Fin perNode) :
    (column numNodes l).idxOf (rankAt n l) = n := by
  have hlt : (n : ℕ) < (column numNodes l).length := by simp [column]
  have hget : (column numNodes l)[(n : ℕ)] = rankAt n l := by simp [column]
  have hnodup : (column numNodes l).Nodup := (column_pairwise l).imp ne_of_lt
  rw [← hget]
  exact hnodup.idxOf_getElem _ hlt

def sourceOf (v : Fin numNodes × ℕ) : Fin (numNodes * perNode) :=
  rankAt (shift (node rank) v.1) (localRank rank)

theorem sourceOf_eq_iff : sourceOf rank v = rank ↔ v.1.val = 0 := by
  have hshift : shift (node rank) v.1 = node rank ↔ v.1.val = 0 := by
    rw [shift_eq_iff, steps_eq_zero_iff.mpr rfl, eq_comm]
  rw [← hshift]
  constructor
  · intro h
    rw [← node_rankAt (shift (node rank) v.1) (localRank rank)]
    exact congrArg node h
  · intro h
    rw [sourceOf, h, rankAt_node_localRank]

theorem sourceOf_mem (h : v.1.val ≠ 0) :
    sourceOf rank v ∈ (consecutive _ _ hpos).recvRanks rank := by
  refine (mem_recvRanks_consecutive hpos).mpr ⟨fun hnode => h ?_, (localRank_rankAt _ _).symm⟩
  exact (sourceOf_eq_iff rank).mp (rank_ext hnode (localRank_rankAt _ _))

theorem readOf_consecutive (v : Fin numNodes × ℕ) :
    (consecutive _ _ hpos).readOf rank (rankAt v.1 (localRank rank), v.2) =
      some (if v.1.val ≠ 0 then
        some (((consecutive _ _ hpos).recvRanks rank).idxOf (sourceOf rank v), v.2)
        else none) := by
  have hmem : rankAt v.1 (localRank rank) ∈ column numNodes (localRank rank) :=
    mem_map.mpr ⟨v.1, mem_finRange _, rfl⟩
  have hmine : (column numNodes (localRank rank)).idxOf rank = node rank := by
    conv_lhs => rw [← rankAt_node_localRank rank]
    rw [localRank_rankAt, idxOf_column]
  have hlen : (column numNodes (localRank rank)).length = numNodes := by simp [column]
  have hget : (column numNodes (localRank rank))[((v.1 : ℕ) + node rank) % numNodes]? =
      some (sourceOf rank v) := by
    rw [List.getElem?_eq_getElem (hlen.symm ▸ Nat.mod_lt _ v.1.pos)]
    simp [column, sourceOf, shift]
  simp only [Nodes.readOf, sortedRanks_consecutive, hmem, guard_true, idxOf_column, hmine, hlen,
    hget]
  by_cases h : v.1.val = 0
  · simp [h, (sourceOf_eq_iff rank).mpr h]
  · have hne : sourceOf rank v ≠ rank := fun heq => h ((sourceOf_eq_iff rank).mp heq)
    simp [h, hne, sourceOf_mem hpos rank h]

theorem shuffledReads_eq :
    (consecutive _ _ hpos).shuffledReads order (numNodes - 1) numChunks rank =
      some ((common numNodes numChunks order).map fun v =>
        (((consecutive _ _ hpos).recvRanks rank).idxOf (sourceOf rank v), v.2)) := by
  have htable : ((consecutive _ _ hpos).sortedRanks rank).flatMap
      (fun i => (range numChunks).map fun c => (i, c)) =
        (table numNodes numChunks).map fun v => (rankAt v.1 (localRank rank), v.2) := by
    rw [sortedRanks_consecutive, column, table, flatMap_map, map_flatMap]
    simp only [map_map, Function.comp_def]
  have hsort : (shuffle order ((table numNodes numChunks).map
      fun v => (rankAt v.1 (localRank rank), v.2))).mergeSort (fun a b => decide (a.2 ≤ b.2)) =
        ((shuffle order (table numNodes numChunks)).mergeSort
          fun a b => decide (a.2 ≤ b.2)).map fun v => (rankAt v.1 (localRank rank), v.2) := by
    rw [shuffle_map, map_mergeSort]
    intro a _ b _
    rfl
  have hread : ∀ l : List (Fin numNodes × ℕ),
      (l.map fun v => (rankAt v.1 (localRank rank), v.2)).mapM
        ((consecutive _ _ hpos).readOf rank) =
          some (l.map fun v => if v.1.val ≠ 0 then
            some (((consecutive _ _ hpos).recvRanks rank).idxOf (sourceOf rank v), v.2)
            else none) := by
    intro l
    induction l with
    | nil => rfl
    | cons v l ih => simp [mapM_cons, readOf_consecutive, ih]
  have hlength := (indexed_recvRanks hpos rank).length_eq
  simp only [Nodes.shuffledReads, hlength, guard_true, htable, hsort, hread, common]
  exact congrArg some (reduceOption_map_ite _ _ _)

theorem getElem?_idxOf_sourceOf (hv : v ∈ common numNodes numChunks order) :
    ((consecutive _ _ hpos).recvRanks rank)[
      ((consecutive _ _ hpos).recvRanks rank).idxOf (sourceOf rank v)]? =
        some (sourceOf rank v) :=
  List.getElem?_idxOf (sourceOf_mem hpos rank (of_decide_eq_true (mem_filter.mp hv).2))

/-- Every pair of an index and a chunk is read once. -/
theorem reads_perm (horder : order.Perm (range (numNodes * numChunks))) :
    ((common numNodes numChunks order).map fun v =>
      (((consecutive _ _ hpos).recvRanks rank).idxOf (sourceOf rank v), v.2)).Perm
        (range (numNodes - 1) ×ˢ range numChunks) := by
  have hperm := common_perm horder
  have hlength := (indexed_recvRanks hpos rank).length_eq
  have hmem : ∀ {v}, v ∈ common numNodes numChunks order ↔ v.2 < numChunks ∧ v.1.val ≠ 0 := by
    intro v
    rw [hperm.mem_iff, mem_filter, mem_table, decide_eq_true_iff]
  refine (perm_ext_iff_of_nodup ?_ (nodup_range.product nodup_range)).mpr ?_
  · refine (hperm.nodup_iff.mpr ((table_nodup _ _).filter _)).map_on fun v hv w hw h => ?_
    obtain ⟨hindex, hchunk⟩ := Prod.mk.inj h
    have hsource := (idxOf_inj (sourceOf_mem hpos rank (hmem.mp hv).2)).mp hindex
    have hshift : shift (node rank) v.1 = shift (node rank) w.1 := by
      have hnode := congrArg node hsource
      rwa [sourceOf, sourceOf, node_rankAt, node_rankAt] at hnode
    refine Prod.ext (Fin.ext ?_) hchunk
    rw [← shift_eq_iff.1 hshift, ← shift_eq_iff.1 rfl]
  · rintro ⟨k, c⟩
    rw [mem_map, mem_product, mem_range, mem_range]
    constructor
    · rintro ⟨v, hv, h⟩
      obtain ⟨rfl, rfl⟩ := Prod.mk.inj h
      refine ⟨?_, (hmem.mp hv).1⟩
      rw [← hlength]
      exact idxOf_lt_length_iff.mpr (sourceOf_mem hpos rank (hmem.mp hv).2)
    · rintro ⟨hk, hc⟩
      rw [← hlength] at hk
      obtain ⟨hnode, hlocal⟩ := (mem_recvRanks_consecutive hpos).mp (getElem_mem hk)
      set s := ((consecutive _ _ hpos).recvRanks rank)[k] with hs
      have hsource : sourceOf rank (⟨steps (node rank) (node s), steps_lt _ _⟩, c) = s := by
        rw [sourceOf, shift_eq_iff.2 rfl, hlocal, rankAt_node_localRank]
      refine ⟨(⟨steps (node rank) (node s), steps_lt _ _⟩, c), hmem.mpr ⟨hc, ?_⟩, ?_⟩
      · exact (steps_pos hnode.symm).ne'
      · rw [hsource, hs, (Nodes.recvRanks_nodup _ rank).idxOf_getElem]

/-- The lists are complete and in the order of the chunks, and the ranks of a column never read from
the same source at the same place. -/
theorem shuffledReads_consecutive (numChunks : ℕ)
    (horder : order.Perm (range (numNodes * numChunks))) :
    ∃ reads : Fin (numNodes * perNode) → List (ℕ × ℕ),
      (∀ rank,
        (consecutive numNodes perNode hpos).shuffledReads order (numNodes - 1) numChunks rank =
        some (reads rank)) ∧
      (∀ rank, (reads rank).Perm (range (numNodes - 1) ×ˢ range numChunks)) ∧
      (∀ rank, (reads rank).Pairwise fun a b => a.2 ≤ b.2) ∧
      ∀ rank rank', localRank rank = localRank rank' → rank ≠ rank' → ∀ (k : ℕ) (a b : ℕ × ℕ),
        (reads rank)[k]? = some a → (reads rank')[k]? = some b →
          ∃ source source',
            ((consecutive numNodes perNode hpos).recvRanks rank)[a.1]? = some source ∧
            ((consecutive numNodes perNode hpos).recvRanks rank')[b.1]? = some source' ∧
              source ≠ source' := by
  refine ⟨_, fun rank => shuffledReads_eq hpos rank, fun rank => reads_perm hpos rank horder,
    fun rank => pairwise_map.mpr (common_pairwise _ _ _), ?_⟩
  intro rank rank' hlocal hne k a b ha hb
  rw [List.getElem?_map, Option.map_eq_some_iff] at ha hb
  obtain ⟨v, hv, rfl⟩ := ha
  obtain ⟨w, hw, rfl⟩ := hb
  obtain rfl : v = w := Option.some.inj (hv.symm.trans hw)
  have hmem := mem_of_getElem? hv
  refine ⟨_, _, getElem?_idxOf_sourceOf hpos rank hmem, getElem?_idxOf_sourceOf hpos rank' hmem, ?_⟩
  intro heq
  have hnode := congrArg node heq
  rw [sourceOf, sourceOf, node_rankAt, node_rankAt] at hnode
  have hsteps : steps (node rank) (shift (node rank') v.1) =
      steps (node rank') (shift (node rank') v.1) := by
    rw [shift_eq_iff.1 hnode, shift_eq_iff.1 rfl]
  exact hne (rank_ext (eq_of_steps_left hsteps) hlocal)

end Consecutive

/-- Three nodes of two ranks, and two chunks. -/
theorem shuffledReads_consecutive_six : [4, 1, 5, 0, 2, 3].Perm (range (3 * 2)) ∧
    ∃ reads : Fin (3 * 2) → List (ℕ × ℕ),
      (∀ rank, (consecutive 3 2 Nat.two_pos).shuffledReads [4, 1, 5, 0, 2, 3] (3 - 1) 2 rank =
        some (reads rank)) ∧ (∀ rank, (reads rank).Perm (range 2 ×ˢ range 2)) ∧
      ∀ rank rank', localRank rank = localRank rank' → rank ≠ rank' → ∀ (k : ℕ) (a b : ℕ × ℕ),
        (reads rank)[k]? = some a → (reads rank')[k]? = some b →
          ∃ source source', ((consecutive 3 2 Nat.two_pos).recvRanks rank)[a.1]? = some source ∧
            ((consecutive 3 2 Nat.two_pos).recvRanks rank')[b.1]? = some source' ∧
              source ≠ source' := by
  have horder : [4, 1, 5, 0, 2, 3].Perm (range (3 * 2)) := by decide
  obtain ⟨reads, hreads, hperm, -, hconflict⟩ :=
    shuffledReads_consecutive Nat.two_pos 2 horder
  exact ⟨horder, reads, hreads, hperm, hconflict⟩

end AllGather
