import Moodist.AllGather.Init

/-!
# The ring between nodes

Model of the second part of `AllGather::init`: which rank gets the data of a source from which
neighbor.
-/

namespace AllGather

open List

variable {size : ℕ}

namespace Nodes

variable (nodes : Nodes size)

/-! ## Neighbors -/

/-- `rankNodes[rank]` -/
def rankNode (rank : Fin size) : ℕ :=
  nodes.nodeRanks.findIdx fun list => rank ∈ list

/-- `abs(v - source, size)`, with the wrap-around of `size_t`. -/
def distance (v source : Fin size) : ℕ :=
  let d := ((v + 2 ^ 64 - source) % 2 ^ 64 + size) % 2 ^ 64 % size
  if d ≤ size - d then d else size - d

/-- The neighbor with the smallest distance, with the distance. It is `none` without neighbors. -/
def closest (source : Fin size) (neighbors : List (Fin size)) : ℕ × Option (Fin size) :=
  neighbors.foldl (fun best v =>
    if distance v source < best.1 then (distance v source, some v) else best) (size, none)

/-- The neighbors found so far, and the sources with the neighbor they come from. -/
structure RingState (size : ℕ) where
  neighbors : List (Fin size) := []
  ringRecvs : List (Fin size × Option (Fin size)) := []

def ringStep (rank : Fin size) (st : RingState size) : Path size → RingState size
  | .proxied _ _ _ => st
  | .direct source destination =>
    if source = rank then
      if nodes.rankNode destination =
          (nodes.rankNode source + nodes.nodeRanks.length - 1) % nodes.nodeRanks.length then
        { st with neighbors := st.neighbors ++ [destination] }
      else
        st
    else if destination = rank then
      { st with ringRecvs := st.ringRecvs ++ [(source, (closest source st.neighbors).2)] }
    else
      st

def ringRecvs (rank : Fin size) : List (Fin size × Option (Fin size)) :=
  ((nodes.sortedPaths rank).foldl (nodes.ringStep rank) {}).ringRecvs

def ringSendsAt (rank : Fin size) (i : ℕ) : List (Fin size × Fin size) :=
  (finRange size).filterMap fun r =>
    match (nodes.ringRecvs r)[i]? with
    | some (source, neighbor) => if neighbor = some rank then some (source, r) else none
    | none => none

/-- The number of rounds, up to the first in which no list has an element. -/
def rounds : ℕ := ((finRange size).map fun r => (nodes.ringRecvs r).length).foldr max 0

def ringSends (rank : Fin size) : List (Fin size × Fin size) :=
  (range nodes.rounds).flatMap (nodes.ringSendsAt rank)

/-! ## What a broadcast takes from the lists -/

def ipcRanks (rank : Fin size) : List (Fin size) :=
  stablePartition (fun i => decide (rank < i))
    ((finRange size).filter fun i => decide (i ∈ nodes.nodeOf rank ∧ i ≠ rank))

theorem mem_ipcRanks {rank i : Fin size} :
    i ∈ nodes.ipcRanks rank ↔ nodes.SameNode i rank ∧ i ≠ rank := by
  rw [ipcRanks, (stablePartition_perm _ _).mem_iff, mem_filter, decide_eq_true_iff,
    SameNode, nodes.nodeOf_eq_iff]
  exact and_iff_right (mem_finRange i)

theorem ipcRanks_nodup (rank : Fin size) : (nodes.ipcRanks rank).Nodup :=
  (stablePartition_perm _ _).nodup_iff.mpr ((nodup_finRange size).filter _)

theorem cons_ipcRanks_perm (rank : Fin size) :
    (rank :: nodes.ipcRanks rank).Perm (nodes.nodeOf rank) := by
  have hnodup := (nodup_flatten.mp nodes.nodup).1 _ (nodes.nodeOf_spec rank).1
  have hnot : rank ∉ nodes.ipcRanks rank := fun h => (nodes.mem_ipcRanks.1 h).2 rfl
  refine (perm_ext_iff_of_nodup (nodup_cons.mpr ⟨hnot, nodes.ipcRanks_nodup rank⟩)
    hnodup).mpr fun r => ?_
  rw [mem_cons, mem_ipcRanks, SameNode, nodes.nodeOf_eq_iff]
  by_cases hr : r = rank
  · exact iff_of_true (.inl hr) (hr ▸ (nodes.nodeOf_spec rank).2)
  · simp only [hr, false_or, ne_eq, not_false_eq_true, and_true]

/-- `recvFrom`: the rank itself if the source is not in `ringRecvs`. -/
def recvFrom (source rank : Fin size) : Option (Fin size) :=
  ((nodes.ringRecvs rank).lookup source).getD (some rank)

def sendTo (source rank : Fin size) : Fin size :=
  ((nodes.ringSends rank).lookup source).getD rank

/-- `proxyInfo` is not null. -/
def hasProxyInfo (source rank : Fin size) : Bool :=
  (nodes.proxyInfo rank).any fun info => info.1 = source

/-- The proxy, if `proxyDestination` is not null. -/
def proxyDestination (source rank : Fin size) : Option (Fin size) :=
  (nodes.proxyDestinationInfo rank).lookup source

def RouteChecks (source rank : Fin size) : Prop :=
  if rank ≠ source ∧ source ∉ nodes.ipcRanks rank then
    if nodes.recvFrom source rank ≠ some rank then
      nodes.proxyDestination source rank = none
    else
      nodes.hasProxyInfo source rank = false ∧ nodes.proxyDestination source rank ≠ none ∧
        nodes.sendTo source rank = rank
  else if rank = source then
    nodes.hasProxyInfo source rank = false ∧ nodes.proxyDestination source rank = none ∧
      nodes.recvFrom source rank = some rank
  else
    source ∈ nodes.ipcRanks rank ∧ nodes.hasProxyInfo source rank = false ∧
      nodes.proxyDestination source rank = none ∧ nodes.recvFrom source rank = some rank ∧
        nodes.sendTo source rank = rank

/-! ## The order of the paths -/

variable {rank source destination r s : Fin size}

theorem sortedPaths_split (rank : Fin size) : ∃ own others, nodes.sortedPaths rank = own ++ others ∧
    (∀ path ∈ own, path.source = rank) ∧ ∀ path ∈ others, path.source ≠ rank := by
  let sorted := (nodes.paths rank).mergeSort fun a b =>
    !sortFn (nodes.nodeOf rank).length b a
  let keep : Path size → Bool := fun a => decide (a.toList.length < 3 ∨ a.second ≠ rank)
  let own := sorted.filter fun a => decide (a.source = rank)
  let others := sorted.filter fun a => !decide (a.source = rank)
  have hdirect : own.filter (fun a => !keep a) = [] := by
    refine filter_eq_nil_iff.mpr fun path hpath => ?_
    obtain ⟨hmem, hsource⟩ := mem_filter.mp hpath
    rw [mem_mergeSort] at hmem
    cases path with
    | direct s d => simp [keep, Path.toList]
    | proxied s p d =>
      exact absurd (of_decide_eq_true hsource) (nodes.mem_paths_proxied.mp hmem).2.2.2.1
  have hsplit : nodes.sortedPaths rank =
      own.filter keep ++ (others.filter keep ++ others.filter fun a => !keep a) := by
    have heq : nodes.sortedPaths rank =
        (own ++ others).filter keep ++ (own ++ others).filter fun a => !keep a := rfl
    rw [heq, filter_append, filter_append, hdirect, nil_append, append_assoc]
  refine ⟨_, _, hsplit, fun path hpath => ?_, fun path hpath => ?_⟩
  · have hown := (mem_filter.mp hpath).1
    exact of_decide_eq_true (mem_filter.mp hown).2
  · have hothers : path ∈ others := by
      obtain hpath | hpath := mem_append.mp hpath <;> exact (mem_filter.mp hpath).1
    simpa using (mem_filter.mp hothers).2

theorem mem_ringSendsAt {i : ℕ} : (source, r) ∈ nodes.ringSendsAt rank i ↔
    (nodes.ringRecvs r)[i]? = some (source, some rank) := by
  rw [ringSendsAt, List.mem_filterMap]
  constructor
  · rintro ⟨r', -, h⟩
    split at h
    next source' neighbor heq =>
      simp only [Option.ite_none_right_eq_some, Option.some.injEq, Prod.mk.injEq] at h
      obtain ⟨rfl, rfl, rfl⟩ := h
      exact heq
    next => cases h
  · intro h
    refine ⟨r, mem_finRange r, ?_⟩
    rw [h]
    exact if_pos rfl

theorem mem_ringSends : (source, r) ∈ nodes.ringSends rank ↔
    (source, some rank) ∈ nodes.ringRecvs r := by
  rw [ringSends, mem_flatMap]
  constructor
  · rintro ⟨i, -, h⟩
    exact mem_of_getElem? (nodes.mem_ringSendsAt.1 h)
  · intro h
    obtain ⟨i, hi⟩ := mem_iff_getElem?.mp h
    have hlt : i < (nodes.ringRecvs r).length := (List.getElem?_eq_some_iff.mp hi).1
    have hle : (nodes.ringRecvs r).length ≤ nodes.rounds :=
      le_max_of_le (mem_map.mpr ⟨r, mem_finRange r, rfl⟩) le_rfl
    exact ⟨i, mem_range.mpr (hlt.trans_le hle), nodes.mem_ringSendsAt.2 hi⟩

def ringRecv (rank : Fin size) (neighbors : List (Fin size)) :
    Path size → Option (Fin size × Option (Fin size))
  | .direct source destination =>
    if destination = rank then some (source, (closest source neighbors).2) else none
  | .proxied _ _ _ => none

theorem foldl_ringStep_others {others : List (Path size)} (h : ∀ path ∈ others, path.source ≠ rank)
    (st : RingState size) :
    (others.foldl (nodes.ringStep rank) st).ringRecvs =
      st.ringRecvs ++ others.filterMap (ringRecv rank st.neighbors) := by
  induction others generalizing st with
  | nil => simp
  | cons path others ih =>
    have hsource := h path mem_cons_self
    have ih := ih fun path hpath => h path (mem_cons_of_mem _ hpath)
    rw [foldl_cons, ih, filterMap_cons]
    cases path with
    | proxied s p d => rfl
    | direct s d =>
      have hne : s ≠ rank := hsource
      rw [ringStep, if_neg hne]
      by_cases hd : d = rank <;> simp [ringRecv, hd]

theorem foldl_ringStep_own {own : List (Path size)} (h : ∀ path ∈ own, path.source = rank)
    (st : RingState size) : (own.foldl (nodes.ringStep rank) st).ringRecvs = st.ringRecvs ∧
    ∀ d, d ∈ (own.foldl (nodes.ringStep rank) st).neighbors ↔ d ∈ st.neighbors ∨
      .direct rank d ∈ own ∧ nodes.rankNode d =
        (nodes.rankNode rank + nodes.nodeRanks.length - 1) % nodes.nodeRanks.length := by
  induction own generalizing st with
  | nil => simp
  | cons path own ih =>
    have hsource := h path mem_cons_self
    obtain ⟨hrecvs, hneighbors⟩ := ih (fun path hpath => h path (mem_cons_of_mem _ hpath))
      (nodes.ringStep rank st path)
    rw [foldl_cons]
    cases path with
    | proxied s p d =>
      refine ⟨hrecvs, fun d => ?_⟩
      rw [hneighbors]
      simp [ringStep]
    | direct s d' =>
      obtain rfl : s = rank := hsource
      rw [ringStep, if_pos rfl] at hrecvs hneighbors
      rw [ringStep, if_pos rfl]
      split_ifs at hrecvs hneighbors ⊢ with hnode
      · refine ⟨hrecvs, fun d => ?_⟩
        rw [hneighbors]
        simp only [mem_append, mem_cons, Path.direct.injEq, true_and]
        grind
      · refine ⟨hrecvs, fun d => ?_⟩
        rw [hneighbors]
        simp only [mem_cons, Path.direct.injEq, true_and]
        grind

theorem mem_sortedPaths_direct : .direct source destination ∈ nodes.sortedPaths rank ↔
    ¬ nodes.SameNode source destination ∧ destination = nodes.proxyOf source destination ∧
      (source = rank ∨ destination = rank) := by
  rw [(nodes.sortedPaths_perm rank).mem_iff, mem_paths_direct]

theorem exists_neighbors (rank : Fin size) : ∃ neighbors,
    (∀ d, d ∈ neighbors ↔ d ∈ nodes.sendRanks rank ∧ nodes.rankNode d =
      (nodes.rankNode rank + nodes.nodeRanks.length - 1) % nodes.nodeRanks.length) ∧
    ∀ source neighbor, (source, neighbor) ∈ nodes.ringRecvs rank ↔
      source ∈ nodes.recvRanks rank ∧ neighbor = (closest source neighbors).2 := by
  obtain ⟨own, others, hsplit, hown, hothers⟩ := nodes.sortedPaths_split rank
  obtain ⟨hrecvs, hneighbors⟩ := nodes.foldl_ringStep_own hown {}
  have hmem : ∀ path, path ∈ nodes.sortedPaths rank ↔ path ∈ own ∨ path ∈ others := by
    intro path
    rw [hsplit, mem_append]
  refine ⟨(own.foldl (nodes.ringStep rank) {}).neighbors, fun d => ?_, fun source neighbor => ?_⟩
  · have hsend : .direct rank d ∈ own ↔ d ∈ nodes.sendRanks rank := by
      rw [mem_sendRanks]
      constructor
      · intro h
        obtain ⟨hnode, hproxy, -⟩ := nodes.mem_sortedPaths_direct.1 ((hmem _).mpr (.inl h))
        exact ⟨hnode, hproxy⟩
      · rintro ⟨hnode, hproxy⟩
        have hpath := nodes.mem_sortedPaths_direct.2 ⟨hnode, hproxy, .inl (Eq.refl rank)⟩
        exact ((hmem _).mp hpath).resolve_right fun h => hothers _ h rfl
    rw [hneighbors, hsend]
    exact or_iff_right not_mem_nil
  · rw [ringRecvs, hsplit, foldl_append, nodes.foldl_ringStep_others hothers, hrecvs]
    simp only [nil_append, List.mem_filterMap]
    rw [mem_recvRanks]
    constructor
    · rintro ⟨path, hpath, h⟩
      cases path with
      | proxied s p d => cases h
      | direct s d =>
        simp only [ringRecv, Option.ite_none_right_eq_some, Option.some.injEq, Prod.mk.injEq] at h
        obtain ⟨rfl, rfl, rfl⟩ := h
        obtain ⟨hnode, hproxy, -⟩ := nodes.mem_sortedPaths_direct.1 ((hmem _).mpr (.inr hpath))
        exact ⟨⟨hnode, hproxy⟩, rfl⟩
    · rintro ⟨⟨hnode, hproxy⟩, rfl⟩
      have hpath := nodes.mem_sortedPaths_direct.2 ⟨hnode, hproxy, .inr (Eq.refl rank)⟩
      have hne : source ≠ rank := fun h => hnode (h ▸ rfl)
      refine ⟨.direct source rank, ((hmem _).mp hpath).resolve_left fun h => hne (hown _ h), ?_⟩
      exact if_pos rfl

theorem distance_lt (v source : Fin size) : distance v source < size := by
  have hsize : 0 < size := Fin.pos v
  have hmod := Nat.mod_lt (((v + 2 ^ 64 - source) % 2 ^ 64 + size) % 2 ^ 64) hsize
  unfold distance
  dsimp only
  split_ifs <;> omega

theorem closest_eq {neighbors : List (Fin size)} {v : Fin size} (hne : neighbors ≠ [])
    (h : ∀ d ∈ neighbors, d = v) (source : Fin size) : (closest source neighbors).2 = some v := by
  obtain ⟨d, rest, rfl⟩ := exists_cons_of_ne_nil hne
  have hrest : ∀ d ∈ rest, d = v := fun d hd => h d (mem_cons_of_mem _ hd)
  obtain rfl : d = v := h d mem_cons_self
  rw [closest, foldl_cons, if_pos (distance_lt d source)]
  clear h hne
  induction rest with
  | nil => rfl
  | cons v rest ih =>
    obtain rfl := hrest v mem_cons_self
    rw [foldl_cons, if_neg (lt_irrefl _)]
    exact ih fun d hd => hrest d (mem_cons_of_mem _ hd)

end Nodes

/-! ## Consecutive nodes -/

section Consecutive

variable {numNodes perNode : ℕ}

abbrev rankAt (node : Fin numNodes) (localRank : Fin perNode) : Fin (numNodes * perNode) :=
  finProdFinEquiv (node, localRank)

def node (rank : Fin (numNodes * perNode)) : Fin numNodes := (finProdFinEquiv.symm rank).1

def localRank (rank : Fin (numNodes * perNode)) : Fin perNode := (finProdFinEquiv.symm rank).2

def rowOf (perNode : ℕ) (node : Fin numNodes) : List (Fin (numNodes * perNode)) :=
  (finRange perNode).map (rankAt node)

theorem rankAt_node_localRank (rank : Fin (numNodes * perNode)) :
    rankAt (node rank) (localRank rank) = rank :=
  finProdFinEquiv.apply_symm_apply rank

theorem mem_rowOf {node' : Fin numNodes} {rank : Fin (numNodes * perNode)} :
    rank ∈ rowOf perNode node' ↔ node rank = node' := by
  rw [rowOf, mem_map]
  constructor
  · rintro ⟨l, -, rfl⟩
    simp [node, rankAt]
  · rintro rfl
    exact ⟨localRank rank, mem_finRange _, rankAt_node_localRank rank⟩

def consecutive (numNodes perNode : ℕ) (hpos : 0 < perNode) : Nodes (numNodes * perNode) where
  nodeRanks := (finRange numNodes).map (rowOf perNode)
  nodup := by
    rw [← List.flatMap_def]
    refine List.nodup_flatMap.mpr ⟨fun n _ => ?_, ?_⟩
    · refine (List.nodup_finRange perNode).map fun a b hab => ?_
      exact (Prod.mk.inj (finProdFinEquiv.injective hab)).2
    · refine (List.nodup_finRange numNodes).imp fun {a b} hne r ha hb => hne ?_
      exact (mem_rowOf.1 ha).symm.trans (mem_rowOf.1 hb)
  cover rank := by
    rw [← List.flatMap_def, List.mem_flatMap]
    exact ⟨node rank, List.mem_finRange _, mem_rowOf.2 rfl⟩
  ne_nil list hlist := by
    obtain ⟨n, -, rfl⟩ := List.mem_map.mp hlist
    rw [rowOf, ne_eq, List.map_eq_nil_iff, ← List.length_eq_zero_iff, List.length_finRange]
    exact hpos.ne'

variable (hpos : 0 < perNode) {rank source destination r s : Fin (numNodes * perNode)}

theorem nodeOf_consecutive (rank : Fin (numNodes * perNode)) :
    (consecutive _ _ hpos).nodeOf rank = rowOf perNode (node rank) := by
  refine ((consecutive _ _ hpos).eq_nodeOf ?_ (mem_rowOf.2 rfl)).symm
  exact mem_map.mpr ⟨node rank, mem_finRange _, rfl⟩

theorem sameNode_consecutive : (consecutive _ _ hpos).SameNode r s ↔ node r = node s := by
  unfold Nodes.SameNode
  rw [Nodes.nodeOf_eq_iff, nodeOf_consecutive, mem_rowOf]

theorem findLocalRank_consecutive (rank : Fin (numNodes * perNode)) :
    (consecutive _ _ hpos).findLocalRank rank = localRank rank := by
  have hlt : (localRank rank : ℕ) < (rowOf perNode (node rank)).length := by simp [rowOf]
  have hget : (rowOf perNode (node rank))[(localRank rank : ℕ)] = rank := by
    simp only [rowOf, getElem_map, getElem_finRange]
    exact rankAt_node_localRank rank
  have hnodup : (rowOf perNode (node rank)).Nodup :=
    (nodup_flatten.mp (consecutive _ _ hpos).nodup).1 _
      (mem_map.mpr ⟨node rank, mem_finRange _, rfl⟩)
  rw [Nodes.findLocalRank, nodeOf_consecutive]
  have hidx := hnodup.idxOf_getElem _ hlt
  rwa [hget] at hidx

theorem proxyOf_consecutive (source destination : Fin (numNodes * perNode)) :
    (consecutive _ _ hpos).proxyOf source destination =
      rankAt (node destination) (localRank source) := by
  have hlen : (rowOf perNode (node destination)).length = perNode := by simp [rowOf]
  have hlt : (localRank source : ℕ) < (rowOf perNode (node destination)).length := by simp [rowOf]
  rw [Nodes.proxyOf, Nodes.receiver, nodeOf_consecutive, findLocalRank_consecutive, hlen,
    Nat.mod_eq_of_lt (localRank source).isLt, getD_eq_getElem _ _ hlt]
  simp [rowOf]

theorem rankNode_consecutive (rank : Fin (numNodes * perNode)) :
    (consecutive _ _ hpos).rankNode rank = node rank := by
  have hlt : (node rank : ℕ) < ((finRange numNodes).map (rowOf perNode)).length := by simp
  have hget : ∀ n (hn : n < ((finRange numNodes).map (rowOf perNode)).length),
      rank ∈ ((finRange numNodes).map (rowOf perNode))[n] ↔ (node rank : ℕ) = n := by
    intro n hn
    rw [getElem_map, getElem_finRange, mem_rowOf, Fin.ext_iff]
    rfl
  rw [Nodes.rankNode]
  refine (findIdx_eq hlt).mpr ⟨?_, ?_⟩
  · exact decide_eq_true ((hget _ hlt).mpr rfl)
  · intro n hn
    refine decide_eq_false fun hmem => ?_
    exact absurd ((hget n (hn.trans hlt)).mp hmem) hn.ne'

def prevNode (n : Fin numNodes) : Fin numNodes :=
  ⟨(n + numNodes - 1) % numNodes, Nat.mod_lt _ (Fin.pos n)⟩

def prevRank (rank : Fin (numNodes * perNode)) : Fin (numNodes * perNode) :=
  rankAt (prevNode (node rank)) (localRank rank)

theorem node_rankAt (n : Fin numNodes) (l : Fin perNode) : node (rankAt n l) = n := by
  simp [node]

theorem localRank_rankAt (n : Fin numNodes) (l : Fin perNode) : localRank (rankAt n l) = l := by
  simp [localRank]

theorem rank_ext (hnode : node r = node s) (hlocal : localRank r = localRank s) : r = s := by
  rw [← rankAt_node_localRank r, hnode, hlocal, rankAt_node_localRank]

theorem eq_proxyOf_consecutive :
    destination = (consecutive _ _ hpos).proxyOf source destination ↔
      localRank destination = localRank source := by
  rw [proxyOf_consecutive]
  constructor
  · intro h
    rw [h, localRank_rankAt]
  · intro h
    rw [← h, rankAt_node_localRank]

theorem mem_sendRanks_consecutive :
    destination ∈ (consecutive _ _ hpos).sendRanks rank ↔
      node rank ≠ node destination ∧ localRank destination = localRank rank := by
  rw [Nodes.mem_sendRanks, sameNode_consecutive, eq_proxyOf_consecutive]

theorem mem_recvRanks_consecutive :
    source ∈ (consecutive _ _ hpos).recvRanks rank ↔
      node source ≠ node rank ∧ localRank rank = localRank source := by
  rw [Nodes.mem_recvRanks, sameNode_consecutive, eq_proxyOf_consecutive]

theorem prevNode_ne {n m : Fin numNodes} (h : n ≠ m) : prevNode n ≠ n := by
  have hn := n.isLt
  have hm := m.isLt
  intro heq
  have hval := congrArg Fin.val heq
  simp only [prevNode] at hval
  have hone : numNodes ≠ 1 := fun h1 => h (Fin.ext (by omega))
  by_cases hzero : (n : ℕ) = 0
  · rw [hzero, Nat.zero_add, Nat.mod_eq_of_lt (by omega)] at hval
    omega
  · rw [show (n : ℕ) + numNodes - 1 = (n - 1) + numNodes by omega, Nat.add_mod_right,
      Nat.mod_eq_of_lt (by omega)] at hval
    omega

theorem prevRank_ne {n : Fin numNodes} (h : n ≠ node rank) : prevRank rank ≠ rank := by
  intro heq
  refine prevNode_ne h.symm ?_
  rw [← node_rankAt (prevNode (node rank)) (localRank rank)]
  exact congrArg node heq

theorem mem_ringRecvs_consecutive {neighbor : Option (Fin (numNodes * perNode))} :
    (source, neighbor) ∈ (consecutive _ _ hpos).ringRecvs rank ↔
      node source ≠ node rank ∧ localRank rank = localRank source ∧
        neighbor = some (prevRank rank) := by
  obtain ⟨neighbors, hmem, hrecvs⟩ := (consecutive _ _ hpos).exists_neighbors rank
  have hlen : (consecutive numNodes _ hpos).nodeRanks.length = numNodes := by
    simp [consecutive]
  have hneighbor : ∀ d, d ∈ neighbors ↔ node rank ≠ node d ∧ d = prevRank rank := by
    intro d
    rw [hmem, mem_sendRanks_consecutive, rankNode_consecutive, rankNode_consecutive, hlen]
    constructor
    · rintro ⟨⟨hne, hlocal⟩, hnode⟩
      refine ⟨hne, rank_ext ?_ ?_⟩
      · rw [prevRank, node_rankAt]
        exact Fin.ext hnode
      · rw [prevRank, localRank_rankAt, hlocal]
    · rintro ⟨hne, rfl⟩
      refine ⟨⟨hne, ?_⟩, ?_⟩
      · rw [prevRank, localRank_rankAt]
      · rw [prevRank, node_rankAt]
        rfl
  rw [hrecvs, mem_recvRanks_consecutive, and_assoc]
  refine and_congr_right fun hne => and_congr_right fun _ => ?_
  have hprev : prevRank rank ∈ neighbors := by
    rw [hneighbor, prevRank, node_rankAt]
    exact ⟨(prevNode_ne hne.symm).symm, rfl⟩
  rw [Nodes.closest_eq (ne_nil_of_mem hprev) (fun d hd => ((hneighbor d).mp hd).2) source]

theorem lookup_of_unique {α β : Type*} [BEq α] [LawfulBEq α] {l : List (α × β)} {a : α} {b : β}
    (hmem : (a, b) ∈ l) (h : ∀ b', (a, b') ∈ l → b' = b) : l.lookup a = some b := by
  cases hlookup : l.lookup a with
  | none =>
    have hnone := lookup_eq_none_iff.mp hlookup (a, b) hmem
    simp at hnone
  | some b' =>
    obtain ⟨l₁, l₂, rfl, -⟩ := lookup_eq_some_iff.mp hlookup
    rw [h b' (by simp)]

theorem lookup_eq_none {α β : Type*} [BEq α] [LawfulBEq α] {l : List (α × β)} {a : α}
    (h : ∀ b, (a, b) ∉ l) : l.lookup a = none := by
  refine lookup_eq_none_iff.mpr fun p hp => ?_
  rw [bne_iff_ne]
  rintro rfl
  exact h p.2 hp

theorem recvFrom_of_ring (hnode : node source ≠ node rank)
    (hlocal : localRank rank = localRank source) :
    (consecutive _ _ hpos).recvFrom source rank = some (prevRank rank) := by
  rw [Nodes.recvFrom, lookup_of_unique ((mem_ringRecvs_consecutive hpos).mpr ⟨hnode, hlocal, rfl⟩)
    fun b hb => ((mem_ringRecvs_consecutive hpos).mp hb).2.2]
  rfl

theorem recvFrom_of_not_ring (h : ¬ (node source ≠ node rank ∧ localRank rank = localRank source)) :
    (consecutive _ _ hpos).recvFrom source rank = some rank := by
  rw [Nodes.recvFrom, lookup_eq_none fun b hb => h ?_]
  · rfl
  · obtain ⟨hnode, hlocal, -⟩ := (mem_ringRecvs_consecutive hpos).mp hb
    exact ⟨hnode, hlocal⟩

theorem nextNode_lt (n : Fin numNodes) : (n + 1 : ℕ) % numNodes < numNodes :=
  Nat.mod_lt _ (Fin.pos n)

def nextNode (n : Fin numNodes) : Fin numNodes := ⟨(n + 1) % numNodes, nextNode_lt n⟩

theorem prevNode_nextNode (n : Fin numNodes) : prevNode (nextNode n) = n := by
  apply Fin.ext
  simp only [prevNode, nextNode]
  have hn := n.isLt
  by_cases hlast : (n : ℕ) + 1 = numNodes
  · rw [hlast, Nat.mod_self, Nat.zero_add, Nat.mod_eq_of_lt (by omega)]
    omega
  · rw [Nat.mod_eq_of_lt (by omega : (n : ℕ) + 1 < numNodes),
      show (n : ℕ) + 1 + numNodes - 1 = n + numNodes by omega, Nat.add_mod_right,
      Nat.mod_eq_of_lt hn]

theorem nextNode_prevNode (n : Fin numNodes) : nextNode (prevNode n) = n := by
  apply Fin.ext
  simp only [prevNode, nextNode]
  have hn := n.isLt
  rw [Nat.mod_add_mod, show (n : ℕ) + numNodes - 1 + 1 = n + numNodes by omega, Nat.add_mod_right,
    Nat.mod_eq_of_lt hn]

def nextRank (rank : Fin (numNodes * perNode)) : Fin (numNodes * perNode) :=
  rankAt (nextNode (node rank)) (localRank rank)

theorem eq_prevRank_iff : r = prevRank s ↔ s = nextRank r := by
  constructor
  · rintro rfl
    rw [nextRank, prevRank, node_rankAt, localRank_rankAt, nextNode_prevNode, rankAt_node_localRank]
  · rintro rfl
    rw [nextRank, prevRank, node_rankAt, localRank_rankAt, prevNode_nextNode, rankAt_node_localRank]

theorem mem_ringSends_consecutive :
    (source, r) ∈ (consecutive _ _ hpos).ringSends rank ↔
      node source ≠ node r ∧ localRank r = localRank source ∧ r = nextRank rank := by
  rw [Nodes.mem_ringSends, mem_ringRecvs_consecutive, Option.some.injEq, eq_prevRank_iff]

theorem sendTo_of_ring (hnode : node source ≠ node (nextRank rank))
    (hlocal : localRank rank = localRank source) :
    (consecutive _ _ hpos).sendTo source rank = nextRank rank := by
  have hlocal' : localRank (nextRank rank) = localRank source := by
    rw [nextRank, localRank_rankAt, hlocal]
  rw [Nodes.sendTo, lookup_of_unique ((mem_ringSends_consecutive hpos).mpr ⟨hnode, hlocal', rfl⟩)
    fun b hb => ((mem_ringSends_consecutive hpos).mp hb).2.2]
  rfl

theorem sendTo_of_not_ring
    (h : ¬ (node source ≠ node (nextRank rank) ∧ localRank rank = localRank source)) :
    (consecutive _ _ hpos).sendTo source rank = rank := by
  rw [Nodes.sendTo, lookup_eq_none fun b hb => h ?_]
  · rfl
  · obtain ⟨hnode, hlocal, rfl⟩ := (mem_ringSends_consecutive hpos).mp hb
    rw [nextRank, localRank_rankAt] at hlocal
    exact ⟨hnode, hlocal⟩

theorem mem_proxyDestinationInfo_consecutive :
    (source, r) ∈ (consecutive _ _ hpos).proxyDestinationInfo rank ↔
      node source ≠ node rank ∧ localRank rank ≠ localRank source ∧
        r = rankAt (node rank) (localRank source) := by
  rw [Nodes.mem_proxyDestinationInfo, sameNode_consecutive, proxyOf_consecutive]
  refine and_congr_right fun _ => ?_
  rw [and_comm]
  refine and_congr_left fun heq => ?_
  rw [heq, ne_eq, ne_eq, not_iff_not]
  constructor
  · intro h
    rw [← h, localRank_rankAt]
  · intro h
    rw [← h, rankAt_node_localRank]

theorem proxyDestination_of_proxied (hnode : node source ≠ node rank)
    (hlocal : localRank rank ≠ localRank source) :
    (consecutive _ _ hpos).proxyDestination source rank =
      some (rankAt (node rank) (localRank source)) :=
  lookup_of_unique ((mem_proxyDestinationInfo_consecutive hpos).mpr ⟨hnode, hlocal, rfl⟩)
    fun _ hb => ((mem_proxyDestinationInfo_consecutive hpos).mp hb).2.2

theorem proxyDestination_of_not_proxied
    (h : ¬ (node source ≠ node rank ∧ localRank rank ≠ localRank source)) :
    (consecutive _ _ hpos).proxyDestination source rank = none :=
  lookup_eq_none fun _ hb =>
    h (((mem_proxyDestinationInfo_consecutive hpos).mp hb).imp_right And.left)

theorem mem_ipcRanks_consecutive :
    r ∈ (consecutive _ _ hpos).ipcRanks rank ↔ node r = node rank ∧ r ≠ rank := by
  rw [Nodes.ipcRanks, (stablePartition_perm _ _).mem_iff, mem_filter, decide_eq_true_iff,
    nodeOf_consecutive, mem_rowOf]
  exact and_iff_right (mem_finRange r)

theorem hasProxyInfo_consecutive
    (h : ¬ (node source ≠ node rank ∧ localRank rank = localRank source)) :
    (consecutive _ _ hpos).hasProxyInfo source rank = false := by
  refine any_eq_false.mpr fun info hinfo heq => h ?_
  obtain ⟨s, d⟩ := info
  obtain rfl : s = source := of_decide_eq_true heq
  obtain ⟨hnode, hproxy, -⟩ := Nodes.mem_proxyInfo _ |>.mp hinfo
  rw [sameNode_consecutive] at hnode
  rw [proxyOf_consecutive] at hproxy
  rw [hproxy, node_rankAt, localRank_rankAt]
  exact ⟨hnode, rfl⟩

/-- The checks of a broadcast hold. -/
theorem routeChecks_consecutive (source rank : Fin (numNodes * perNode)) :
    (consecutive _ _ hpos).RouteChecks source rank := by
  unfold Nodes.RouteChecks
  split_ifs with hother hrecv hsource
  · refine proxyDestination_of_not_proxied hpos fun h => hrecv ?_
    exact recvFrom_of_not_ring hpos fun hring => h.2 hring.2
  · have hnode : node source ≠ node rank := by
      intro h
      exact hother.2 ((mem_ipcRanks_consecutive hpos).mpr ⟨h, hother.1.symm⟩)
    have hlocal : localRank rank ≠ localRank source := by
      intro h
      rw [recvFrom_of_ring hpos hnode h] at hrecv
      exact prevRank_ne hnode (Option.some.inj (not_not.mp hrecv))
    refine ⟨hasProxyInfo_consecutive hpos fun h => hlocal h.2, ?_,
      sendTo_of_not_ring hpos fun h => hlocal h.2⟩
    rw [proxyDestination_of_proxied hpos hnode hlocal]
    exact Option.some_ne_none _
  · subst hsource
    exact ⟨hasProxyInfo_consecutive hpos fun h => h.1 rfl,
      proxyDestination_of_not_proxied hpos fun h => h.1 rfl,
      recvFrom_of_not_ring hpos fun h => h.1 rfl⟩
  · have hmem : source ∈ (consecutive _ _ hpos).ipcRanks rank :=
      by_contra fun hmem => hother ⟨hsource, hmem⟩
    have hnode := ((mem_ipcRanks_consecutive hpos).mp hmem).1
    refine ⟨hmem, hasProxyInfo_consecutive hpos fun h => h.1 hnode,
      proxyDestination_of_not_proxied hpos fun h => h.1 hnode,
      recvFrom_of_not_ring hpos fun h => h.1 hnode, sendTo_of_not_ring hpos fun h => ?_⟩
    exact hsource (rank_ext hnode.symm h.2)

end Consecutive

/-! ## Routes -/

/-- How the data of a source get to the other ranks: along a line of ranks, and from these, or from
the source, to the others of the node. -/
structure Ring (size : ℕ) where
  ipcRanks : Fin size → List (Fin size)
  recvFrom : Fin size → Fin size → Fin size
  sendTo : Fin size → Fin size → Fin size
  /-- The rank of the node that the tensor is copied from. -/
  copyFrom : Fin size → Fin size → Option (Fin size)
  position : Fin size → Fin size → ℕ
  ipcRanks_symm : ∀ {r s}, r ∈ ipcRanks s → s ∈ ipcRanks r
  recvFrom_source : ∀ s, recvFrom s s = s
  sendTo_eq_iff : ∀ {s r q}, q ≠ r → (sendTo s r = q ↔ recvFrom s q = r)
  recvFrom_of_sendTo : ∀ {s r}, sendTo s r ≠ r → r ≠ s → recvFrom s r ≠ r
  position_lt : ∀ {s r}, recvFrom s r ≠ r → position s (recvFrom s r) < position s r
  copyFrom_spec : ∀ {s r p}, copyFrom s r = some p →
    p ∈ ipcRanks r ∧ r ≠ s ∧ recvFrom s r = r ∧ (p = s ∨ recvFrom s p ≠ p)
  cover : ∀ s r, r = s ∨ recvFrom s r ≠ r ∨ ∃ p, copyFrom s r = some p

section Consecutive

variable {numNodes perNode : ℕ} (hpos : 0 < perNode)

variable {source rank r s : Fin (numNodes * perNode)}

def OnRing (source rank : Fin (numNodes * perNode)) : Prop :=
  node source ≠ node rank ∧ localRank rank = localRank source

theorem recvFrom_getD_of_onRing (h : OnRing source rank) :
    ((consecutive _ _ hpos).recvFrom source rank).getD rank = prevRank rank := by
  rw [recvFrom_of_ring hpos h.1 h.2]
  rfl

theorem recvFrom_getD_ne_iff :
    ((consecutive _ _ hpos).recvFrom source rank).getD rank ≠ rank ↔
      OnRing source rank := by
  constructor
  · intro h
    by_contra hnot
    apply h
    rw [recvFrom_of_not_ring hpos hnot]
    rfl
  · intro h
    rw [recvFrom_getD_of_onRing hpos h]
    exact prevRank_ne h.1

theorem sendTo_eq_iff (hne : r ≠ rank) :
    (consecutive _ _ hpos).sendTo source rank = r ↔
      ((consecutive _ _ hpos).recvFrom source r).getD r = rank := by
  constructor
  · rintro rfl
    have hring : node source ≠ node (nextRank rank) ∧ localRank rank = localRank source :=
      by_contra fun h => hne (sendTo_of_not_ring hpos h)
    have hlocal : localRank (nextRank rank) = localRank source := by
      rw [nextRank, localRank_rankAt, hring.2]
    rw [sendTo_of_ring hpos hring.1 hring.2, recvFrom_getD_of_onRing hpos ⟨hring.1, hlocal⟩]
    exact (eq_prevRank_iff.2 rfl).symm
  · intro h
    have hring : OnRing source r := by
      rw [← recvFrom_getD_ne_iff hpos, h]
      exact hne.symm
    rw [recvFrom_getD_of_onRing hpos hring] at h
    obtain rfl : r = nextRank rank := eq_prevRank_iff.1 h.symm
    have hlocal := hring.2
    rw [nextRank, localRank_rankAt] at hlocal
    exact sendTo_of_ring hpos hring.1 hlocal

theorem onRing_of_sendTo (h : (consecutive _ _ hpos).sendTo source rank ≠ rank)
    (hne : rank ≠ source) : OnRing source rank := by
  have hring : node source ≠ node (nextRank rank) ∧ localRank rank = localRank source :=
    by_contra fun hnot => h (sendTo_of_not_ring hpos hnot)
  exact ⟨fun hnode => hne (rank_ext hnode.symm hring.2), hring.2⟩

def steps (n m : Fin numNodes) : ℕ := (m + numNodes - n) % numNodes

theorem steps_prevNode_lt {n m : Fin numNodes} (h : n ≠ m) : steps n (prevNode m) < steps n m := by
  have hn := n.isLt
  have hm := m.isLt
  have hne : (n : ℕ) ≠ m := fun heq => h (Fin.ext heq)
  unfold steps prevNode
  dsimp only
  obtain hlt | hlt := Nat.lt_or_gt_of_ne hne
  · rw [show (m : ℕ) + numNodes - 1 = (m - 1) + numNodes by omega, Nat.add_mod_right,
      Nat.mod_eq_of_lt (by omega : (m : ℕ) - 1 < numNodes),
      show (m : ℕ) - 1 + numNodes - n = (m - 1 - n) + numNodes by omega, Nat.add_mod_right,
      show (m : ℕ) + numNodes - n = (m - n) + numNodes by omega, Nat.add_mod_right,
      Nat.mod_eq_of_lt (by omega), Nat.mod_eq_of_lt (by omega)]
    omega
  · rw [Nat.mod_eq_of_lt (by omega : (m : ℕ) + numNodes - n < numNodes)]
    by_cases hzero : (m : ℕ) = 0
    · rw [hzero, Nat.zero_add, Nat.mod_eq_of_lt (by omega : numNodes - 1 < numNodes),
        show numNodes - 1 + numNodes - n = (numNodes - 1 - n) + numNodes by omega,
        Nat.add_mod_right, Nat.mod_eq_of_lt (by omega)]
      omega
    · rw [show (m : ℕ) + numNodes - 1 = (m - 1) + numNodes by omega, Nat.add_mod_right,
        Nat.mod_eq_of_lt (by omega : (m : ℕ) - 1 < numNodes), Nat.mod_eq_of_lt (by omega)]
      omega

def copyFrom (hpos : 0 < perNode) (source rank : Fin (numNodes * perNode)) :
    Option (Fin (numNodes * perNode)) :=
  ((consecutive numNodes perNode hpos).proxyDestination source rank).or
    (if source ∈ (consecutive numNodes perNode hpos).ipcRanks rank then some source else none)

theorem copyFrom_of_ne (hnode : node source ≠ node rank)
    (hlocal : localRank rank ≠ localRank source) :
    copyFrom hpos source rank = some (rankAt (node rank) (localRank source)) := by
  rw [copyFrom, proxyDestination_of_proxied hpos hnode hlocal, Option.some_or]

theorem copyFrom_of_node_eq (hnode : node source = node rank) (hne : source ≠ rank) :
    copyFrom hpos source rank = some source := by
  rw [copyFrom, proxyDestination_of_not_proxied hpos fun h => h.1 hnode, Option.none_or,
    if_pos ((mem_ipcRanks_consecutive hpos).mpr ⟨hnode, hne⟩)]

theorem copyFrom_of_onRing (h : OnRing source rank) : copyFrom hpos source rank = none := by
  rw [copyFrom, proxyDestination_of_not_proxied hpos fun h' => h'.2 h.2, Option.none_or,
    if_neg fun hmem => h.1 ((mem_ipcRanks_consecutive hpos).mp hmem).1]

theorem copyFrom_self (rank : Fin (numNodes * perNode)) : copyFrom hpos rank rank = none := by
  rw [copyFrom, proxyDestination_of_not_proxied hpos fun h => h.1 rfl, Option.none_or,
    if_neg fun hmem => ((mem_ipcRanks_consecutive hpos).mp hmem).2 rfl]

theorem copyFrom_spec (h : copyFrom hpos source rank = some r) :
    (node r = node rank ∧ r ≠ rank) ∧ rank ≠ source ∧ ¬ OnRing source rank ∧
      (r = source ∨ OnRing source r) := by
  have hring : ¬ OnRing source rank := by
    intro hring
    rw [copyFrom_of_onRing hpos hring] at h
    cases h
  have hne : rank ≠ source := by
    rintro rfl
    rw [copyFrom_self] at h
    cases h
  by_cases hnode : node source = node rank
  · rw [copyFrom_of_node_eq hpos hnode hne.symm] at h
    cases h
    exact ⟨⟨hnode, hne.symm⟩, hne, hring, .inl rfl⟩
  · have hlocal : localRank rank ≠ localRank source := fun hlocal => hring ⟨hnode, hlocal⟩
    rw [copyFrom_of_ne hpos hnode hlocal] at h
    cases h
    refine ⟨⟨node_rankAt _ _, fun heq => hlocal ?_⟩, hne, hring, .inr ⟨?_, localRank_rankAt _ _⟩⟩
    · rw [← heq, localRank_rankAt]
    · rw [node_rankAt]
      exact hnode

def ring (numNodes perNode : ℕ) (hpos : 0 < perNode) : Ring (numNodes * perNode) where
  ipcRanks := (consecutive numNodes perNode hpos).ipcRanks
  recvFrom source rank := ((consecutive numNodes perNode hpos).recvFrom source rank).getD rank
  sendTo := (consecutive numNodes perNode hpos).sendTo
  copyFrom := copyFrom hpos
  position source rank := steps (node source) (node rank)
  ipcRanks_symm := by
    intro r s h
    rw [mem_ipcRanks_consecutive] at h ⊢
    exact ⟨h.1.symm, h.2.symm⟩
  recvFrom_source s := by
    rw [recvFrom_of_not_ring hpos fun h => h.1 rfl]
    rfl
  sendTo_eq_iff := sendTo_eq_iff hpos
  recvFrom_of_sendTo h hne := (recvFrom_getD_ne_iff hpos).mpr (onRing_of_sendTo hpos h hne)
  position_lt := by
    intro s r h
    have hring := (recvFrom_getD_ne_iff hpos).mp h
    rw [recvFrom_getD_of_onRing hpos hring, prevRank, node_rankAt]
    exact steps_prevNode_lt hring.1
  copyFrom_spec := by
    intro s r p h
    obtain ⟨hnode, hne, hring, hfrom⟩ := copyFrom_spec hpos h
    refine ⟨(mem_ipcRanks_consecutive hpos).mpr hnode, hne, ?_, ?_⟩
    · exact not_not.mp fun hrecv => hring ((recvFrom_getD_ne_iff hpos).mp hrecv)
    · exact hfrom.imp_right (recvFrom_getD_ne_iff hpos).mpr
  cover s r := by
    by_cases hne : r = s
    · exact .inl hne
    by_cases hnode : node s = node r
    · exact .inr (.inr ⟨s, copyFrom_of_node_eq hpos hnode (Ne.symm hne)⟩)
    by_cases hlocal : localRank r = localRank s
    · exact .inr (.inl ((recvFrom_getD_ne_iff hpos).mpr ⟨hnode, hlocal⟩))
    · exact .inr (.inr ⟨_, copyFrom_of_ne hpos hnode hlocal⟩)

end Consecutive

end AllGather
