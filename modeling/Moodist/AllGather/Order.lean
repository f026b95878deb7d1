import Moodist.AllGather.Ring
import Moodist.Foundation.Indexed

/-!
# The order of the lists of `AllGather::init`

The proxies and those that they forward to go through their lists in step, and so do the ranks of a
ring. Here is where in its list each entry stands, for consecutive nodes.
-/

namespace AllGather

open Foundation List Nodes

variable {size : ℕ}

/-! ## Sorted paths -/

def Path.local (ranksPerNode : ℕ) : Path size → ℕ
  | .direct _ _ => 0
  | .proxied _ proxy destination => forwardLocal ranksPerNode proxy destination

/-- `sortFn` compares these, one after the other. -/
def sortKey (ranksPerNode : ℕ) (a : Path size) : ℕ ×ₗ ℕ ×ₗ ℕᵒᵈ ×ₗ List (Fin size) :=
  toLex (a.toList.length, toLex (forward a, toLex (.toDual (a.local ranksPerNode), a.toList)))

theorem sortKey_lt_iff {ranksPerNode : ℕ} {a b : Path size} :
    sortKey ranksPerNode a < sortKey ranksPerNode b ↔
      a.toList.length < b.toList.length ∨ a.toList.length = b.toList.length ∧
        (forward a < forward b ∨ forward a = forward b ∧
          (b.local ranksPerNode < a.local ranksPerNode ∨
            a.local ranksPerNode = b.local ranksPerNode ∧ a.toList < b.toList)) := by
  rw [sortKey, sortKey, Prod.Lex.toLex_lt_toLex, Prod.Lex.toLex_lt_toLex, Prod.Lex.toLex_lt_toLex,
    OrderDual.toDual_lt_toDual, OrderDual.toDual_inj]

theorem sortFn_eq (ranksPerNode : ℕ) (a b : Path size) :
    sortFn ranksPerNode a b = decide (sortKey ranksPerNode a < sortKey ranksPerNode b) := by
  rw [Bool.eq_iff_iff, decide_eq_true_iff, sortKey_lt_iff]
  unfold sortFn
  by_cases hlen : a.toList.length = b.toList.length
  · by_cases hforward : forward a = forward b
    · rw [if_neg (not_not.mpr hlen), if_neg (not_not.mpr hforward)]
      simp only [hlen, hforward, lt_self_iff_false, false_or, true_and]
      cases a <;> cases b <;>
        simp only [Path.local, decide_eq_true_iff, lt_self_iff_false, false_or, true_and]
      · cases hlen
      · cases hlen
      · split_ifs with hlocal
        · simp [hlocal]
        · simp [not_not.mp hlocal]
    · simp [hlen, hforward]
  · simp [hlen]

theorem pairwise_mergeSort_sortFn (ranksPerNode : ℕ) (l : List (Path size)) :
    (l.mergeSort fun a b => !sortFn ranksPerNode b a).Pairwise fun a b =>
      sortKey ranksPerNode a ≤ sortKey ranksPerNode b := by
  have hle : (fun a b : Path size => !sortFn ranksPerNode b a) = fun a b =>
      decide (sortKey ranksPerNode a ≤ sortKey ranksPerNode b) := by
    funext a b
    rw [sortFn_eq, ← decide_not, decide_eq_decide, not_lt]
  rw [hle]
  exact pairwise_mergeSort_le _ _

/-- A partition does not change the order of what lies in one of its parts. -/
theorem filterMap_stablePartition {α β : Type*} {p : α → Bool} {l : List α} {f : α → Option β}
    (b : Bool) (h : ∀ x ∈ l, p x ≠ b → f x = none) :
    (stablePartition p l).filterMap f = l.filterMap f := by
  have hnone : (l.filter fun x => p x != b).filterMap f = [] := by
    refine filterMap_eq_nil_iff.mpr fun x hx => ?_
    obtain ⟨hx, hp⟩ := mem_filter.mp hx
    exact h x hx (bne_iff_ne.mp hp)
  have hsame : (l.filter fun x => p x == b).filterMap f = l.filterMap f := by
    rw [filterMap_filter]
    refine filterMap_congr fun x hx => ?_
    by_cases hp : p x = b
    · simp [hp]
    · simp [hp, h x hx hp]
  rw [stablePartition, filterMap_append]
  cases b with
  | true =>
    simp only [beq_true, Bool.bne_true] at hnone hsame
    rw [hnone, hsame, append_nil]
  | false =>
    simp only [beq_false, Bool.bne_false] at hnone hsame
    rw [hnone, hsame, nil_append]

namespace Nodes

variable (nodes : Nodes size) {rank : Fin size}

theorem pairwise_filterMap_sortedPaths {β : Type*} {f : Path size → Option β} {R : β → β → Prop}
    (own keep : Bool) (hown : ∀ a, decide (a.source = rank) ≠ own → f a = none)
    (hkeep : ∀ a, decide (a.toList.length < 3 ∨ a.second ≠ rank) ≠ keep → f a = none)
    (hR : ∀ a ∈ nodes.paths rank, ∀ b ∈ nodes.paths rank,
      sortKey (nodes.nodeOf rank).length a ≤ sortKey (nodes.nodeOf rank).length b →
        ∀ x ∈ f a, ∀ y ∈ f b, R x y) :
    ((nodes.sortedPaths rank).filterMap f).Pairwise R := by
  rw [sortedPaths, filterMap_stablePartition keep fun a _ => hkeep a,
    filterMap_stablePartition own fun a _ => hown a, pairwise_filterMap]
  refine (pairwise_mergeSort_sortFn _ _).imp_of_mem fun {a b} ha hb hle x hx y hy => ?_
  exact hR a (mem_mergeSort.mp ha) b (mem_mergeSort.mp hb) hle x hx y hy

/-- The ring takes its sources from `recvRanks`. -/
theorem ringRecvs_map_fst (rank : Fin size) :
    (nodes.ringRecvs rank).map Prod.fst = nodes.recvRanks rank := by
  obtain ⟨own, others, hsplit, hown, hothers⟩ := nodes.sortedPaths_split rank
  rw [ringRecvs, recvRanks, hsplit, foldl_append, nodes.foldl_ringStep_others hothers,
    (nodes.foldl_ringStep_own hown {}).1, nil_append, filterMap_append, map_filterMap]
  rw [filterMap_eq_nil_iff.mpr (?_ : ∀ path ∈ own, _ = none), nil_append]
  swap
  · intro path hpath
    cases path with
    | direct s d => exact if_neg fun h => h.1 (hown _ hpath)
    | proxied s p d => rfl
  refine filterMap_congr fun path hpath => ?_
  cases path with
  | direct s d =>
    have hs : s ≠ rank := hothers _ hpath
    by_cases hd : d = rank <;> simp [ringRecv, hs, hd]
  | proxied s p d => rfl

end Nodes

/-! ## Steps around the nodes -/

section Consecutive

variable {numNodes perNode : ℕ} {n n' m m' : Fin numNodes} {k : ℕ}

theorem steps_eq_iff :
    steps n m = k ↔ k < numNodes ∧ ((n : ℕ) + k = m ∨ (n : ℕ) + k = m + numNodes) := by
  have hn := n.isLt
  have hm := m.isLt
  unfold steps
  by_cases hle : (n : ℕ) ≤ m
  · rw [show (m : ℕ) + numNodes - n = m - n + numNodes by omega, Nat.add_mod_right,
      Nat.mod_eq_of_lt (by omega)]
    omega
  · rw [Nat.mod_eq_of_lt (by omega)]
    omega

theorem steps_lt (n m : Fin numNodes) : steps n m < numNodes := (steps_eq_iff.1 rfl).1

theorem steps_eq_zero_iff : steps n m = 0 ↔ n = m := by
  have hn := n.isLt
  have hm := m.isLt
  rw [steps_eq_iff, Fin.ext_iff]
  omega

theorem steps_pos (h : n ≠ m) : 0 < steps n m :=
  Nat.pos_of_ne_zero fun hzero => h (steps_eq_zero_iff.1 hzero)

theorem eq_of_steps_left (h : steps n m = steps n' m) : n = n' := by
  have hn := n.isLt
  have hn' := n'.isLt
  obtain ⟨hlt, heq⟩ := steps_eq_iff.1 h
  obtain ⟨-, heq'⟩ := steps_eq_iff.1 (rfl : steps n' m = steps n' m)
  apply Fin.ext
  omega

theorem eq_of_steps_right (h : steps n m = steps n m') : m = m' := by
  have hm := m.isLt
  have hm' := m'.isLt
  obtain ⟨hlt, heq⟩ := steps_eq_iff.1 h
  obtain ⟨-, heq'⟩ := steps_eq_iff.1 (rfl : steps n m' = steps n m')
  apply Fin.ext
  omega

theorem exists_steps_left (m : Fin numNodes) (hk : k < numNodes) : ∃ n, steps n m = k := by
  have hm := m.isLt
  by_cases hle : k ≤ m
  · exact ⟨⟨m - k, by omega⟩, steps_eq_iff.2 ⟨hk, .inl (by dsimp only; omega)⟩⟩
  · exact ⟨⟨m + numNodes - k, by omega⟩, steps_eq_iff.2 ⟨hk, .inr (by dsimp only; omega)⟩⟩

theorem exists_steps_right (n : Fin numNodes) (hk : k < numNodes) : ∃ m, steps n m = k := by
  have hn := n.isLt
  by_cases hlt : (n : ℕ) + k < numNodes
  · exact ⟨⟨n + k, hlt⟩, steps_eq_iff.2 ⟨hk, .inl rfl⟩⟩
  · exact ⟨⟨n + k - numNodes, by omega⟩, steps_eq_iff.2 ⟨hk, .inr (by dsimp only; omega)⟩⟩

theorem steps_nextNode (h : n ≠ nextNode m) : steps n (nextNode m) = steps n m + 1 := by
  have hpos := steps_pos h
  obtain ⟨hlt, heq⟩ := steps_eq_iff.1 (rfl : steps n (nextNode m) = steps n (nextNode m))
  have hm := m.isLt
  have hnext : (nextNode m : ℕ) = if (m : ℕ) + 1 < numNodes then (m : ℕ) + 1 else 0 := by
    unfold nextNode
    dsimp only
    split_ifs with hlast
    · exact Nat.mod_eq_of_lt hlast
    · rw [show (m : ℕ) + 1 = numNodes by omega, Nat.mod_self]
  have hsteps : steps n m = steps n (nextNode m) - 1 := by
    refine steps_eq_iff.2 ⟨by omega, ?_⟩
    split_ifs at hnext <;> omega
  omega

/-! ## Distances between ranks -/

variable {rank source proxy destination r s : Fin (numNodes * perNode)}

theorem rank_val (rank : Fin (numNodes * perNode)) :
    (rank : ℕ) = localRank rank + perNode * node rank := by
  conv_lhs => rw [← rankAt_node_localRank rank]
  rfl

theorem distance_eq (h : localRank source = localRank proxy) :
    (numNodes * perNode + proxy - source) % (numNodes * perNode) =
      perNode * steps (node source) (node proxy) := by
  have hle : perNode * (node source : ℕ) ≤ perNode * (numNodes + node proxy) :=
    Nat.mul_le_mul_left _ ((node source).isLt.le.trans (Nat.le_add_right _ _))
  have hsub : numNodes * perNode + proxy - source =
      perNode * (node proxy + numNodes - node source) := by
    rw [rank_val proxy, rank_val source, h, Nat.add_comm (node proxy : ℕ), Nat.mul_sub,
      Nat.mul_comm numNodes, Nat.mul_add] at *
    omega
  rw [hsub, Nat.mul_comm numNodes, Nat.mul_mod_mul_left]
  rfl

theorem forwardLocal_eq (hper : 2 * perNode ≤ 2 ^ 64) (h : node proxy = node destination) :
    forwardLocal perNode proxy destination = steps (localRank proxy) (localRank destination) := by
  have hlocal := (localRank proxy).isLt
  have hlocal' := (localRank destination).isLt
  have hval := rank_val proxy
  have hval' := rank_val destination
  rw [h] at hval
  have hsub : perNode + destination + 2 ^ 64 - proxy =
      localRank destination + perNode - localRank proxy + 2 ^ 64 := by omega
  have hlt : localRank destination + perNode - localRank proxy < 2 ^ 64 := by omega
  rw [forwardLocal, hsub, Nat.add_mod_right, Nat.mod_eq_of_lt hlt]
  rfl

/-! ## The lists of the proxies -/

/-- The sources come in the order of their distance, and the destinations of a source in that of
their distance from the proxy, the farthest first. -/
def proxyIndex (source destination : Fin (numNodes * perNode)) : ℕ :=
  (perNode - 1) * (steps (node source) (node destination) - 1) +
    (perNode - 1 - steps (localRank source) (localRank destination))

def Proxied (source destination : Fin (numNodes * perNode)) : Prop :=
  node source ≠ node destination ∧ localRank source ≠ localRank destination

variable (h : Proxied source destination)

include h

theorem Proxied.bounds :
    0 < steps (node source) (node destination) ∧ steps (node source) (node destination) < numNodes ∧
      0 < steps (localRank source) (localRank destination) ∧
      steps (localRank source) (localRank destination) < perNode :=
  ⟨steps_pos h.1, steps_lt _ _, steps_pos h.2, steps_lt _ _⟩

theorem Proxied.proxyIndex_lt :
    proxyIndex source destination < (perNode - 1) * (numNodes - 1) := by
  obtain ⟨hn, hn', hl, hl'⟩ := h.bounds
  have hmul : (perNode - 1) * (steps (node source) (node destination) - 1 + 1) ≤
      (perNode - 1) * (numNodes - 1) := Nat.mul_le_mul_left _ (by omega)
  rw [Nat.mul_add, Nat.mul_one] at hmul
  unfold proxyIndex
  omega

theorem Proxied.of_proxyIndex_eq (h' : Proxied r s)
    (heq : proxyIndex source destination = proxyIndex r s) :
    steps (node source) (node destination) = steps (node r) (node s) ∧
      steps (localRank source) (localRank destination) = steps (localRank r) (localRank s) := by
  obtain ⟨hn, hn', hl, hl'⟩ := h.bounds
  obtain ⟨hm, hm', hk, hk'⟩ := h'.bounds
  unfold proxyIndex at heq
  have hpos : 0 < perNode - 1 := by omega
  have hdiv := congrArg (· / (perNode - 1)) heq
  have hmod := congrArg (· % (perNode - 1)) heq
  simp only [Nat.mul_add_div hpos, Nat.mul_add_mod] at hdiv hmod
  rw [Nat.div_eq_of_lt (by omega), Nat.div_eq_of_lt (by omega)] at hdiv
  rw [Nat.mod_eq_of_lt (by omega), Nat.mod_eq_of_lt (by omega)] at hmod
  omega

omit h

/-- Every index is that of some distances. -/
theorem exists_distances {i : ℕ} (hi : i < (perNode - 1) * (numNodes - 1)) :
    ∃ k j, 0 < k ∧ k < numNodes ∧ 0 < j ∧ j < perNode ∧
      (perNode - 1) * (k - 1) + (perNode - 1 - j) = i := by
  have hpos : 0 < perNode - 1 := Nat.pos_of_mul_pos_right (Nat.zero_lt_of_lt hi)
  have hmod := Nat.mod_lt i hpos
  have hdiv : i / (perNode - 1) < numNodes - 1 := Nat.div_lt_of_lt_mul hi
  refine ⟨i / (perNode - 1) + 1, perNode - 1 - i % (perNode - 1), Nat.succ_pos _,
    Nat.add_lt_of_lt_sub hdiv, by omega, by omega, ?_⟩
  rw [Nat.add_sub_cancel,
    show perNode - 1 - (perNode - 1 - i % (perNode - 1)) = i % (perNode - 1) by omega]
  exact Nat.div_add_mod i (perNode - 1)

theorem proxyIndex_le_of_sortKey_le (hper : 2 * perNode ≤ 2 ^ 64) (h : Proxied source destination)
    (h' : Proxied r s)
    (hle : sortKey perNode
        (.proxied source (rankAt (node destination) (localRank source)) destination)
      ≤ sortKey perNode (.proxied r (rankAt (node s) (localRank r)) s)) :
    proxyIndex source destination ≤ proxyIndex r s := by
  obtain ⟨hn, hn', hl, hl'⟩ := h.bounds
  obtain ⟨hm, hm', hk, hk'⟩ := h'.bounds
  have hforward : ∀ {x y : Fin (numNodes * perNode)},
      forward (.proxied x (rankAt (node y) (localRank x)) y) =
        perNode * steps (node x) (node y) := by
    intro x y
    rw [forward, Path.second, Path.source, distance_eq (localRank_rankAt _ _).symm, node_rankAt]
  have hlocal : ∀ {x y : Fin (numNodes * perNode)},
      forwardLocal perNode (rankAt (node y) (localRank x)) y =
        steps (localRank x) (localRank y) := by
    intro x y
    rw [forwardLocal_eq hper (node_rankAt _ _), localRank_rankAt]
  simp only [sortKey, Prod.Lex.toLex_le_toLex, Path.local, Path.toList, hforward, hlocal,
    OrderDual.toDual_lt_toDual, length_cons, length_nil, lt_self_iff_false, false_or,
    true_and, OrderDual.toDual_inj] at hle
  have hper' : 0 < perNode := by omega
  unfold proxyIndex
  obtain hlt | ⟨heq, hle⟩ := hle
  · have hsteps := Nat.lt_of_mul_lt_mul_left hlt
    have hmul : (perNode - 1) * (steps (node source) (node destination) - 1 + 1) ≤
        (perNode - 1) * (steps (node r) (node s) - 1) := Nat.mul_le_mul_left _ (by omega)
    rw [Nat.mul_add, Nat.mul_one] at hmul
    omega
  · rw [Nat.eq_of_mul_eq_mul_left hper' heq]
    omega

variable (hpos : 0 < perNode)

theorem mem_proxyInfo_consecutive :
    (source, destination) ∈ (consecutive _ _ hpos).proxyInfo rank ↔
      Proxied source destination ∧ rank = rankAt (node destination) (localRank source) := by
  rw [← mem_proxyDestinationInfo_iff, mem_proxyDestinationInfo_consecutive, Proxied,
    ne_comm (a := localRank destination), and_assoc]

theorem nodeOf_length_consecutive (rank : Fin (numNodes * perNode)) :
    ((consecutive _ _ hpos).nodeOf rank).length = perNode := by
  rw [nodeOf_consecutive, rowOf, length_map, length_finRange]

theorem mem_paths_proxied_consecutive (h : .proxied source proxy destination ∈
    (consecutive _ _ hpos).paths rank) :
    Proxied source destination ∧ proxy = rankAt (node destination) (localRank source) := by
  obtain ⟨hnode, hproxy, hne, -⟩ := mem_paths_proxied _ |>.mp h
  rw [sameNode_consecutive] at hnode
  rw [proxyOf_consecutive] at hproxy
  refine ⟨⟨hnode, fun hlocal => hne ?_⟩, hproxy⟩
  rw [hproxy, hlocal, rankAt_node_localRank]

variable (hper : 2 * perNode ≤ 2 ^ 64)

include hper

/-- A list of the paths with a proxy is in the order of their index. -/
theorem pairwise_proxied {β : Type*} {key : β → ℕ}
    {rank : Fin (numNodes * perNode)} {f : Path (numNodes * perNode) → Option β} (keep : Bool)
    (hown : ∀ a, a.source = rank → f a = none)
    (hkeep : ∀ a, decide (a.toList.length < 3 ∨ a.second ≠ rank) ≠ keep → f a = none)
    (hkey : ∀ a, ∀ x ∈ f a, ∃ s p d, a = .proxied s p d ∧ key x = proxyIndex s d) :
    (((consecutive _ _ hpos).sortedPaths rank).filterMap f).Pairwise
      fun x y => key x ≤ key y := by
  refine pairwise_filterMap_sortedPaths _ false keep (fun a ha => hown a ?_) hkeep ?_
  · simpa using ha
  · intro a ha b hb hle x hx y hy
    rw [nodeOf_length_consecutive] at hle
    obtain ⟨s, p, d, rfl, hkeyx⟩ := hkey a x hx
    obtain ⟨s', p', d', rfl, hkeyy⟩ := hkey b y hy
    obtain ⟨h, rfl⟩ := mem_paths_proxied_consecutive hpos ha
    obtain ⟨h', rfl⟩ := mem_paths_proxied_consecutive hpos hb
    rw [hkeyx, hkeyy]
    exact proxyIndex_le_of_sortKey_le hper h h' hle

theorem indexed_proxyInfo (rank : Fin (numNodes * perNode)) :
    Indexed (fun info => proxyIndex info.1 info.2)
      ((consecutive _ _ hpos).proxyInfo rank) ((perNode - 1) * (numNodes - 1)) := by
  refine .of_pairwise ?_ (proxyInfo_nodup _ rank) ?_ ?_ ?_
  · refine pairwise_proxied hpos hper false ?_ ?_ ?_
    · rintro (_ | _) <;> grind [Path.source]
    · rintro (_ | _) <;> grind [Path.second, Path.toList]
    · rintro (_ | ⟨s, p, d⟩) x hx <;> grind
  · rintro ⟨s, d⟩ hx ⟨s', d'⟩ hy heq
    obtain ⟨h, hrank⟩ := (mem_proxyInfo_consecutive hpos).mp hx
    obtain ⟨h', hrank'⟩ := (mem_proxyInfo_consecutive hpos).mp hy
    obtain ⟨hnodes, hlocals⟩ := h.of_proxyIndex_eq h' heq
    have hnode : node d = node d' := by
      rw [← node_rankAt (node d) (localRank s), ← hrank, hrank', node_rankAt]
    have hlocal : localRank s = localRank s' := by
      rw [← localRank_rankAt (node d) (localRank s), ← hrank, hrank', localRank_rankAt]
    rw [hnode] at hnodes
    rw [hlocal] at hlocals
    rw [rank_ext (eq_of_steps_left hnodes) hlocal, rank_ext hnode (eq_of_steps_right hlocals)]
  · rintro ⟨s, d⟩ hx
    exact ((mem_proxyInfo_consecutive hpos).mp hx).1.proxyIndex_lt
  · intro i hi
    obtain ⟨k, j, hk, hk', hj, hj', rfl⟩ := exists_distances hi
    obtain ⟨n, hn⟩ := exists_steps_left (node rank) hk'
    obtain ⟨l, hl⟩ := exists_steps_right (localRank rank) hj'
    have hne : n ≠ node rank := fun h => hk.ne' (hn ▸ steps_eq_zero_iff.2 h)
    have hne' : localRank rank ≠ l := fun h => hj.ne' (hl ▸ steps_eq_zero_iff.2 h)
    refine ⟨(rankAt n (localRank rank), rankAt (node rank) l), ?_, ?_⟩
    · refine (mem_proxyInfo_consecutive hpos).mpr ⟨⟨?_, ?_⟩, ?_⟩
      · rwa [node_rankAt, node_rankAt]
      · rwa [localRank_rankAt, localRank_rankAt]
      · rw [node_rankAt, localRank_rankAt, rankAt_node_localRank]
    · simp only [proxyIndex, node_rankAt, localRank_rankAt, hn, hl]

/-- The list of a rank that others are proxies for. -/
theorem indexed_proxyDestinationInfo (rank : Fin (numNodes * perNode)) :
    Indexed (fun info => proxyIndex info.1 rank)
      ((consecutive _ _ hpos).proxyDestinationInfo rank)
      ((perNode - 1) * (numNodes - 1)) := by
  have hmem : ∀ {s p}, (s, p) ∈ (consecutive _ _ hpos).proxyDestinationInfo rank ↔
      Proxied s rank ∧ p = rankAt (node rank) (localRank s) := by
    intro s p
    rw [mem_proxyDestinationInfo_iff, mem_proxyInfo_consecutive]
  refine .of_pairwise ?_ (proxyDestinationInfo_nodup _ rank) ?_ ?_ ?_
  · refine pairwise_proxied hpos hper true ?_ ?_ ?_
    · rintro (_ | _) <;> grind [Path.source]
    · rintro (_ | _) <;> grind [Path.second, Path.toList]
    · rintro (_ | ⟨s, p, d⟩) x hx <;> grind
  · rintro ⟨s, p⟩ hx ⟨s', p'⟩ hy heq
    obtain ⟨h, rfl⟩ := hmem.mp hx
    obtain ⟨h', rfl⟩ := hmem.mp hy
    obtain ⟨hnodes, hlocals⟩ := h.of_proxyIndex_eq h' heq
    rw [rank_ext (eq_of_steps_left hnodes) (eq_of_steps_left hlocals)]
  · rintro ⟨s, p⟩ hx
    exact (hmem.mp hx).1.proxyIndex_lt
  · intro i hi
    obtain ⟨k, j, hk, hk', hj, hj', rfl⟩ := exists_distances hi
    obtain ⟨n, hn⟩ := exists_steps_left (node rank) hk'
    obtain ⟨l, hl⟩ := exists_steps_left (localRank rank) hj'
    have hne : n ≠ node rank := fun h => hk.ne' (hn ▸ steps_eq_zero_iff.2 h)
    have hne' : l ≠ localRank rank := fun h => hj.ne' (hl ▸ steps_eq_zero_iff.2 h)
    refine ⟨(rankAt n l, rankAt (node rank) l), hmem.mpr ⟨⟨?_, ?_⟩, ?_⟩, ?_⟩
    · rwa [node_rankAt]
    · rwa [localRank_rankAt]
    · rw [localRank_rankAt]
    · simp only [proxyIndex, node_rankAt, localRank_rankAt, hn, hl]

omit hper

/-! ## The lists of the ring -/

theorem indexed_recvRanks (rank : Fin (numNodes * perNode)) :
    Indexed (fun source => steps (node source) (node rank) - 1)
      ((consecutive _ _ hpos).recvRanks rank) (numNodes - 1) := by
  refine .of_pairwise ?_ (recvRanks_nodup _ rank) ?_ ?_ ?_
  · refine pairwise_filterMap_sortedPaths _ false true ?_ ?_ ?_
    · intro a ha
      cases a <;> grind [Path.source]
    · intro a ha
      cases a <;> grind [Path.second, Path.toList]
    · intro a ha b hb hle x hx y hy
      cases a with
      | proxied s p d => cases hx
      | direct s d =>
      cases b with
      | proxied s' p' d' => cases hy
      | direct s' d' =>
        simp only [Option.mem_def, Option.ite_none_right_eq_some, Option.some.injEq] at hx hy
        obtain ⟨⟨-, hd⟩, rfl⟩ := hx
        obtain ⟨⟨-, hd'⟩, rfl⟩ := hy
        rw [hd] at ha hle
        rw [hd'] at hb hle
        have hlocal := (eq_proxyOf_consecutive hpos).mp (mem_paths_direct _ |>.mp ha).2.1
        have hlocal' := (eq_proxyOf_consecutive hpos).mp (mem_paths_direct _ |>.mp hb).2.1
        simp only [sortKey, Prod.Lex.toLex_le_toLex, Path.toList, forward, Path.second, Path.source,
          distance_eq hlocal.symm, distance_eq hlocal'.symm, length_cons, length_nil,
          lt_self_iff_false, false_or, true_and] at hle
        have hmul : perNode * steps (node s) (node rank) ≤ perNode * steps (node s') (node rank) :=
          hle.elim le_of_lt fun h => h.1.le
        exact Nat.sub_le_sub_right (Nat.le_of_mul_le_mul_left hmul hpos) 1
  · intro s hs s' hs' heq
    obtain ⟨hnode, hlocal⟩ := (mem_recvRanks_consecutive hpos).mp hs
    obtain ⟨hnode', hlocal'⟩ := (mem_recvRanks_consecutive hpos).mp hs'
    have hsteps := steps_pos hnode
    have hsteps' := steps_pos hnode'
    exact rank_ext (eq_of_steps_left (m := node rank) (by omega)) (hlocal.symm.trans hlocal')
  · intro s hs
    have hsteps := steps_pos ((mem_recvRanks_consecutive hpos).mp hs).1
    have hlt := steps_lt (node s) (node rank)
    omega
  · intro i hi
    obtain ⟨n, hn⟩ := exists_steps_left (node rank) (k := i + 1) (by omega)
    have hne : n ≠ node rank := by
      intro h
      rw [steps_eq_zero_iff.2 h] at hn
      exact Nat.succ_ne_zero i hn.symm
    refine ⟨rankAt n (localRank rank), (mem_recvRanks_consecutive hpos).mpr ⟨?_, ?_⟩, ?_⟩
    · rwa [node_rankAt]
    · rw [localRank_rankAt]
    · rw [node_rankAt, hn, Nat.add_sub_cancel]

variable (rank : Fin (numNodes * perNode))

theorem indexed_ringRecvs :
    Indexed (fun recv => steps (node recv.1) (node rank) - 1)
      ((consecutive _ _ hpos).ringRecvs rank) (numNodes - 1) := by
  have h := indexed_recvRanks hpos rank
  rw [← ringRecvs_map_fst] at h
  rwa [Indexed, map_map] at h

theorem rounds_consecutive (rank : Fin (numNodes * perNode)) :
    (consecutive numNodes _ hpos).rounds = numNodes - 1 := by
  have hlen (r) : ((consecutive _ _ hpos).ringRecvs r).length = numNodes - 1 :=
    (indexed_ringRecvs hpos r).length_eq
  refine le_antisymm (max_le_of_forall_le _ _ fun y hy => ?_) ?_
  · obtain ⟨r, -, rfl⟩ := mem_map.mp hy
    exact (hlen r).le
  · exact le_max_of_le (mem_map.mpr ⟨rank, mem_finRange rank, rfl⟩) (hlen rank).ge

theorem filterMap_eq_singleton {α β : Type*} {l : List α} (hl : l.Nodup) {f : α → Option β} {a : α}
    {b : β} (ha : a ∈ l) (hb : f a = some b) (h : ∀ x, x ≠ a → f x = none) :
    l.filterMap f = [b] := by
  obtain ⟨front, back, rfl⟩ := append_of_mem ha
  obtain ⟨hnot, -⟩ := nodup_cons.mp (nodup_middle.mp hl)
  have hnil : ∀ l' : List α, (∀ x ∈ l', x ∈ front ++ back) → l'.filterMap f = [] := by
    intro l' hl'
    refine filterMap_eq_nil_iff.mpr fun x hx => h x fun heq => hnot ?_
    exact heq ▸ hl' x hx
  rw [filterMap_append, filterMap_cons_some hb, hnil front fun x hx => mem_append_left _ hx,
    hnil back fun x hx => mem_append_right _ hx, nil_append]

theorem ringSendsAt_consecutive {i : ℕ} (hi : i < numNodes - 1) :
    ∃ source, (consecutive _ _ hpos).ringSendsAt rank i = [(source, nextRank rank)] ∧
      steps (node source) (node rank) = i := by
  have hindexed := indexed_ringRecvs hpos (nextRank rank)
  obtain ⟨⟨source, neighbor⟩, hget⟩ := hindexed.exists_getElem? hi
  obtain ⟨hmem, hsteps⟩ := hindexed.getElem?_iff.mp hget
  obtain ⟨hnode, -, rfl⟩ := (mem_ringRecvs_consecutive hpos).mp hmem
  rw [← eq_prevRank_iff.mpr rfl] at hget
  refine ⟨source, ?_, ?_⟩
  · refine filterMap_eq_singleton (nodup_finRange _) (mem_finRange (nextRank rank)) ?_ ?_
    · rw [hget]
      exact if_pos rfl
    · intro r hr
      cases hget' : ((consecutive _ _ hpos).ringRecvs r)[i]? with
      | none => rfl
      | some recv =>
        obtain ⟨-, -, hneighbor⟩ := (mem_ringRecvs_consecutive hpos).mp (mem_of_getElem? hget')
        refine if_neg fun heq => hr ?_
        rw [hneighbor] at heq
        exact eq_prevRank_iff.mp (Option.some.inj heq).symm
  · rw [nextRank, node_rankAt] at hnode
    have hnext := steps_nextNode hnode
    dsimp only at hsteps
    rw [nextRank, node_rankAt, hnext, Nat.add_sub_cancel] at hsteps
    exact hsteps

theorem indexed_ringSends :
    Indexed (fun send => steps (node send.1) (node rank))
      ((consecutive _ _ hpos).ringSends rank) (numNodes - 1) := by
  rw [Indexed, ringSends, rounds_consecutive hpos rank, map_flatMap]
  have hround : ∀ i ∈ List.range (numNodes - 1),
      ((consecutive _ _ hpos).ringSendsAt rank i).map
        (fun send => steps (node send.1) (node rank)) = [i] := by
    intro i hi
    obtain ⟨source, hsends, hsteps⟩ := ringSendsAt_consecutive hpos rank (mem_range.mp hi)
    rw [hsends, map_singleton, hsteps]
  rw [flatMap_congr hround]
  simp

end Consecutive

end AllGather
