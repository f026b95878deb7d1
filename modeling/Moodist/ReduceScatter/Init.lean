import Moodist.AllGather.Topology

/-!
# The lists of `ReduceScatter::init`

A reduce-scatter sends where an all-gather receives. For each rank that it sends to, it looks up its
own place in the list of that rank, and keeps the places in a vector that has the length of the
other list.
-/

namespace ReduceScatter

open AllGather List

variable {size : ℕ}

inductive Failure where
  | check
  | outOfBounds
  deriving DecidableEq, Repr

def sendRanks (nodes : Nodes size) (rank : Fin size) : List (Fin size) := nodes.recvRanks rank

def recvRanks (nodes : Nodes size) (rank : Fin size) : List (Fin size) := nodes.sendRanks rank

structure Lists (size : ℕ) where
  ringSends : List (Fin size × Fin size)
  ringRecvs : List (Fin size × Option (Fin size))
  sendRemoteRecvIndex : List ℕ

def setIndices (allRecvRanks : Fin size → List (Fin size)) (rank : Fin size) :
    List (Fin size) → ℕ → List ℕ → Except Failure (List ℕ)
  | [], _, indices => .ok indices
  | r :: rest, index, indices =>
    if rank ∈ allRecvRanks r then
      if index < indices.length then
        setIndices allRecvRanks rank rest (index + 1)
          (indices.set index ((allRecvRanks r).idxOf rank))
      else .error .outOfBounds
    else .error .check

def init (nodes : Nodes size) (rank : Fin size) : Except Failure (Lists size) := do
  let ringSends := nodes.ringSends rank
  let ringRecvs := nodes.ringRecvs rank
  let rotated := !ringSends.isEmpty && !ringRecvs.isEmpty
  let indices ← setIndices (recvRanks nodes) rank (sendRanks nodes rank) 0
    (replicate (recvRanks nodes rank).length 0)
  return {
    ringSends :=
      if rotated then (ringSends.rotate 1).modifyLast fun send => (send.2, send.2) else ringSends
    ringRecvs :=
      if rotated then (ringRecvs.rotate 1).modifyLast fun recv => (rank, recv.2) else ringRecvs
    sendRemoteRecvIndex := indices }

/-- `init` stays inside its vectors, and the places that it finds are right. -/
def InitCorrect (nodes : Nodes size) (rank : Fin size) : Prop :=
  ∃ lists, init nodes rank = .ok lists ∧
    ∀ (i : ℕ) (r : Fin size), (sendRanks nodes rank)[i]? = some r →
      ∃ index, lists.sendRemoteRecvIndex[i]? = some index ∧
        (recvRanks nodes r)[index]? = some rank

/-! ## The loop -/

theorem setIndices_eq {allRecvRanks : Fin size → List (Fin size)} {rank : Fin size}
    {ranks : List (Fin size)} (done : List ℕ) (room : ℕ) (h : ∀ r ∈ ranks, rank ∈ allRecvRanks r) :
    setIndices allRecvRanks rank ranks done.length (done ++ replicate room 0) =
      if ranks.length ≤ room then
        .ok (done ++ ranks.map (fun r => (allRecvRanks r).idxOf rank) ++
          replicate (room - ranks.length) 0)
      else .error .outOfBounds := by
  induction ranks generalizing done room with
  | nil => simp [setIndices]
  | cons r rest ih =>
    rw [setIndices, if_pos (h r mem_cons_self)]
    cases room with
    | zero => simp
    | succ room =>
      have hrest := ih (done ++ [(allRecvRanks r).idxOf rank]) room fun r hr =>
        h r (mem_cons_of_mem _ hr)
      have hset : (done ++ replicate (room + 1) 0).set done.length
          ((allRecvRanks r).idxOf rank) =
            done ++ [(allRecvRanks r).idxOf rank] ++ replicate room 0 := by
        simp [replicate_succ]
      rw [if_pos (by simp), hset, show done.length + 1 =
        (done ++ [(allRecvRanks r).idxOf rank]).length by simp, hrest]
      simp

theorem init_eq (nodes : Nodes size) (rank : Fin size) :
    (init nodes rank).map Lists.sendRemoteRecvIndex =
      if (sendRanks nodes rank).length ≤ (recvRanks nodes rank).length then
        .ok ((sendRanks nodes rank).map (fun r => (recvRanks nodes r).idxOf rank) ++
          replicate ((recvRanks nodes rank).length - (sendRanks nodes rank).length) 0)
      else .error .outOfBounds := by
  have hmem : ∀ r ∈ sendRanks nodes rank, rank ∈ recvRanks nodes r :=
    fun r hr => nodes.mem_recvRanks_iff.mp hr
  have hloop := setIndices_eq [] (recvRanks nodes rank).length hmem
  rw [nil_append, nil_append, length_nil] at hloop
  rw [init, hloop]
  split_ifs <;> rfl

theorem initCorrect_iff (nodes : Nodes size) (rank : Fin size) :
    InitCorrect nodes rank ↔ (sendRanks nodes rank).length ≤ (recvRanks nodes rank).length := by
  have heq := init_eq nodes rank
  constructor
  · rintro ⟨lists, hinit, -⟩
    by_contra hlt
    rw [hinit, if_neg hlt] at heq
    cases heq
  · intro hle
    rw [if_pos hle] at heq
    cases hinit : init nodes rank with
    | error e => rw [hinit] at heq; cases heq
    | ok lists =>
      rw [hinit] at heq
      have hindices : lists.sendRemoteRecvIndex = _ := Except.ok.inj heq
      refine ⟨lists, hinit, fun i r hr => ⟨(recvRanks nodes r).idxOf rank, ?_, ?_⟩⟩
      · obtain ⟨hi, rfl⟩ := List.getElem?_eq_some_iff.mp hr
        rw [hindices, List.getElem?_append_left (by simpa using hi), List.getElem?_map, hr]
        rfl
      · have hmem : rank ∈ recvRanks nodes r := nodes.mem_recvRanks_iff.mp (mem_of_getElem? hr)
        exact List.getElem?_idxOf hmem

/-! ## The lengths of the lists -/

section Lengths

variable (nodes : Nodes size) {rank r s : Fin size} {list : List (Fin size)}

theorem nodeRanks_nodup : nodes.nodeRanks.Nodup := by
  refine (nodup_flatten.mp nodes.nodup).2.imp_of_mem fun {a b} ha _ hdisjoint hab => ?_
  subst hab
  obtain ⟨r, hr⟩ := exists_mem_of_ne_nil a (nodes.ne_nil a ha)
  exact hdisjoint hr hr

theorem length_recvRanks (rank : Fin size) :
    (recvRanks nodes rank).length + 1 = nodes.nodeRanks.length := by
  have hperm : (nodes.nodeOf rank :: (recvRanks nodes rank).map nodes.nodeOf).Perm
      nodes.nodeRanks := by
    refine (perm_ext_iff_of_nodup ?_ (nodeRanks_nodup nodes)).mpr fun list => ?_
    · refine nodup_cons.mpr ⟨fun hmem => ?_, ?_⟩
      · obtain ⟨r, hr, hnode⟩ := mem_map.mp hmem
        exact (nodes.mem_sendRanks.mp hr).1 hnode.symm
      · refine (nodes.sendRanks_nodup rank).map_on fun r hr s hs hnode => ?_
        rw [(nodes.mem_sendRanks.mp hr).2, (nodes.mem_sendRanks.mp hs).2]
        exact Nodes.SameNode.proxyOf_eq hnode rank
    · rw [mem_cons, mem_map]
      constructor
      · rintro (rfl | ⟨r, -, rfl⟩)
        · exact (nodes.nodeOf_spec rank).1
        · exact (nodes.nodeOf_spec r).1
      · intro hlist
        obtain ⟨r, hr⟩ := exists_mem_of_ne_nil list (nodes.ne_nil list hlist)
        rw [nodes.eq_nodeOf hlist hr]
        by_cases hsame : nodes.SameNode rank r
        · exact .inl hsame.symm
        · have hproxy := nodes.sameNode_proxyOf rank r
          refine .inr ⟨nodes.proxyOf rank r, nodes.mem_sendRanks.mpr ⟨?_, ?_⟩, hproxy⟩
          · exact fun h => hsame (h.trans hproxy)
          · rw [hproxy.proxyOf_eq]
  simpa using hperm.length_eq

theorem length_flatMap_sendRanks (hlist : list ∈ nodes.nodeRanks) :
    list.length + (list.map fun r => (sendRanks nodes r).length).sum = size := by
  have hlength := (nodes.node_perm hlist).length_eq
  rwa [length_append, length_flatMap, length_finRange] at hlength

theorem sum_length_nodeRanks : (nodes.nodeRanks.map length).sum = size := by
  have hperm : nodes.nodeRanks.flatten.Perm (finRange size) :=
    (perm_ext_iff_of_nodup nodes.nodup (nodup_finRange size)).mpr fun r =>
      iff_of_true (nodes.cover r) (mem_finRange r)
  rw [← length_flatten, hperm.length_eq, length_finRange]

variable (h : ∀ rank, (sendRanks nodes rank).length ≤ (recvRanks nodes rank).length)
  (hlist : list ∈ nodes.nodeRanks)

include h hlist

/-- No node is smaller than the mean, if the lists have room for all places. -/
theorem size_le_of_length_le : size ≤ nodes.nodeRanks.length * list.length := by
  have hsum : (list.map fun r => (sendRanks nodes r).length).sum ≤
      (list.map fun r => (sendRanks nodes r).length).length • (nodes.nodeRanks.length - 1) := by
    refine sum_le_card_nsmul _ _ fun n hn => ?_
    obtain ⟨r, -, rfl⟩ := mem_map.mp hn
    have hr := h r
    have hlength := length_recvRanks nodes r
    omega
  have hpos : 0 < nodes.nodeRanks.length := length_pos_of_mem hlist
  have hmul : list.length * (nodes.nodeRanks.length - 1) + list.length =
      nodes.nodeRanks.length * list.length := by
    rw [← Nat.mul_succ, Nat.succ_eq_add_one, Nat.sub_add_cancel hpos, Nat.mul_comm]
  rw [length_map, smul_eq_mul] at hsum
  have hsize := length_flatMap_sendRanks nodes hlist
  omega

theorem length_eq_of_length_le : nodes.nodeRanks.length * list.length = size := by
  have hnodup := nodeRanks_nodup nodes
  have hsum : (nodes.nodeRanks.map fun _ => size).sum =
      (nodes.nodeRanks.map fun l => nodes.nodeRanks.length * l.length).sum := by
    rw [map_const', sum_replicate, sum_map_mul_left, sum_length_nodeRanks, smul_eq_mul]
  rw [← sum_toFinset _ hnodup, ← sum_toFinset _ hnodup] at hsum
  refine ((Finset.sum_eq_sum_iff_of_le fun l hl => ?_).mp hsum list ?_).symm
  · exact size_le_of_length_le nodes h (mem_toFinset.mp hl)
  · exact mem_toFinset.mpr hlist

omit h hlist

theorem length_le_of_length_eq (h : ∀ list ∈ nodes.nodeRanks, ∀ list' ∈ nodes.nodeRanks,
    list.length = list'.length) (rank : Fin size) :
    (sendRanks nodes rank).length ≤ (recvRanks nodes rank).length := by
  have hlocal : ∀ r, nodes.findLocalRank r < (nodes.nodeOf rank).length := by
    intro r
    rw [h _ (nodes.nodeOf_spec rank).1 _ (nodes.nodeOf_spec r).1]
    exact idxOf_lt_length_iff.mpr (nodes.nodeOf_spec r).2
  have hindex : ∀ r ∈ sendRanks nodes rank, nodes.findLocalRank r = nodes.findLocalRank rank := by
    intro r hr
    have hproxy := (nodes.mem_recvRanks.mp hr).2
    rw [Nodes.proxyOf, Nodes.receiver, Nat.mod_eq_of_lt (hlocal r),
      getD_eq_getElem _ _ (hlocal r)] at hproxy
    have hidx := ((nodup_flatten.mp nodes.nodup).1 _
      (nodes.nodeOf_spec rank).1).idxOf_getElem _ (hlocal r)
    rw [← hproxy] at hidx
    exact hidx.symm
  have hnodup : (nodes.nodeOf rank :: (sendRanks nodes rank).map nodes.nodeOf).Nodup := by
    refine nodup_cons.mpr ⟨fun hmem => ?_, ?_⟩
    · obtain ⟨r, hr, hnode⟩ := mem_map.mp hmem
      exact (nodes.mem_recvRanks.mp hr).1 hnode
    · refine (nodes.recvRanks_nodup rank).map_on fun r hr s hs hnode => ?_
      have hsame := (hindex r hr).trans (hindex s hs).symm
      unfold Nodes.findLocalRank at hsame
      rw [hnode] at hsame
      exact (idxOf_inj (nodes.nodeOf_eq_iff.mp hnode)).mp hsame
  have hsubset : (nodes.nodeOf rank :: (sendRanks nodes rank).map nodes.nodeOf) ⊆
      nodes.nodeRanks := by
    intro list hmem
    rcases mem_cons.mp hmem with rfl | hmem
    · exact (nodes.nodeOf_spec rank).1
    · obtain ⟨r, -, rfl⟩ := mem_map.mp hmem
      exact (nodes.nodeOf_spec r).1
  have hle := (subperm_of_subset hnodup hsubset).length_le
  rw [length_cons, length_map] at hle
  have hlength := length_recvRanks nodes rank
  omega

end Lengths

theorem forall_initCorrect_iff (nodes : Nodes size) :
    (∀ rank, InitCorrect nodes rank) ↔
      ∀ list ∈ nodes.nodeRanks, ∀ list' ∈ nodes.nodeRanks, list.length = list'.length := by
  simp only [initCorrect_iff]
  constructor
  · intro h list hlist list' hlist'
    have hpos : 0 < nodes.nodeRanks.length := length_pos_of_mem hlist
    refine Nat.eq_of_mul_eq_mul_left hpos ?_
    rw [length_eq_of_length_le nodes h hlist, length_eq_of_length_le nodes h hlist']
  · exact length_le_of_length_eq nodes

/-- `init` is right on all ranks if and only if all nodes have the same size. -/
theorem init_correct_iff (nodes : Nodes size) :
    (∀ rank, InitCorrect nodes rank) ↔
      ∀ list ∈ nodes.nodeRanks, ∀ list' ∈ nodes.nodeRanks, list.length = list'.length :=
  forall_initCorrect_iff nodes

/-- The rank that has a node of its own sends to two ranks and receives from one. -/
theorem init_twoNodes : init twoNodes 1 = .error .outOfBounds := by
  have hlist : [1] ∈ twoNodes.nodeRanks := by decide
  have hsend := length_flatMap_sendRanks twoNodes hlist
  have hrecv : (recvRanks twoNodes 1).length + 1 = 2 := length_recvRanks twoNodes 1
  have heq := init_eq twoNodes 1
  simp only [length_singleton, map_cons, map_nil, sum_cons, sum_nil] at hsend
  rw [if_neg (by omega)] at heq
  cases hinit : init twoNodes 1 with
  | error e => rw [hinit] at heq; exact congrArg Except.error (Except.error.inj heq)
  | ok lists => rw [hinit] at heq; cases heq

end ReduceScatter
