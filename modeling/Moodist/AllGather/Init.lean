import Mathlib

/-!
# Paths between nodes

Model of `AllGather::init` and `ReduceScatter::init`: on every rank, the paths on which data go from
one node to another, and the lists that the collectives take from them. A source sends to one rank
of each other node, and that rank is a proxy for the others of its node.
-/

namespace AllGather

open List

variable {size : ℕ}

/-- A name for the instance, which the definitions that test membership share. -/
theorem lawfulBEq_rank (size : ℕ) : LawfulBEq (Fin size) := inferInstance

instance decidableMemNode (rank : Fin size) (list : List (Fin size)) : Decidable (rank ∈ list) :=
  @List.instDecidableMemOfLawfulBEq _ _ (lawfulBEq_rank size) rank list

/-- The ranks of each node. -/
structure Nodes (size : ℕ) where
  nodeRanks : List (List (Fin size))
  nodup : nodeRanks.flatten.Nodup
  cover : ∀ rank, rank ∈ nodeRanks.flatten
  ne_nil : ∀ list ∈ nodeRanks, list ≠ []

inductive Path (size : ℕ) where
  | direct (source destination : Fin size)
  | proxied (source proxy destination : Fin size)
  deriving DecidableEq, Repr

namespace Path

/-- `path[0]` -/
def source : Path size → Fin size
  | direct source _ => source
  | proxied source _ _ => source

/-- `path[1]` -/
def second : Path size → Fin size
  | direct _ destination => destination
  | proxied _ proxy _ => proxy

def toList : Path size → List (Fin size)
  | direct source destination => [source, destination]
  | proxied source proxy destination => [source, proxy, destination]

end Path

/-! ## Paths -/

namespace Nodes

variable (nodes : Nodes size)

def nodeOf (rank : Fin size) : List (Fin size) :=
  (nodes.nodeRanks.find? fun list => rank ∈ list).getD []

def findLocalRank (rank : Fin size) : ℕ :=
  (nodes.nodeOf rank).idxOf rank

/-- `list[ll]`: the rank of a node that a source sends to. -/
def receiver (list : List (Fin size)) (source : Fin size) : Fin size :=
  list.getD (nodes.findLocalRank source % list.length) source

def pathsTo (rank source : Fin size) (list : List (Fin size)) : List (Path size) :=
  if source ∈ list then
    []
  else if source = rank then
    [.direct source (nodes.receiver list source)]
  else if nodes.receiver list source = rank then
    list.map fun destination =>
      if destination = rank then .direct source destination else .proxied source rank destination
  else if rank ∈ list then
    [.proxied source (nodes.receiver list source) rank]
  else
    []

def paths (rank : Fin size) : List (Path size) :=
  (finRange size).flatMap fun source => nodes.nodeRanks.flatMap (nodes.pathsTo rank source)

end Nodes

def forward (a : Path size) : ℕ := (size + a.second - a.source) % size

/-- `(ranksPerNode + a[2] - a[1]) % ranksPerNode`, with the wrap-around of `size_t`. -/
def forwardLocal (ranksPerNode : ℕ) (proxy destination : Fin size) : ℕ :=
  (ranksPerNode + destination + 2 ^ 64 - proxy) % 2 ^ 64 % ranksPerNode

def sortFn (ranksPerNode : ℕ) (a b : Path size) : Bool :=
  if a.toList.length ≠ b.toList.length then
    a.toList.length < b.toList.length
  else if forward a ≠ forward b then
    forward a < forward b
  else
    match a, b with
    | .proxied _ p d, .proxied _ p' d' =>
      if forwardLocal ranksPerNode p d ≠ forwardLocal ranksPerNode p' d' then
        forwardLocal ranksPerNode p' d' < forwardLocal ranksPerNode p d
      else
        a.toList < b.toList
    | _, _ => a.toList < b.toList

/-- `std::stable_partition` -/
def stablePartition {α : Type*} (p : α → Bool) (l : List α) : List α :=
  l.filter p ++ l.filter fun x => !p x

namespace Nodes

variable (nodes : Nodes size)

def sortedPaths (rank : Fin size) : List (Path size) :=
  let ranksPerNode := (nodes.nodeOf rank).length
  let sorted := (nodes.paths rank).mergeSort fun a b => !sortFn ranksPerNode b a
  stablePartition (fun a => decide (a.toList.length < 3 ∨ a.second ≠ rank))
    (stablePartition (fun a => decide (a.source = rank)) sorted)

/-! ## The lists of the collectives -/

def sendRanks (rank : Fin size) : List (Fin size) :=
  (nodes.sortedPaths rank).filterMap fun
    | .direct source destination => if source = rank then some destination else none
    | .proxied _ _ _ => none

def recvRanks (rank : Fin size) : List (Fin size) :=
  (nodes.sortedPaths rank).filterMap fun
    | .direct source destination =>
      if source ≠ rank ∧ destination = rank then some source else none
    | .proxied _ _ _ => none

def proxyInfo (rank : Fin size) : List (Fin size × Fin size) :=
  (nodes.sortedPaths rank).filterMap fun
    | .direct _ _ => none
    | .proxied source proxy destination =>
      if source ≠ rank ∧ proxy = rank then some (source, destination) else none

def proxyDestinationInfo (rank : Fin size) : List (Fin size × Fin size) :=
  (nodes.sortedPaths rank).filterMap fun
    | .direct _ _ => none
    | .proxied source proxy destination =>
      if source ≠ rank ∧ proxy ≠ rank ∧ destination = rank then some (source, proxy) else none

end Nodes

/-! ## Who has a part in which path -/

theorem stablePartition_perm {α : Type*} (p : α → Bool) (l : List α) :
    (stablePartition p l).Perm l :=
  filter_append_perm p l

namespace Nodes

variable (nodes : Nodes size) {rank source destination proxy r s : Fin size}

theorem nodeOf_spec (rank : Fin size) :
    nodes.nodeOf rank ∈ nodes.nodeRanks ∧ rank ∈ nodes.nodeOf rank := by
  obtain ⟨list, hlist, hrank⟩ := mem_flatten.mp (nodes.cover rank)
  cases hfind : nodes.nodeRanks.find? (fun list => rank ∈ list) with
  | none => exact absurd (decide_eq_true hrank) (List.find?_eq_none.mp hfind list hlist)
  | some found =>
    have hmem := List.find?_some hfind
    rw [nodeOf, hfind]
    exact ⟨mem_of_find?_eq_some hfind, by simpa using hmem⟩

variable {list : List (Fin size)}

theorem disjoint {list' : List (Fin size)} (h : list ∈ nodes.nodeRanks)
    (h' : list' ∈ nodes.nodeRanks) (hne : list ≠ list') : list.Disjoint list' := by
  have hsymm : Std.Symm (Disjoint (α := Fin size)) := ⟨fun _ _ h => h.symm⟩
  exact (nodup_flatten.mp nodes.nodup).2.forall h h' hne

theorem eq_nodeOf (hlist : list ∈ nodes.nodeRanks) (h : rank ∈ list) :
    list = nodes.nodeOf rank := by
  obtain ⟨hmem, hrank⟩ := nodes.nodeOf_spec rank
  by_contra hne
  exact nodes.disjoint hlist hmem hne h hrank

theorem nodeOf_eq_iff : nodes.nodeOf r = nodes.nodeOf s ↔ r ∈ nodes.nodeOf s := by
  constructor
  · intro h
    rw [← h]
    exact (nodes.nodeOf_spec r).2
  · intro h
    exact (nodes.eq_nodeOf (nodes.nodeOf_spec s).1 h).symm

theorem receiver_mem (hlist : list ∈ nodes.nodeRanks) (source : Fin size) :
    nodes.receiver list source ∈ list := by
  have hlen : 0 < list.length := length_pos_iff.mpr (nodes.ne_nil list hlist)
  rw [receiver, getD_eq_getElem list source (Nat.mod_lt _ hlen)]
  exact getElem_mem _

/-- The rank of the node of `destination` that `source` sends to. -/
def proxyOf (source destination : Fin size) : Fin size :=
  nodes.receiver (nodes.nodeOf destination) source

def SameNode (r s : Fin size) : Prop := nodes.nodeOf r = nodes.nodeOf s

theorem sameNode_proxyOf (source destination : Fin size) :
    nodes.SameNode (nodes.proxyOf source destination) destination :=
  nodes.nodeOf_eq_iff.2 (nodes.receiver_mem (nodes.nodeOf_spec destination).1 source)

variable (hlist : list ∈ nodes.nodeRanks)

include hlist

theorem mem_pathsTo_direct :
    .direct s r ∈ nodes.pathsTo rank source list ↔
      s = source ∧ source ∉ list ∧ r = nodes.receiver list source ∧ (s = rank ∨ r = rank) := by
  have hreceiver := nodes.receiver_mem hlist source
  unfold pathsTo
  split_ifs with h₁ h₂ h₃ h₄ <;> simp only [mem_map, mem_singleton, not_mem_nil] <;>
    grind

theorem mem_pathsTo_proxied :
    .proxied s proxy r ∈ nodes.pathsTo rank source list ↔
      s = source ∧ source ∉ list ∧ source ≠ rank ∧ proxy = nodes.receiver list source ∧ r ∈ list ∧
        r ≠ proxy ∧ (proxy = rank ∨ r = rank) := by
  have hreceiver := nodes.receiver_mem hlist source
  unfold pathsTo
  split_ifs with h₁ h₂ h₃ h₄ <;> simp only [mem_map, mem_singleton, not_mem_nil] <;>
    grind

omit hlist

theorem mem_paths_direct :
    .direct source destination ∈ nodes.paths rank ↔ ¬ nodes.SameNode source destination ∧
      destination = nodes.proxyOf source destination ∧ (source = rank ∨ destination = rank) := by
  unfold paths SameNode proxyOf
  rw [nodes.nodeOf_eq_iff]
  simp only [mem_flatMap]
  constructor
  · rintro ⟨s, -, list, hlist, h⟩
    obtain ⟨rfl, hsource, hdest, hrank⟩ := (nodes.mem_pathsTo_direct hlist).mp h
    have hmem : destination ∈ list := hdest ▸ nodes.receiver_mem hlist source
    rw [← nodes.eq_nodeOf hlist hmem]
    exact ⟨hsource, hdest, hrank⟩
  · rintro ⟨hsource, hdest, hrank⟩
    have hlist := (nodes.nodeOf_spec destination).1
    exact ⟨source, mem_finRange source, nodes.nodeOf destination, hlist,
      (nodes.mem_pathsTo_direct hlist).mpr ⟨rfl, hsource, hdest, hrank⟩⟩

theorem mem_paths_proxied :
    .proxied source proxy destination ∈ nodes.paths rank ↔
      ¬ nodes.SameNode source destination ∧ proxy = nodes.proxyOf source destination ∧
        destination ≠ proxy ∧ source ≠ rank ∧ (proxy = rank ∨ destination = rank) := by
  unfold paths SameNode proxyOf
  rw [nodes.nodeOf_eq_iff]
  simp only [mem_flatMap]
  constructor
  · rintro ⟨s, -, list, hlist, h⟩
    obtain ⟨rfl, hsource, hne, hproxy, hmem, hdest, hrank⟩ := (nodes.mem_pathsTo_proxied hlist).mp h
    rw [← nodes.eq_nodeOf hlist hmem]
    exact ⟨hsource, hproxy, hdest, hne, hrank⟩
  · rintro ⟨hsource, hproxy, hdest, hne, hrank⟩
    obtain ⟨hlist, hmem⟩ := nodes.nodeOf_spec destination
    exact ⟨source, mem_finRange source, nodes.nodeOf destination, hlist,
      (nodes.mem_pathsTo_proxied hlist).mpr ⟨rfl, hsource, hne, hproxy, hmem, hdest, hrank⟩⟩

include hlist

theorem mem_of_mem_pathsTo {path : Path size}
    (h : path ∈ nodes.pathsTo rank source list) : path.source = source ∧ path.second ∈ list := by
  cases path with
  | direct s d =>
    obtain ⟨rfl, -, rfl, -⟩ := (nodes.mem_pathsTo_direct hlist).mp h
    exact ⟨rfl, nodes.receiver_mem hlist s⟩
  | proxied s p d =>
    obtain ⟨rfl, -, -, rfl, -⟩ := (nodes.mem_pathsTo_proxied hlist).mp h
    exact ⟨rfl, nodes.receiver_mem hlist s⟩

theorem pathsTo_nodup :
    (nodes.pathsTo rank source list).Nodup := by
  have hnodup := (nodup_flatten.mp nodes.nodup).1 list hlist
  unfold pathsTo
  split_ifs
  · exact nodup_nil
  · exact nodup_singleton _
  · refine hnodup.map ?_
    intro a b hab
    grind
  · exact nodup_singleton _
  · exact nodup_nil

omit hlist

theorem paths_nodup (rank : Fin size) : (nodes.paths rank).Nodup := by
  have hpair : nodes.nodeRanks.Pairwise Disjoint := (nodup_flatten.mp nodes.nodup).2
  refine nodup_flatMap.mpr ⟨fun source _ => nodup_flatMap.mpr ⟨?_, ?_⟩, ?_⟩
  · exact fun list hlist => nodes.pathsTo_nodup hlist
  · refine hpair.imp_of_mem fun {list list'} hlist hlist' hdisjoint path hpath hpath' => ?_
    exact hdisjoint (nodes.mem_of_mem_pathsTo hlist hpath).2
      (nodes.mem_of_mem_pathsTo hlist' hpath').2
  · refine (nodup_finRange size).imp fun {s s'} hne path hpath hpath' => hne ?_
    obtain ⟨list, hlist, hpath⟩ := mem_flatMap.mp hpath
    obtain ⟨list', hlist', hpath'⟩ := mem_flatMap.mp hpath'
    rw [← (nodes.mem_of_mem_pathsTo hlist hpath).1, (nodes.mem_of_mem_pathsTo hlist' hpath').1]

theorem sortedPaths_perm (rank : Fin size) : (nodes.sortedPaths rank).Perm (nodes.paths rank) :=
  ((stablePartition_perm _ _).trans (stablePartition_perm _ _)).trans (mergeSort_perm _ _)

theorem sortedPaths_nodup (rank : Fin size) : (nodes.sortedPaths rank).Nodup :=
  (nodes.sortedPaths_perm rank).nodup_iff.mpr (nodes.paths_nodup rank)

/-! ## What is in the lists -/

theorem mem_filterMap {β : Type*} {l : List (Path size)} {f : Path size → Option β} {x : β} :
    x ∈ l.filterMap f ↔ (∃ s d, .direct s d ∈ l ∧ f (.direct s d) = some x) ∨
      ∃ s p d, .proxied s p d ∈ l ∧ f (.proxied s p d) = some x := by
  rw [List.mem_filterMap]
  constructor
  · rintro ⟨path, hpath, hx⟩
    cases path with
    | direct s d => exact .inl ⟨s, d, hpath, hx⟩
    | proxied s p d => exact .inr ⟨s, p, d, hpath, hx⟩
  · rintro (⟨s, d, h⟩ | ⟨s, p, d, h⟩) <;> exact ⟨_, h⟩

theorem mem_sendRanks : destination ∈ nodes.sendRanks rank ↔
    ¬ nodes.SameNode rank destination ∧ destination = nodes.proxyOf rank destination := by
  simp only [sendRanks, mem_filterMap, (nodes.sortedPaths_perm rank).mem_iff, mem_paths_direct,
    reduceCtorEq, and_false, exists_false, or_false, Option.ite_none_right_eq_some,
    Option.some.injEq]
  constructor
  · rintro ⟨s, d, ⟨hnode, hproxy, -⟩, rfl, rfl⟩
    exact ⟨hnode, hproxy⟩
  · exact fun h => ⟨rank, destination, ⟨h.1, h.2, .inl rfl⟩, rfl, rfl⟩

theorem mem_recvRanks : source ∈ nodes.recvRanks rank ↔
    ¬ nodes.SameNode source rank ∧ rank = nodes.proxyOf source rank := by
  simp only [recvRanks, mem_filterMap, (nodes.sortedPaths_perm rank).mem_iff, mem_paths_direct,
    reduceCtorEq, and_false, exists_false, or_false, Option.ite_none_right_eq_some,
    Option.some.injEq]
  constructor
  · rintro ⟨s, d, ⟨hnode, hproxy, -⟩, ⟨-, rfl⟩, rfl⟩
    exact ⟨hnode, hproxy⟩
  · rintro ⟨hnode, hproxy⟩
    have hne : source ≠ rank := fun h => hnode (h ▸ rfl)
    exact ⟨source, rank, ⟨hnode, hproxy, .inr rfl⟩, ⟨hne, rfl⟩, rfl⟩

theorem mem_proxyInfo : (source, destination) ∈ nodes.proxyInfo rank ↔
    ¬ nodes.SameNode source destination ∧ rank = nodes.proxyOf source destination ∧
      destination ≠ rank := by
  simp only [proxyInfo, mem_filterMap, (nodes.sortedPaths_perm rank).mem_iff, mem_paths_proxied,
    reduceCtorEq, and_false, exists_false, false_or, Option.ite_none_right_eq_some,
    Option.some.injEq, Prod.mk.injEq]
  constructor
  · rintro ⟨s, p, d, ⟨hnode, hproxy, hdest, -⟩, ⟨-, rfl⟩, rfl, rfl⟩
    exact ⟨hnode, hproxy, hdest⟩
  · rintro ⟨hnode, hproxy, hdest⟩
    have hne : source ≠ rank := by
      rintro rfl
      apply hnode
      have hsame := nodes.sameNode_proxyOf source destination
      rwa [← hproxy] at hsame
    exact ⟨source, rank, destination, ⟨hnode, hproxy, hdest, hne, .inl rfl⟩, ⟨hne, rfl⟩, rfl, rfl⟩

theorem mem_proxyDestinationInfo : (source, proxy) ∈ nodes.proxyDestinationInfo rank ↔
    ¬ nodes.SameNode source rank ∧ proxy = nodes.proxyOf source rank ∧ proxy ≠ rank := by
  simp only [proxyDestinationInfo, mem_filterMap, (nodes.sortedPaths_perm rank).mem_iff,
    mem_paths_proxied, reduceCtorEq, and_false, exists_false, false_or,
    Option.ite_none_right_eq_some, Option.some.injEq, Prod.mk.injEq]
  constructor
  · rintro ⟨s, p, d, ⟨hnode, hproxy, -⟩, ⟨-, hne, rfl⟩, rfl, rfl⟩
    exact ⟨hnode, hproxy, hne⟩
  · rintro ⟨hnode, hproxy, hdest⟩
    have hne : source ≠ rank := fun h => hnode (h ▸ rfl)
    exact ⟨source, proxy, rank, ⟨hnode, hproxy, hdest.symm, hne, .inr rfl⟩, ⟨hne, hdest, rfl⟩, rfl,
      rfl⟩

theorem SameNode.symm {nodes : Nodes size} (h : nodes.SameNode r s) : nodes.SameNode s r :=
  Eq.symm h

theorem SameNode.trans {nodes : Nodes size} {t : Fin size} (h : nodes.SameNode r s)
    (h' : nodes.SameNode s t) : nodes.SameNode r t :=
  Eq.trans h h'

theorem SameNode.proxyOf_eq {nodes : Nodes size} (h : nodes.SameNode r s) (source : Fin size) :
    nodes.proxyOf source r = nodes.proxyOf source s := by
  rw [proxyOf, proxyOf, h]

theorem mem_recvRanks_iff : source ∈ nodes.recvRanks rank ↔ rank ∈ nodes.sendRanks source := by
  rw [mem_recvRanks, mem_sendRanks]

theorem mem_proxyDestinationInfo_iff :
    (source, proxy) ∈ nodes.proxyDestinationInfo rank ↔ (source, rank) ∈ nodes.proxyInfo proxy := by
  rw [mem_proxyDestinationInfo, mem_proxyInfo, ne_comm]

theorem mem_sendRanks_of_proxyInfo (h : (source, destination) ∈ nodes.proxyInfo rank) :
    rank ∈ nodes.sendRanks source ∧ nodes.SameNode rank destination := by
  obtain ⟨hnode, hproxy, -⟩ := nodes.mem_proxyInfo.1 h
  have hsame : nodes.SameNode rank destination := hproxy ▸ nodes.sameNode_proxyOf source destination
  refine ⟨nodes.mem_sendRanks.2 ⟨fun hsource => hnode (hsource.trans hsame), ?_⟩, hsame⟩
  rw [hsame.proxyOf_eq]
  exact hproxy

theorem proxyInfo_nodup (rank : Fin size) : (nodes.proxyInfo rank).Nodup := by
  refine (nodes.sortedPaths_nodup rank).filterMap ?_
  intro a b info ha hb
  grind

theorem proxyDestinationInfo_nodup (rank : Fin size) : (nodes.proxyDestinationInfo rank).Nodup := by
  refine (nodes.sortedPaths_nodup rank).filterMap ?_
  intro a b info ha hb
  grind

theorem recvRanks_nodup (rank : Fin size) : (nodes.recvRanks rank).Nodup := by
  refine (nodes.sortedPaths_nodup rank).filterMap ?_
  intro a b info ha hb
  grind

theorem sendRanks_nodup (rank : Fin size) : (nodes.sendRanks rank).Nodup := by
  refine (nodes.sortedPaths_nodup rank).filterMap ?_
  intro a b info ha hb
  grind

/-- The ranks of a node and the ranks that they receive from are all ranks. -/
theorem node_perm (hlist : list ∈ nodes.nodeRanks) :
    (list ++ list.flatMap nodes.recvRanks).Perm (finRange size) := by
  have hnode : ∀ {r}, r ∈ list → nodes.nodeOf r = list := fun hr => (nodes.eq_nodeOf hlist hr).symm
  have hnodup := (nodup_flatten.mp nodes.nodup).1 list hlist
  refine (perm_ext_iff_of_nodup ?_ (nodup_finRange size)).mpr fun s => ?_
  · refine nodup_append'.mpr
      ⟨hnodup, nodup_flatMap.mpr ⟨fun r _ => nodes.recvRanks_nodup r, ?_⟩, fun s hs hmem => ?_⟩
    · refine hnodup.imp_of_mem fun {r r'} hr hr' hne s hs hs' => hne ?_
      rw [(nodes.mem_recvRanks.1 hs).2, (nodes.mem_recvRanks.1 hs').2]
      exact SameNode.proxyOf_eq ((hnode hr).trans (hnode hr').symm) s
    · obtain ⟨r, hr, hs'⟩ := mem_flatMap.mp hmem
      exact (nodes.mem_recvRanks.1 hs').1 ((hnode hs).trans (hnode hr).symm)
  · refine iff_of_true (mem_append.mpr ?_) (mem_finRange s)
    by_cases hs : s ∈ list
    · exact .inl hs
    · obtain ⟨r, hr⟩ := exists_mem_of_ne_nil list (nodes.ne_nil list hlist)
      have hsame := nodes.sameNode_proxyOf s r
      have hproxy : nodes.proxyOf s r ∈ list := by
        rw [← hnode hr]
        exact nodes.nodeOf_eq_iff.1 hsame
      refine .inr (mem_flatMap.mpr ⟨nodes.proxyOf s r, hproxy, ?_⟩)
      refine nodes.mem_recvRanks.2 ⟨fun h => hs ?_, by rw [hsame.proxyOf_eq]⟩
      rw [← hnode hproxy]
      exact nodes.nodeOf_eq_iff.1 h

end Nodes

def twoNodes : Nodes 3 where
  nodeRanks := [(finRange 3).filter (·.val ≠ 1), (finRange 3).filter (·.val = 1)]
  nodup := by decide
  cover := by decide
  ne_nil := by decide

end AllGather
