import Moodist.AllGather.Order

/-!
# The checks of `AllGather::init` and `generate`

`init` builds the lists from the paths and checks them on the way; `generate` groups the entries of
the proxies by their source and makes the instructions of the kernel.
-/

namespace AllGather

open Foundation List Nodes
open Prod (fst snd)

variable {size : ℕ}

/-! ## `init` -/

def Path.involves (rank : Fin size) : Path size → Bool
  | .direct source destination => source = rank || destination = rank
  | .proxied source proxy destination =>
    source ≠ rank && (proxy = rank || destination = rank)

/-- The lists that `init` builds. -/
structure Lists (size : ℕ) where
  sendRanks : List (Fin size) := []
  recvRanks : List (Fin size) := []
  proxyInfo : List (Fin size × Fin size) := []
  proxyDestinationInfo : List (Fin size × Fin size) := []

namespace Nodes

variable (nodes : Nodes size)

/-- One round of the loop over the paths. It is `none` if a check fails, or if `getPeerIndex` does
not find the rank. -/
def add (rank : Fin size) (lists : Lists size) : Path size → Option (Lists size)
  | .direct source destination =>
    if source = destination then none
    else if source = rank then
      if destination ∈ lists.sendRanks then none
      else some { lists with sendRanks := lists.sendRanks ++ [destination] }
    else if destination = rank then
      if source ∈ lists.recvRanks then none
      else some { lists with recvRanks := lists.recvRanks ++ [source] }
    else some lists
  | .proxied source proxy destination =>
    if source = proxy ∨ source = destination ∨ proxy = destination then none
    else if source = rank then none
    else if proxy = rank then
      if source ∈ lists.recvRanks ∧ destination ∈ nodes.ipcRanks rank then
        some { lists with proxyInfo := lists.proxyInfo ++ [(source, destination)] }
      else none
    else if destination = rank then
      if proxy ∈ nodes.ipcRanks rank then
        some { lists with proxyDestinationInfo := lists.proxyDestinationInfo ++ [(source, proxy)] }
      else none
    else some lists

/-- The lists, if no check fails. `proxyDestinationInfoBySource`, `ringSendsBySource` and
`ringRecvsBySource` are checked to have one entry for a source. -/
def init (peerIpcAccess : Fin size → Fin size → Bool) (rank : Fin size) : Option (Lists size) := do
  guard (rank ∈ nodes.nodeRanks.flatten)
  guard (∀ list ∈ nodes.nodeRanks, ∀ dst ∈ list, ∀ src ∈ list, src ≠ dst → peerIpcAccess src dst)
  guard (∀ v ∈ nodes.sortedPaths rank, v.involves rank)
  let lists ← (nodes.sortedPaths rank).foldlM (nodes.add rank) {}
  guard (lists.proxyDestinationInfo.map fst).Nodup
  guard (∀ i ∈ lists.recvRanks, rank ∈ nodes.sendRanks i)
  guard ((nodes.ringSends rank).map fst).Nodup
  guard ((nodes.ringRecvs rank).map fst).Nodup
  return lists

/-! ## `generate` -/

/-- The entries of `proxyDestinationInfo` and `proxyInfo`, in runs of the same `pi.source`. -/
def groupedProxyMap (rank : Fin size) :
    List (List ((Fin size × Fin size) × (Fin size × Fin size))) :=
  grouped (fun pair => pair.2.1) ((nodes.proxyDestinationInfo rank).zip (nodes.proxyInfo rank))

def getPeerIndex (rank peer : Fin size) : ℕ := (nodes.ipcRanks rank).idxOf peer

def Fits (rank : Fin size) (pair : (Fin size × Fin size) × (Fin size × Fin size)) : Prop :=
  nodes.getPeerIndex rank pair.1.2 < 256 ∧ nodes.getPeerIndex rank pair.2.2 < 256 ∧
    (pair.1.1 : ℕ) < 65536

instance decidableFits (rank : Fin size) (pair : (Fin size × Fin size) × (Fin size × Fin size)) :
    Decidable (nodes.Fits rank pair) :=
  instDecidableAnd

def instruction (rank source : Fin size) (pair : (Fin size × Fin size) × (Fin size × Fin size)) :
    Option ℕ :=
  if pair.2.1 = source ∧ nodes.Fits rank pair then
    some (nodes.getPeerIndex rank pair.1.2 <<< 24 ||| nodes.getPeerIndex rank pair.2.2 <<< 16 |||
      pair.1.1)
  else none

/-- One round of the loop over the groups: the sources that have been waited for, and the
instructions so far. -/
def addGroup (rank : Fin size) (numProxies : ℕ) (st : List (Fin size) × List ℕ) :
    List ((Fin size × Fin size) × (Fin size × Fin size)) → Option (List (Fin size) × List ℕ)
  | [] => none
  | pair :: rest =>
    if pair.2.1 ∉ st.1 ∧ (pair :: rest).length = numProxies then do
      let codes ← (pair :: rest).mapM (nodes.instruction rank pair.2.1)
      return (pair.2.1 :: st.1, st.2 ++ (pair.2.1 : ℕ) :: codes)
    else none

/-- `allGatherInstructions`, if no check fails. -/
def instructions (rank : Fin size) : Option (List ℕ) := do
  guard ((nodes.proxyInfo rank).length = (nodes.proxyDestinationInfo rank).length)
  let numProxies := ((nodes.groupedProxyMap rank).head?.map length).getD 0
  let st ← (nodes.groupedProxyMap rank).foldlM (nodes.addGroup rank numProxies) ([], [])
  return st.2 ++ [2 ^ 32 - 1]

/-! ## The lists of all ranks -/

/-- The data of `s` get to `d` once, from `s` or from the one rank of the node of `d` that `s` sends
to. -/
def ReachesOnce (s d : Fin size) : Prop :=
  (nodes.sendRanks s).count d + ∑ p, (nodes.proxyInfo p).count (s, d) = 1 ∧
    ∀ p, (s, d) ∈ nodes.proxyInfo p → nodes.SameNode p d ∧ p ∈ nodes.sendRanks s ∧
      ∀ q ∈ nodes.sendRanks s, nodes.SameNode q d → q = p

/-- No check fails, and the lists of the ranks fit together. -/
structure Topology (peerIpcAccess : Fin size → Fin size → Bool) : Prop where
  init : ∀ rank, nodes.init peerIpcAccess rank = some ⟨nodes.sendRanks rank, nodes.recvRanks rank,
    nodes.proxyInfo rank, nodes.proxyDestinationInfo rank⟩
  instructions : ∀ rank, (nodes.instructions rank).isSome
  reachesOnce : ∀ s d, ¬ nodes.SameNode s d → nodes.ReachesOnce s d
  paired : ∀ (p q : Fin size) (i : ℕ) (s : Fin size), (nodes.proxyInfo p)[i]? = some (s, q) ↔
    (nodes.proxyDestinationInfo q)[i]? = some (s, p)
  ring_head : ∀ rank, (nodes.ringSends rank).head?.map fst = some rank
  ring_next : ∀ (rank : Fin size) (k : ℕ) (send : Fin size × Fin size),
    (nodes.ringSends rank)[k + 1]? = some send →
    ∃ recv, (nodes.ringRecvs rank)[k]? = some recv ∧ recv.1 = send.1
  ring_node : ∀ rank, ∀ list ∈ nodes.nodeRanks,
    ((rank :: (nodes.ringRecvs rank).map fst).filter (· ∈ list)).length = 1

/-! ## The loop over the paths -/

variable {rank source destination s d : Fin size}

def collect (rank : Fin size) (l : List (Path size)) : Lists size where
  sendRanks := l.filterMap fun
    | .direct source destination => if source = rank then some destination else none
    | .proxied _ _ _ => none
  recvRanks := l.filterMap fun
    | .direct source destination =>
      if source ≠ rank ∧ destination = rank then some source else none
    | .proxied _ _ _ => none
  proxyInfo := l.filterMap fun
    | .direct _ _ => none
    | .proxied source proxy destination =>
      if source ≠ rank ∧ proxy = rank then some (source, destination) else none
  proxyDestinationInfo := l.filterMap fun
    | .direct _ _ => none
    | .proxied source proxy destination =>
      if source ≠ rank ∧ proxy ≠ rank ∧ destination = rank then some (source, proxy) else none

variable {l front : List (Path size)}

theorem mem_collect_sendRanks : d ∈ (collect rank l).sendRanks ↔ .direct rank d ∈ l := by
  rw [collect, mem_filterMap]
  simp

theorem mem_collect_recvRanks : s ∈ (collect rank l).recvRanks ↔ .direct s rank ∈ l ∧ s ≠ rank := by
  rw [collect, mem_filterMap]
  simp

/-- A path passes the checks, if the proxy has got the data of its source before. -/
theorem add_collect {path : Path size} (hpath : path ∈ nodes.sortedPaths rank) (hnew : path ∉ front)
    (hproxy : ∀ s d, path = .proxied s rank d → .direct s rank ∈ front) :
    nodes.add rank (collect rank front) path = some (collect rank (front ++ [path])) := by
  rw [(nodes.sortedPaths_perm rank).mem_iff] at hpath
  cases path with
  | direct s d =>
    obtain ⟨hnode, -, hends⟩ := nodes.mem_paths_direct.mp hpath
    have hne : s ≠ d := fun h => hnode (h ▸ rfl)
    rw [add, if_neg hne]
    by_cases hs : s = rank
    · subst hs
      rw [if_pos rfl, if_neg fun h => hnew (mem_collect_sendRanks.1 h)]
      simp [collect]
    · have hd : d = rank := hends.resolve_left hs
      subst hd
      rw [if_neg hs, if_pos rfl, if_neg fun h => hnew (mem_collect_recvRanks.1 h).1]
      simp [collect, hs]
  | proxied s p d =>
    obtain ⟨hnode, hp, hne, hs, hends⟩ := nodes.mem_paths_proxied.mp hpath
    have hsame : nodes.SameNode p d := hp ▸ nodes.sameNode_proxyOf s d
    have hsp : s ≠ p := fun h => hnode (h ▸ hsame)
    have hsd : s ≠ d := fun h => hnode (h ▸ rfl)
    rw [add, if_neg (by simp [hsp, hsd, hne.symm]), if_neg hs]
    by_cases hrank : p = rank
    · subst hrank
      have hrecv := mem_collect_recvRanks.2 ⟨hproxy s d rfl, hs⟩
      have hpeer := nodes.mem_ipcRanks.mpr ⟨hsame.symm, hne⟩
      rw [if_pos rfl, if_pos ⟨hrecv, hpeer⟩]
      simp [collect, hs]
    · have hd : d = rank := hends.resolve_left hrank
      subst hd
      rw [if_neg hrank, if_pos rfl, if_pos (nodes.mem_ipcRanks.mpr ⟨hsame, hrank⟩)]
      simp [collect, hs, hrank]

theorem foldlM_add (hl : ∀ path ∈ l, path ∈ nodes.sortedPaths rank)
    (hnodup : (front ++ l).Nodup) (hproxy : ∀ s d, .proxied s rank d ∈ l → .direct s rank ∈ front) :
    l.foldlM (nodes.add rank) (collect rank front) = some (collect rank (front ++ l)) := by
  induction l generalizing front with
  | nil => simp
  | cons path l ih =>
    have hnew : path ∉ front := fun h =>
      disjoint_of_nodup_append hnodup h mem_cons_self
    have hadd := nodes.add_collect (hl path mem_cons_self) hnew
      fun s d hpath => hproxy s d (hpath ▸ mem_cons_self)
    rw [foldlM_cons, hadd, Option.bind_eq_bind, Option.bind_some, ih]
    · rw [append_assoc, singleton_append]
    · exact fun path hpath => hl path (mem_cons_of_mem _ hpath)
    · rwa [append_assoc, singleton_append]
    · exact fun s d hpath => mem_append_left _ (hproxy s d (mem_cons_of_mem _ hpath))

/-- The loop passes its checks: a rank receives from a source before it is a proxy for it. -/
theorem foldlM_add_sortedPaths (rank : Fin size) :
    (nodes.sortedPaths rank).foldlM (nodes.add rank) {} = some ⟨nodes.sendRanks rank,
      nodes.recvRanks rank, nodes.proxyInfo rank, nodes.proxyDestinationInfo rank⟩ := by
  have hmem := fun path => (nodes.sortedPaths_perm rank).mem_iff (a := path)
  have hnodup := nodes.sortedPaths_nodup rank
  let keep : Path size → Bool := fun a => decide (a.toList.length < 3 ∨ a.second ≠ rank)
  obtain ⟨l, hl⟩ : ∃ l : List (Path size),
      nodes.sortedPaths rank = l.filter keep ++ l.filter fun a => !keep a := ⟨_, rfl⟩
  have hdirect : ∀ s d, .proxied s rank d ∈ l.filter (fun a => !keep a) →
      .direct s rank ∈ l.filter keep := by
    intro s d hpath
    have hproxied : .proxied s rank d ∈ nodes.paths rank := by
      rw [← hmem, hl]
      exact mem_append_right _ hpath
    obtain ⟨hnode, hproxy, -⟩ := nodes.mem_paths_proxied.mp hproxied
    have hsame : nodes.SameNode rank d := hproxy ▸ nodes.sameNode_proxyOf s d
    have hmem' : .direct s rank ∈ nodes.sortedPaths rank := by
      refine (hmem _).mpr (nodes.mem_paths_direct.mpr
        ⟨fun h => hnode (h.trans hsame), ?_, .inr rfl⟩)
      rw [hsame.proxyOf_eq]
      exact hproxy
    rw [hl] at hmem'
    refine (mem_append.mp hmem').resolve_right fun h => ?_
    simp [keep, Path.toList] at h
  have hkeep : ∀ s d, .proxied s rank d ∈ l.filter keep →
      .direct s rank ∈ ([] : List (Path size)) := by
    intro s d hpath
    simp [keep, Path.toList, Path.second] at hpath
  have hfirst : (l.filter keep).foldlM (nodes.add rank) (collect rank []) =
      some (collect rank ([] ++ l.filter keep)) := by
    refine nodes.foldlM_add (fun path hpath => hl ▸ mem_append_left _ hpath) ?_ hkeep
    rw [hl] at hnodup
    exact hnodup.of_append_left
  have hsecond : (l.filter fun a => !keep a).foldlM (nodes.add rank)
      (collect rank (l.filter keep)) =
        some (collect rank (l.filter keep ++ l.filter fun a => !keep a)) :=
    nodes.foldlM_add (fun path hpath => hl ▸ mem_append_right _ hpath) (hl ▸ hnodup) hdirect
  have hall : collect rank (nodes.sortedPaths rank) = ⟨nodes.sendRanks rank,
      nodes.recvRanks rank, nodes.proxyInfo rank, nodes.proxyDestinationInfo rank⟩ := rfl
  rw [← hall, hl, foldlM_append]
  exact (congrArg (· >>= _) hfirst).trans hsecond

/-! ## Deliveries -/

theorem reachesOnce (h : ¬ nodes.SameNode s d) : nodes.ReachesOnce s d := by
  have hforward : ∀ p, (nodes.proxyInfo p).count (s, d) =
      if p = nodes.proxyOf s d then (if d ≠ nodes.proxyOf s d then 1 else 0) else 0 := by
    intro p
    rw [(nodes.proxyInfo_nodup p).count]
    by_cases hp : p = nodes.proxyOf s d
    · simp [nodes.mem_proxyInfo, h, ← hp]
    · simp [nodes.mem_proxyInfo, hp]
  refine ⟨?_, fun p hp => ?_⟩
  · simp only [hforward, Finset.sum_ite_eq', Finset.mem_univ, if_true]
    rw [(nodes.sendRanks_nodup s).count]
    by_cases hd : d = nodes.proxyOf s d
    · rw [if_pos (nodes.mem_sendRanks.mpr ⟨h, hd⟩), if_neg (not_not.mpr hd)]
    · rw [if_neg fun h' => hd (nodes.mem_sendRanks.mp h').2, if_pos hd]
  · obtain ⟨hsend, hsame⟩ := nodes.mem_sendRanks_of_proxyInfo hp
    refine ⟨hsame, hsend, fun q hq hq' => ?_⟩
    rw [(nodes.mem_sendRanks.mp hq).2, (nodes.mem_sendRanks.mp hsend).2, hq'.proxyOf_eq,
      hsame.proxyOf_eq]

end Nodes

/-! ## The groups of consecutive nodes -/

section Consecutive

variable {numNodes perNode : ℕ} (hpos : 0 < perNode)
  {rank source destination r s d p q : Fin (numNodes * perNode)}

theorem Proxied.steps_le (h : Proxied source destination) (h' : Proxied r s)
    (hle : proxyIndex source destination ≤ proxyIndex r s) :
    steps (node source) (node destination) ≤ steps (node r) (node s) := by
  obtain ⟨hn, -, hl, hl'⟩ := h.bounds
  obtain ⟨hm, -, hk, hk'⟩ := h'.bounds
  by_contra hlt
  have hmul : (perNode - 1) * (steps (node r) (node s) - 1 + 1) ≤
      (perNode - 1) * (steps (node source) (node destination) - 1) :=
    Nat.mul_le_mul_left _ (by omega)
  rw [Nat.mul_add, Nat.mul_one] at hmul
  unfold proxyIndex at hle
  omega

theorem ipcRanks_length_lt (rank : Fin (numNodes * perNode)) :
    ((consecutive _ _ hpos).ipcRanks rank).length < perNode := by
  have hlength := ((consecutive _ _ hpos).cons_ipcRanks_perm rank).length_eq
  rw [length_cons, nodeOf_length_consecutive] at hlength
  omega

/-- A proxy forwards the data of a source to all the others of its node. -/
theorem length_filter_proxyInfo (h : (s, d) ∈ (consecutive _ _ hpos).proxyInfo rank) :
    (((consecutive _ _ hpos).proxyInfo rank).filter (·.1 = s)).length =
      ((consecutive _ _ hpos).ipcRanks rank).length := by
  obtain ⟨⟨hnode, hlocal⟩, hrank⟩ := (mem_proxyInfo_consecutive hpos).mp h
  have hrankNode : node rank = node d := by rw [hrank, node_rankAt]
  have hrankLocal : localRank rank = localRank s := by rw [hrank, localRank_rankAt]
  have hperm : ((((consecutive _ _ hpos).proxyInfo rank).filter (·.1 = s)).map
      snd).Perm ((consecutive _ _ hpos).ipcRanks rank) := by
    refine (perm_ext_iff_of_nodup ?_ (ipcRanks_nodup _ rank)).mpr fun d' => ?_
    · refine Nodup.map_on ?_ ((proxyInfo_nodup _ rank).filter _)
      rintro ⟨s₁, d₁⟩ h₁ ⟨s₂, d₂⟩ h₂ hd
      obtain rfl : s₁ = s := of_decide_eq_true (mem_filter.mp h₁).2
      obtain rfl : s₂ = s₁ := of_decide_eq_true (mem_filter.mp h₂).2
      rw [show d₁ = d₂ from hd]
    · rw [mem_ipcRanks_consecutive, mem_map]
      constructor
      · rintro ⟨⟨s', d'⟩, h', rfl⟩
        obtain ⟨h', hs'⟩ := mem_filter.mp h'
        obtain ⟨hproxied, hrank'⟩ := (mem_proxyInfo_consecutive hpos).mp h'
        refine ⟨by rw [hrank', node_rankAt], fun heq => hproxied.2 ?_⟩
        dsimp only at heq
        rw [heq, hrank', localRank_rankAt]
      · rintro ⟨hnode', hne⟩
        refine ⟨(s, d'), mem_filter.mpr ⟨?_, decide_eq_true rfl⟩, rfl⟩
        refine (mem_proxyInfo_consecutive hpos).mpr ⟨⟨?_, ?_⟩, ?_⟩
        · rwa [hnode', hrankNode]
        · exact fun heq => hne (rank_ext hnode' (heq.symm.trans hrankLocal.symm))
        · rw [hnode', ← hrankLocal, rankAt_node_localRank]
  rw [← hperm.length_eq, length_map]

variable (hper : 2 * perNode ≤ 2 ^ 64)

variable (rank : Fin (numNodes * perNode))

include hper in
theorem zip_map_snd :
    (((consecutive _ _ hpos).proxyDestinationInfo rank).zip
      ((consecutive _ _ hpos).proxyInfo rank)).map snd =
      (consecutive _ _ hpos).proxyInfo rank := by
  refine map_snd_zip ?_
  rw [(indexed_proxyInfo hpos hper rank).length_eq,
    (indexed_proxyDestinationInfo hpos hper rank).length_eq]

include hper in
theorem zip_map_fst :
    (((consecutive _ _ hpos).proxyDestinationInfo rank).zip
      ((consecutive _ _ hpos).proxyInfo rank)).map fst =
      (consecutive _ _ hpos).proxyDestinationInfo rank := by
  refine map_fst_zip ?_
  rw [(indexed_proxyInfo hpos hper rank).length_eq,
    (indexed_proxyDestinationInfo hpos hper rank).length_eq]

include hper in
/-- The groups of `generate`. -/
theorem exists_runs_groupedProxyMap : ∃ runs,
    Runs (fun pair => pair.2.1) (fun s => steps (node s) (node rank))
      (((consecutive _ _ hpos).proxyDestinationInfo rank).zip
        ((consecutive _ _ hpos).proxyInfo rank))
      ((((consecutive _ _ hpos).proxyDestinationInfo rank).zip
        ((consecutive _ _ hpos).proxyInfo rank)).foldl
          (groupStep fun pair => pair.2.1) (none, [])) runs := by
  have hmem : ∀ pair ∈ ((consecutive _ _ hpos).proxyDestinationInfo rank).zip
      ((consecutive _ _ hpos).proxyInfo rank), Proxied pair.2.1 pair.2.2 ∧
        node pair.2.2 = node rank ∧ localRank pair.2.1 = localRank rank := by
    rintro ⟨pdi, s, d⟩ hpair
    obtain ⟨h, hrank⟩ := (mem_proxyInfo_consecutive hpos).mp (of_mem_zip hpair).2
    exact ⟨h, by rw [hrank, node_rankAt], by rw [hrank, localRank_rankAt]⟩
  refine exists_runs ?_ ?_
  · have hpairwise := (indexed_proxyInfo hpos hper rank).pairwise
    rw [← zip_map_snd hpos hper rank, pairwise_map] at hpairwise
    refine hpairwise.imp_of_mem fun {x y} hx hy hlt => ?_
    obtain ⟨h, hnode, -⟩ := hmem x hx
    obtain ⟨h', hnode', -⟩ := hmem y hy
    have hle := h.steps_le h' hlt.le
    rwa [hnode, hnode'] at hle
  · intro x hx y hy heq
    exact rank_ext (eq_of_steps_left heq) ((hmem x hx).2.2.trans (hmem y hy).2.2.symm)

theorem guard_of {p : Prop} [Decidable p] (h : p) : (guard p : Option Unit) = some () :=
  if_pos h

theorem isSome_mapM_iff {α β : Type*} {f : α → Option β} {l : List α} :
    (l.mapM f).isSome ↔ ∀ x ∈ l, (f x).isSome := by
  induction l with
  | nil => simp
  | cons x l ih =>
    rw [mapM_cons, forall_mem_cons, ← ih]
    cases f x with
    | none => simp
    | some y => cases l.mapM f <;> simp

/-- The groups pass their checks exactly if all numbers fit. -/
theorem isSome_foldlM_addGroup_iff (nodes : Nodes size) (rank : Fin size) {numProxies : ℕ}
    {runs : List (Fin size × List ((Fin size × Fin size) × (Fin size × Fin size)))}
    (hne : ∀ run ∈ runs, run.2 ≠ []) (hsource : ∀ run ∈ runs, ∀ pair ∈ run.2, pair.2.1 = run.1)
    (hlen : ∀ run ∈ runs, run.2.length = numProxies) (hnodup : (runs.map fst).Nodup)
    (st : List (Fin size) × List ℕ) (hnew : ∀ run ∈ runs, run.1 ∉ st.1) :
    ((runs.map snd).foldlM (nodes.addGroup rank numProxies) st).isSome ↔
      ∀ run ∈ runs, ∀ pair ∈ run.2, nodes.Fits rank pair := by
  induction runs generalizing st with
  | nil => simp
  | cons run runs ih =>
    obtain ⟨s, group⟩ := run
    obtain ⟨pair, rest, rfl⟩ := exists_cons_of_ne_nil (hne (s, group) mem_cons_self)
    have hpair : ∀ pair' ∈ pair :: rest, pair'.2.1 = s := hsource _ mem_cons_self
    obtain rfl := hpair pair mem_cons_self
    rw [map_cons, nodup_cons] at hnodup
    have hcodes : ((pair :: rest).mapM (nodes.instruction rank pair.2.1)).isSome ↔
        ∀ pair' ∈ pair :: rest, nodes.Fits rank pair' := by
      rw [isSome_mapM_iff]
      refine forall₂_congr fun pair' hmem => ?_
      rw [instruction, Option.isSome_ite, and_iff_right (hpair pair' hmem)]
    rw [map_cons, foldlM_cons, addGroup,
      if_pos ⟨hnew _ mem_cons_self, hlen _ mem_cons_self⟩, forall_mem_cons, ← hcodes]
    cases (pair :: rest).mapM (nodes.instruction rank pair.2.1) with
    | none => simp
    | some codes =>
      simp only [Option.bind_eq_bind, Option.bind_some, Option.pure_def, Option.isSome_some,
        true_and]
      refine ih (fun run h => hne run (mem_cons_of_mem _ h))
        (fun run h => hsource run (mem_cons_of_mem _ h))
        (fun run h => hlen run (mem_cons_of_mem _ h)) hnodup.2 _ fun run h hmem => ?_
      obtain heq | hmem := mem_cons.mp hmem
      · exact hnodup.1 (heq ▸ mem_map.mpr ⟨run, h, rfl⟩)
      · exact hnew run (mem_cons_of_mem _ h) hmem

include hper in
/-- The instructions can be made exactly if all numbers fit. -/
theorem isSome_instructions_iff :
    ((consecutive _ _ hpos).instructions rank).isSome ↔
      ∀ pair ∈ ((consecutive _ _ hpos).proxyDestinationInfo rank).zip
        ((consecutive _ _ hpos).proxyInfo rank),
          (consecutive _ _ hpos).Fits rank pair := by
  obtain ⟨runs, hruns⟩ := exists_runs_groupedProxyMap hpos hper rank
  have hgroups : (consecutive _ _ hpos).groupedProxyMap rank = runs.map snd := hruns.groups
  have hlength : ∀ run ∈ runs, run.2.length =
      ((consecutive _ _ hpos).ipcRanks rank).length := by
    intro run hrun
    obtain ⟨⟨pdi, s, d⟩, hpair⟩ := exists_mem_of_ne_nil _ (hruns.ne_nil run hrun)
    have hsource : s = run.1 := hruns.key_eq run hrun _ hpair
    have hmem : (s, d) ∈ (consecutive _ _ hpos).proxyInfo rank :=
      (of_mem_zip (hruns.mem_of_mem_run hrun hpair)).2
    rw [← length_filter_proxyInfo hpos hmem, hsource, ← zip_map_snd hpos hper rank,
      filter_map, length_map, hruns.eq_filter hrun]
    rfl
  have hhead : ∀ run ∈ runs, run.2.length =
      (((consecutive _ _ hpos).groupedProxyMap rank).head?.map length).getD 0 := by
    intro run hrun
    obtain ⟨first, rest, rfl⟩ := exists_cons_of_ne_nil (ne_nil_of_mem hrun)
    rw [hgroups, hlength run hrun]
    exact (hlength first mem_cons_self).symm
  have hnodup : (runs.map fst).Nodup :=
    pairwise_map.mpr (hruns.sorted.imp fun hlt heq =>
      hlt.ne (congrArg (fun s => steps (node s) (node rank)) heq))
  have hfold := isSome_foldlM_addGroup_iff (consecutive _ _ hpos) rank
    hruns.ne_nil hruns.key_eq hhead hnodup ([], []) fun _ _ => not_mem_nil
  have hsize : ((consecutive _ _ hpos).proxyInfo rank).length =
      ((consecutive _ _ hpos).proxyDestinationInfo rank).length := by
    rw [(indexed_proxyInfo hpos hper rank).length_eq,
      (indexed_proxyDestinationInfo hpos hper rank).length_eq]
  rw [← hgroups] at hfold
  have hall : (∀ run ∈ runs, ∀ pair ∈ run.2, (consecutive _ _ hpos).Fits rank pair) ↔
      ∀ pair ∈ (runs.map snd).flatten, (consecutive _ _ hpos).Fits rank pair := by
    simp only [mem_flatten, mem_map]
    constructor
    · rintro h pair ⟨_, ⟨run, hrun, rfl⟩, hpair⟩
      exact h run hrun pair hpair
    · exact fun h run hrun pair hpair => h pair ⟨_, ⟨run, hrun, rfl⟩, hpair⟩
  rw [hall, hruns.flatten] at hfold
  rw [← hfold, instructions, guard_of hsize, Option.bind_eq_bind, Option.bind_some]
  dsimp only
  generalize List.foldlM (m := Option) _ _ _ = st
  cases st <;> simp

/-! ## The lists of consecutive nodes -/

/-- With one rank in a node there are no proxies. Otherwise an instruction has room for 256 peers
and for 65536 sources. -/
theorem fits_of_le (h : perNode = 1 ∨ perNode ≤ 257 ∧ numNodes * perNode ≤ 65536)
    {pair : (Fin (numNodes * perNode) × Fin (numNodes * perNode)) ×
      (Fin (numNodes * perNode) × Fin (numNodes * perNode))}
    (hpair : pair ∈ ((consecutive _ _ hpos).proxyDestinationInfo rank).zip
      ((consecutive _ _ hpos).proxyInfo rank)) :
    (consecutive _ _ hpos).Fits rank pair := by
  obtain ⟨⟨s, p⟩, s', d⟩ := pair
  obtain ⟨hpdi, hpi⟩ := of_mem_zip hpair
  obtain ⟨hnode, hlocal, rfl⟩ := (mem_proxyDestinationInfo_consecutive hpos).mp hpdi
  obtain rfl | ⟨hle, hsize⟩ := h
  · exact absurd (Subsingleton.elim _ _) hlocal
  have hproxy : rankAt (node rank) (localRank s) ∈
      (consecutive _ _ hpos).ipcRanks rank := by
    refine (mem_ipcRanks_consecutive hpos).mpr ⟨node_rankAt _ _, fun heq => hlocal ?_⟩
    rw [← heq, localRank_rankAt]
  have hdestination : d ∈ (consecutive _ _ hpos).ipcRanks rank := by
    obtain ⟨⟨-, hlocal'⟩, hrank⟩ := (mem_proxyInfo_consecutive hpos).mp hpi
    refine (mem_ipcRanks_consecutive hpos).mpr ⟨by rw [hrank, node_rankAt], fun heq => hlocal' ?_⟩
    rw [heq, hrank, localRank_rankAt]
  have hlength := ipcRanks_length_lt hpos rank
  refine ⟨?_, ?_, s.isLt.trans_le hsize⟩
  · exact (idxOf_lt_length_of_mem hproxy).trans_le (by omega)
  · exact (idxOf_lt_length_of_mem hdestination).trans_le (by omega)

theorem ringSends_map_fst_nodup :
    (((consecutive _ _ hpos).ringSends rank).map fst).Nodup := by
  have h := (indexed_ringSends hpos rank).pairwise
  refine pairwise_map.mpr (h.imp fun hlt heq => hlt.ne ?_)
  rw [heq]

/-- All checks of `init` pass. -/
theorem init_consecutive
    (peerIpcAccess : Fin (numNodes * perNode) → Fin (numNodes * perNode) → Bool)
    (hipc : ∀ r s, node r = node s → peerIpcAccess r s = true) (rank : Fin (numNodes * perNode)) :
    (consecutive _ _ hpos).init peerIpcAccess rank =
      some ⟨(consecutive _ _ hpos).sendRanks rank, (consecutive _ _ hpos).recvRanks rank,
        (consecutive _ _ hpos).proxyInfo rank,
        (consecutive _ _ hpos).proxyDestinationInfo rank⟩ := by
  have haccess : ∀ list ∈ (consecutive _ _ hpos).nodeRanks, ∀ dst ∈ list,
      ∀ src ∈ list, src ≠ dst → peerIpcAccess src dst := by
    intro list hlist dst hdst src hsrc _
    obtain ⟨n, -, rfl⟩ := mem_map.mp hlist
    exact hipc src dst ((mem_rowOf.mp hsrc).trans (mem_rowOf.mp hdst).symm)
  have hpaths : ∀ v ∈ (consecutive _ _ hpos).sortedPaths rank, v.involves rank := by
    intro v hv
    rw [(sortedPaths_perm _ rank).mem_iff] at hv
    cases v with
    | direct s d => simpa [Path.involves] using (mem_paths_direct _ |>.mp hv).2.2
    | proxied s p d => simpa [Path.involves] using (mem_paths_proxied _ |>.mp hv).2.2.2
  have hproxies : (((consecutive _ _ hpos).proxyDestinationInfo rank).map
      fst).Nodup := by
    refine Nodup.map_on ?_ (proxyDestinationInfo_nodup _ rank)
    rintro ⟨s, p⟩ h ⟨s', p'⟩ h' rfl
    rw [((mem_proxyDestinationInfo_consecutive hpos).mp h).2.2,
      ((mem_proxyDestinationInfo_consecutive hpos).mp h').2.2]
  have hnext : ∀ i ∈ (consecutive _ _ hpos).recvRanks rank,
      rank ∈ (consecutive _ _ hpos).sendRanks i :=
    fun i hi => (mem_recvRanks_iff _).mp hi
  have hrecvs : (((consecutive _ _ hpos).ringRecvs rank).map fst).Nodup := by
    rw [ringRecvs_map_fst]
    exact recvRanks_nodup _ rank
  simp only [init, guard_of ((consecutive _ _ hpos).cover rank),
    guard_of haccess, guard_of hpaths, foldlM_add_sortedPaths, Option.bind_eq_bind,
    Option.bind_some, guard_of hproxies, guard_of hnext,
    guard_of (ringSends_map_fst_nodup hpos rank), guard_of hrecvs, Option.pure_def]

theorem ring_node_consecutive (n : Fin numNodes) :
    ((rank :: ((consecutive _ _ hpos).ringRecvs rank).map fst).filter
      (· ∈ rowOf perNode n)).length = 1 := by
  have hmem : ∀ r, r ∈ rank :: ((consecutive _ _ hpos).ringRecvs rank).map fst ↔
      localRank r = localRank rank := by
    intro r
    rw [ringRecvs_map_fst, mem_cons, mem_recvRanks_consecutive]
    constructor
    · rintro (rfl | ⟨-, h⟩)
      · rfl
      · exact h.symm
    · intro h
      by_cases hnode : node r = node rank
      · exact .inl (rank_ext hnode h)
      · exact .inr ⟨hnode, h.symm⟩
  have hnodup : (rank :: ((consecutive _ _ hpos).ringRecvs rank).map
      fst).Nodup := by
    rw [ringRecvs_map_fst, nodup_cons, mem_recvRanks_consecutive]
    exact ⟨fun h => h.1 rfl, recvRanks_nodup _ rank⟩
  have hperm : ((rank :: ((consecutive _ _ hpos).ringRecvs rank).map fst).filter
      (· ∈ rowOf perNode n)).Perm [rankAt n (localRank rank)] := by
    refine (perm_ext_iff_of_nodup (hnodup.filter _) (nodup_singleton _)).mpr fun r => ?_
    rw [mem_filter, hmem, decide_eq_true_iff, mem_rowOf, mem_singleton]
    constructor
    · rintro ⟨hlocal, rfl⟩
      rw [← hlocal, rankAt_node_localRank]
    · rintro rfl
      exact ⟨localRank_rankAt _ _, node_rankAt _ _⟩
  exact hperm.length_eq

theorem nextNode_ne (hnodes : 2 ≤ numNodes) (n : Fin numNodes) : n ≠ nextNode n := by
  intro h
  have hn := n.isLt
  have hval : (n : ℕ) = (n + 1) % numNodes := congrArg Fin.val h
  by_cases hlast : (n : ℕ) + 1 = numNodes
  · rw [hlast, Nat.mod_self] at hval
    omega
  · rw [Nat.mod_eq_of_lt (by omega)] at hval
    omega

/-- The lists of consecutive nodes, if the numbers fit into the instructions. -/
theorem topology_consecutive (hnodes : 2 ≤ numNodes)
    (hfits : perNode = 1 ∨ perNode ≤ 257 ∧ numNodes * perNode ≤ 65536)
    (peerIpcAccess : Fin (numNodes * perNode) → Fin (numNodes * perNode) → Bool)
    (hipc : ∀ r s, node r = node s → peerIpcAccess r s = true) :
    (consecutive numNodes perNode hpos).Topology peerIpcAccess := by
  have hper : 2 * perNode ≤ 2 ^ 64 := by omega
  refine ⟨init_consecutive hpos peerIpcAccess hipc, fun rank => ?_, fun s d => reachesOnce _,
    fun p q i s => ?_, fun rank => ?_, fun rank k send hsend => ?_, fun rank list hlist => ?_⟩
  · exact (isSome_instructions_iff hpos hper rank).mpr fun pair => fits_of_le hpos _ hfits
  · rw [(indexed_proxyInfo hpos hper p).getElem?_iff,
      (indexed_proxyDestinationInfo hpos hper q).getElem?_iff, mem_proxyDestinationInfo_iff]
  · have hfirst : ((consecutive numNodes perNode hpos).ringSends rank)[0]? =
        some (rank, nextRank rank) := by
      refine (indexed_ringSends hpos rank).getElem?_iff.mpr ⟨?_, steps_eq_zero_iff.mpr rfl⟩
      refine (mem_ringSends_consecutive hpos).mpr ⟨?_, localRank_rankAt _ _, rfl⟩
      rw [nextRank, node_rankAt]
      exact nextNode_ne hnodes _
    rw [List.head?_eq_getElem?, hfirst]
    rfl
  · obtain ⟨s, r⟩ := send
    obtain ⟨hmem, hsteps⟩ := (indexed_ringSends hpos rank).getElem?_iff.mp hsend
    obtain ⟨-, hlocal, rfl⟩ := (mem_ringSends_consecutive hpos).mp hmem
    rw [nextRank, localRank_rankAt] at hlocal
    have hnode : node s ≠ node rank := by
      intro h
      rw [steps_eq_zero_iff.mpr h] at hsteps
      exact Nat.succ_ne_zero k hsteps.symm
    refine ⟨(s, some (prevRank rank)), (indexed_ringRecvs hpos rank).getElem?_iff.mpr ⟨?_, ?_⟩, rfl⟩
    · exact (mem_ringRecvs_consecutive hpos).mpr ⟨hnode, hlocal, rfl⟩
    · rw [hsteps, Nat.add_sub_cancel]
  · obtain ⟨n, -, rfl⟩ := mem_map.mp hlist
    exact ring_node_consecutive hpos rank n

theorem topology_consecutive_two : (consecutive 2 2 (by decide)).Topology fun _ _ => true :=
  topology_consecutive (by decide) (by decide) (by decide) _ fun _ _ _ => rfl

/-- With 32769 nodes of two ranks, the last sources do not fit into an instruction. -/
theorem not_topology_large : ¬ (consecutive 32769 2 (by decide)).Topology fun _ _ => true := by
  intro h
  have hper : 2 * 2 ≤ 2 ^ 64 := by decide
  let source : Fin (32769 * 2) := rankAt ⟨32768, by decide⟩ 0
  let rank : Fin (32769 * 2) := rankAt ⟨0, by decide⟩ 1
  have hmem : (source, rankAt (node rank) (localRank source)) ∈
      (consecutive 32769 2 (by decide)).proxyDestinationInfo rank := by
    refine (mem_proxyDestinationInfo_consecutive (by decide)).mpr ⟨?_, ?_, rfl⟩
    · rw [node_rankAt, node_rankAt]
      decide
    · rw [localRank_rankAt, localRank_rankAt]
      decide
  rw [← zip_map_fst (by decide) hper rank, mem_map] at hmem
  obtain ⟨pair, hpair, hfst⟩ := hmem
  have hfits := (isSome_instructions_iff (by decide) hper rank).mp (h.instructions rank) pair hpair
  have hlt : (source : ℕ) < 65536 := by
    have hlt := hfits.2.2
    rwa [hfst] at hlt
  rw [rank_val, localRank_rankAt, node_rankAt] at hlt
  exact absurd hlt (by decide)

end Consecutive

end AllGather
