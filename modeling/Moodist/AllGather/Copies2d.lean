import Moodist.AllGather.Topology

/-!
# Copies of a two-dimensional all-gather

Model of `calculateAllGather2dCopies`: the rows that a rank gets from a peer are put together into
strided copies. Runs of consecutive rows that have the same length and the same distance make one
copy.
-/

namespace AllGather

open Foundation List

structure Copy2d where
  offset : ℕ
  length : ℕ
  pitch : ℕ
  num : ℕ
  deriving DecidableEq, Repr

/-! ## The loops -/

/-- How many of the sources follow `prevSource` without a gap, and the sources after them. -/
def takeSeq : ℕ → List ℕ → ℕ × List ℕ
  | _, [] => (0, [])
  | prevSource, source :: rest =>
    if source = prevSource + 1 then ((takeSeq source rest).1 + 1, (takeSeq source rest).2)
    else (0, source :: rest)

/-- `nextseq`: the begin and the end of the first run, and the sources after it. -/
def nextseq : List ℕ → Option ((ℕ × ℕ) × List ℕ)
  | [] => none
  | source :: rest =>
    some ((source, source + ((takeSeq source rest).1 + 1)), (takeSeq source rest).2)

/-- The inner loop: the pitch, the number of runs, and the sources that are left. -/
def addSeqs (seqLen : ℕ) : ℕ → ℕ → ℕ → ℕ → List ℕ → ℕ × ℕ × List ℕ
  | 0, pitch, numSeqs, _, recvs => (pitch, numSeqs, recvs)
  | fuel + 1, pitch, numSeqs, prev, recvs =>
    match nextseq recvs with
    | none => (pitch, numSeqs, recvs)
    | some (seq, rest) =>
      if seq.2 - seq.1 ≠ seqLen then (pitch, numSeqs, recvs)
      else if pitch = 0 then addSeqs seqLen fuel (seq.1 - prev) (numSeqs + 1) seq.1 rest
      else if seq.1 - prev ≠ pitch then (pitch, numSeqs, recvs)
      else addSeqs seqLen fuel pitch (numSeqs + 1) seq.1 rest

def copies (size : ℕ) : ℕ → List ℕ → Option (List Copy2d)
  | 0, _ => some []
  | fuel + 1, recvs =>
    match nextseq recvs with
    | none => some []
    | some (firstSeq, rest) => do
      let seqLen := firstSeq.2 - firstSeq.1
      let (pitch, numSeqs, left) := addSeqs seqLen rest.length 0 1 firstSeq.1 rest
      guard (pitch = 0 → numSeqs = 1)
      let c : Copy2d := ⟨firstSeq.1, seqLen, if pitch = 0 then seqLen else pitch, numSeqs⟩
      guard (1 ≤ c.num ∧ c.num < size)
      guard (1 ≤ c.length ∧ c.length < size)
      guard (c.length ≤ c.pitch ∧ c.pitch < size)
      let cs ← copies size fuel left
      return c :: cs

namespace Nodes

variable {size : ℕ} (nodes : Nodes size)

def recvsPerPeer (rank : Fin size) (peerIndex : ℕ) : List ℕ :=
  ((((nodes.proxyDestinationInfo rank).filter fun v =>
    decide (nodes.getPeerIndex rank v.2 = peerIndex)).map fun v => v.1.val) ++
      ((nodes.ipcRanks rank)[peerIndex]?.map Fin.val).toList).mergeSort fun a b => decide (a ≤ b)

def calculateAllGather2dCopies (rank : Fin size) : Option (List (List Copy2d)) := do
  guard (∀ v ∈ nodes.proxyDestinationInfo rank, nodes.getPeerIndex rank v.2 < 8)
  guard ((nodes.ipcRanks rank).length ≤ 8)
  (range (nodes.ipcRanks rank).length).mapM fun peerIndex =>
    let recvs := nodes.recvsPerPeer rank peerIndex
    copies size recvs.length recvs

end Nodes

/-! ## The rows of a copy -/

def rowsOf (offset length pitch num : ℕ) : List ℕ :=
  (range num).flatMap fun k => (range length).map fun j => offset + k * pitch + j

def Copy2d.rows (c : Copy2d) : List ℕ := rowsOf c.offset c.length c.pitch c.num

theorem rowsOf_succ (offset length pitch num : ℕ) :
    rowsOf offset length pitch (num + 1) = rowsOf offset length pitch num ++
      (range length).map fun j => offset + num * pitch + j := by
  rw [rowsOf, range_succ, flatMap_append, flatMap_singleton, rowsOf]

theorem rowsOf_one (offset length pitch : ℕ) :
    rowsOf offset length pitch 1 = (range length).map fun j => offset + j := by
  simp [rowsOf]

theorem length_rowsOf (offset length pitch num : ℕ) :
    (rowsOf offset length pitch num).length = num * length := by
  simp [rowsOf]

theorem map_add_range_succ (source n : ℕ) :
    (range (n + 1)).map (fun j => source + j) =
      source :: (range n).map fun j => source + 1 + j := by
  rw [range_succ_eq_map, map_cons, map_map]
  refine congrArg (List.cons _) (map_congr_left fun j _ => ?_)
  simp only [Function.comp_apply]
  omega

theorem takeSeq_eq (prevSource : ℕ) (recvs : List ℕ) :
    (range (takeSeq prevSource recvs).1).map (fun j => prevSource + 1 + j) ++
      (takeSeq prevSource recvs).2 = recvs := by
  induction recvs generalizing prevSource with
  | nil => rfl
  | cons source rest ih =>
    rw [takeSeq]
    split_ifs with h
    · subst h
      rw [map_add_range_succ, cons_append, ih]
    · rfl

theorem nextseq_spec {recvs rest : List ℕ} {seq : ℕ × ℕ} (h : nextseq recvs = some (seq, rest)) :
    seq.1 < seq.2 ∧ (range (seq.2 - seq.1)).map (fun j => seq.1 + j) ++ rest = recvs := by
  cases recvs with
  | nil => cases h
  | cons source recvs =>
    cases h
    refine ⟨by dsimp only; omega, ?_⟩
    dsimp only
    rw [Nat.add_sub_cancel_left, map_add_range_succ, cons_append, takeSeq_eq]

theorem nextseq_eq_none {recvs : List ℕ} : nextseq recvs = none ↔ recvs = [] := by
  cases recvs <;> simp [nextseq]

def Sorted (size : ℕ) (recvs : List ℕ) : Prop := recvs.Pairwise (· < ·) ∧ ∀ s ∈ recvs, s < size

/-- What the inner loop has found: the runs so far, and those that are left. -/
structure Strided (size first seqLen pitch numSeqs prev : ℕ) (recvs : List ℕ) : Prop where
  sorted : Sorted size recvs
  after : ∀ s ∈ recvs, prev + seqLen ≤ s
  num_pos : 0 < numSeqs
  single : pitch = 0 → numSeqs = 1
  prev_eq : prev = first + (numSeqs - 1) * pitch
  pitch_le : pitch ≠ 0 → seqLen ≤ pitch ∧ pitch < size

variable {size first seqLen pitch numSeqs prev fuel : ℕ} {recvs rest : List ℕ} {seq : ℕ × ℕ}

theorem Sorted.nextseq (h : Sorted size recvs) (hseq : nextseq recvs = some (seq, rest)) :
    Sorted size rest ∧ ∀ s ∈ rest, seq.2 ≤ s := by
  obtain ⟨hlt, rfl⟩ := nextseq_spec hseq
  obtain ⟨-, hrest, hafter⟩ := pairwise_append.mp h.1
  refine ⟨⟨hrest, fun s hs => h.2 s (mem_append_right _ hs)⟩, fun s hs => ?_⟩
  have hlast := hafter (seq.1 + (seq.2 - seq.1 - 1))
    (mem_map.mpr ⟨_, mem_range.mpr (by omega), rfl⟩) s hs
  omega

/-- A run of the same length at the same distance is added. -/
theorem Strided.next (h : Strided size first seqLen pitch numSeqs prev recvs)
    (hseq : nextseq recvs = some (seq, rest)) (hlen : seq.2 - seq.1 = seqLen)
    (hpitch : pitch = 0 ∨ seq.1 - prev = pitch) :
    Strided size first seqLen (seq.1 - prev) (numSeqs + 1) seq.1 rest ∧
      rowsOf first seqLen pitch numSeqs ++ recvs =
        rowsOf first seqLen (seq.1 - prev) (numSeqs + 1) ++ rest := by
  obtain ⟨hlt, heq⟩ := nextseq_spec hseq
  obtain ⟨hsorted, hrest⟩ := h.sorted.nextseq hseq
  rw [hlen] at heq
  have hmem : seq.1 ∈ recvs :=
    heq ▸ mem_append_left _ (mem_map.mpr ⟨0, mem_range.mpr (by omega), rfl⟩)
  have hafter := h.after _ hmem
  have hbound := h.sorted.2 _ hmem
  have hnum := h.num_pos
  have hfirst : seq.1 = first + numSeqs * (seq.1 - prev) := by
    have hprev := h.prev_eq
    rcases hpitch with hzero | hsame
    · rw [h.single hzero, Nat.one_mul]
      rw [hzero, Nat.mul_zero] at hprev
      omega
    · rw [hsame]
      have hmul : (numSeqs - 1) * pitch + pitch = numSeqs * pitch := by
        rw [← Nat.succ_mul, Nat.succ_eq_add_one, Nat.sub_add_cancel hnum]
      omega
  refine ⟨⟨hsorted, fun s hs => ?_, by omega, fun hzero => by omega, by simpa using hfirst,
    fun _ => ⟨by omega, by omega⟩⟩, ?_⟩
  · have hs' := hrest s hs
    omega
  · have hrows : rowsOf first seqLen pitch numSeqs =
        rowsOf first seqLen (seq.1 - prev) numSeqs := by
      rcases hpitch with hzero | hsame
      · rw [h.single hzero, rowsOf_one, rowsOf_one]
      · rw [hsame]
    rw [rowsOf_succ, ← hfirst, append_assoc, heq, hrows]

theorem addSeqs_spec (fuel : ℕ) (h : Strided size first seqLen pitch numSeqs prev recvs) :
    ∃ pitch' numSeqs' prev' left,
      addSeqs seqLen fuel pitch numSeqs prev recvs = (pitch', numSeqs', left) ∧
        Strided size first seqLen pitch' numSeqs' prev' left ∧
          rowsOf first seqLen pitch numSeqs ++ recvs =
            rowsOf first seqLen pitch' numSeqs' ++ left := by
  induction fuel generalizing pitch numSeqs prev recvs with
  | zero => exact ⟨pitch, numSeqs, prev, recvs, rfl, h, rfl⟩
  | succ fuel ih =>
    rw [addSeqs]
    cases hseq : nextseq recvs with
    | none => exact ⟨pitch, numSeqs, prev, recvs, rfl, h, rfl⟩
    | some found =>
      obtain ⟨seq, rest⟩ := found
      dsimp only
      split_ifs with hlen hzero hpitch
      · exact ⟨pitch, numSeqs, prev, recvs, rfl, h, rfl⟩
      · obtain ⟨hnext, hrows⟩ := h.next hseq (not_not.mp hlen) (.inl hzero)
        rw [hrows]
        exact ih hnext
      · exact ⟨pitch, numSeqs, prev, recvs, rfl, h, rfl⟩
      · obtain ⟨hnext, hrows⟩ := h.next hseq (not_not.mp hlen) (.inr (not_not.mp hpitch))
        rw [not_not.mp hpitch] at hnext hrows
        rw [hrows]
        exact ih hnext

/-- The checks pass, and the rows of the copies are the sources in their order. -/
theorem copies_spec (hsorted : Sorted size recvs) (hsize : recvs.length < size)
    (hfuel : recvs.length ≤ fuel) :
    ∃ cs, copies size fuel recvs = some cs ∧ cs.flatMap Copy2d.rows = recvs := by
  induction fuel generalizing recvs with
  | zero =>
    obtain rfl := length_eq_zero_iff.mp (Nat.le_zero.mp hfuel)
    exact ⟨[], rfl, rfl⟩
  | succ fuel ih =>
    rw [copies]
    cases hseq : nextseq recvs with
    | none =>
      obtain rfl := nextseq_eq_none.1 hseq
      exact ⟨[], rfl, rfl⟩
    | some found =>
      obtain ⟨seq, rest⟩ := found
      obtain ⟨hlt, heq⟩ := nextseq_spec hseq
      obtain ⟨hsorted', hrest⟩ := hsorted.nextseq hseq
      have hstart : Strided size seq.1 (seq.2 - seq.1) 0 1 seq.1 rest := by
        refine ⟨hsorted', fun s hs => ?_, Nat.one_pos, fun _ => rfl, rfl, fun hne => absurd rfl hne⟩
        have hs' := hrest s hs
        omega
      -- the sequences that follow at the same pitch join the copy
      obtain ⟨pitch, numSeqs, prev, left, hadd, hstrided, hrows⟩ := addSeqs_spec rest.length hstart
      rw [rowsOf_one, heq] at hrows
      have hlength := congrArg length hrows
      rw [length_append, length_rowsOf] at hlength
      have hnum := hstrided.num_pos
      have hmul : numSeqs ≤ numSeqs * (seq.2 - seq.1) := Nat.le_mul_of_pos_right _ (by omega)
      have hmul' : seq.2 - seq.1 ≤ numSeqs * (seq.2 - seq.1) := Nat.le_mul_of_pos_left _ hnum
      obtain ⟨cs, hcs, hleft⟩ := ih hstrided.sorted (by omega) (by omega)
      have hpitch : seq.2 - seq.1 ≤ (if pitch = 0 then seq.2 - seq.1 else pitch) ∧
          (if pitch = 0 then seq.2 - seq.1 else pitch) < size := by
        split_ifs with hzero
        · omega
        · exact hstrided.pitch_le hzero
      refine ⟨⟨seq.1, seq.2 - seq.1, if pitch = 0 then seq.2 - seq.1 else pitch, numSeqs⟩ :: cs,
        ?_, ?_⟩
      · have hnum' : 1 ≤ numSeqs ∧ numSeqs < size := by omega
        have hlen' : 1 ≤ seq.2 - seq.1 ∧ seq.2 - seq.1 < size := by omega
        simp only [hadd, hcs, guard, if_pos hstrided.single, if_pos hnum', if_pos hlen',
          if_pos hpitch]
        rfl
      · rw [flatMap_cons, hleft, hrows, Copy2d.rows]
        split_ifs with hzero
        · rw [hstrided.single hzero, rowsOf_one, rowsOf_one]
        · rfl

/-! ## The rows of all peers -/

theorem mapM_map_eq {α β γ : Type*} {f : α → Option β} {g : β → γ} {k : α → γ} {l : List α}
    (h : ∀ a ∈ l, ∃ b, f a = some b ∧ g b = k a) :
    ∃ bs, l.mapM f = some bs ∧ bs.map g = l.map k := by
  induction l with
  | nil => exact ⟨[], rfl, rfl⟩
  | cons a l ih =>
    obtain ⟨b, hb, hg⟩ := h a mem_cons_self
    obtain ⟨bs, hbs, hmap⟩ := ih fun a ha => h a (mem_cons_of_mem _ ha)
    exact ⟨b :: bs, by simp [mapM_cons, hb, hbs], by rw [map_cons, map_cons, hg, hmap]⟩

theorem flatMap_range_perm {α β : Type*} {l : List α} {f : ℕ → List β} {g : α → List β}
    (h : ∀ (i : ℕ) (a : α), l[i]? = some a → (f i).Perm (g a)) :
    ((range l.length).flatMap f).Perm (l.flatMap g) := by
  induction l generalizing f with
  | nil => rfl
  | cons a l ih =>
    rw [length_cons, range_succ_eq_map, flatMap_cons, flatMap_map, flatMap_cons]
    exact (h 0 a rfl).append (ih fun i b hb => h (i + 1) b hb)

namespace Nodes

variable {nodes : Nodes size} {rank p s : Fin size} {peerIndex : ℕ}

theorem mem_proxyDestinationInfo_peer (hp : p ∈ nodes.ipcRanks rank) :
    (s, p) ∈ nodes.proxyDestinationInfo rank ↔ s ∈ nodes.recvRanks p := by
  obtain ⟨hsame, hne⟩ := nodes.mem_ipcRanks.mp hp
  rw [mem_proxyDestinationInfo, mem_recvRanks, hsame.proxyOf_eq]
  constructor
  · exact fun h => ⟨fun hs => h.1 (hs.trans hsame), h.2.1⟩
  · exact fun h => ⟨fun hs => h.1 (hs.trans hsame.symm), h.2, hne⟩

theorem filter_proxyDestinationInfo_perm (hp : p ∈ nodes.ipcRanks rank) :
    (((nodes.proxyDestinationInfo rank).filter fun v => decide (v.2 = p)).map Prod.fst).Perm
      (nodes.recvRanks p) := by
  refine (perm_ext_iff_of_nodup ?_ (nodes.recvRanks_nodup p)).mpr fun s => ?_
  · refine ((nodes.proxyDestinationInfo_nodup rank).filter _).map_on fun v hv w hw h => ?_
    have hv' := of_decide_eq_true (mem_filter.mp hv).2
    have hw' := of_decide_eq_true (mem_filter.mp hw).2
    exact Prod.ext h (hv'.trans hw'.symm)
  · simp [← mem_proxyDestinationInfo_peer hp]

variable (hp : (nodes.ipcRanks rank)[peerIndex]? = some p)

include hp

theorem recvsPerPeer_perm :
    (nodes.recvsPerPeer rank peerIndex).Perm ((p :: nodes.recvRanks p).map Fin.val) := by
  have hfilter : (nodes.proxyDestinationInfo rank).filter (fun v =>
      decide (nodes.getPeerIndex rank v.2 = peerIndex)) =
        (nodes.proxyDestinationInfo rank).filter fun v => decide (v.2 = p) := by
    refine filter_congr fun v hv => decide_eq_decide.mpr ?_
    obtain ⟨-, hproxy, hne⟩ := nodes.mem_proxyDestinationInfo.mp hv
    have hpeer : v.2 ∈ nodes.ipcRanks rank :=
      nodes.mem_ipcRanks.mpr ⟨hproxy ▸ nodes.sameNode_proxyOf _ _, hne⟩
    obtain ⟨hlt, rfl⟩ := List.getElem?_eq_some_iff.mp hp
    have hidx := (nodes.ipcRanks_nodup rank).idxOf_getElem peerIndex hlt
    rw [getPeerIndex]
    constructor
    · intro h
      refine (idxOf_inj hpeer).mp ?_
      rw [h, hidx]
    · intro h
      rw [h, hidx]
  rw [recvsPerPeer, hfilter, hp]
  have hperm := (filter_proxyDestinationInfo_perm (mem_of_getElem? hp)).map Fin.val
  rw [map_map] at hperm
  exact (mergeSort_perm _ _).trans (perm_append_comm.trans (hperm.cons p.val))

theorem cons_peer_nodup : (rank :: p :: nodes.recvRanks p).Nodup := by
  obtain ⟨hsame, hne⟩ := nodes.mem_ipcRanks.mp (mem_of_getElem? hp)
  have hnot : ∀ r, nodes.SameNode r p → r ∉ nodes.recvRanks p := fun r hr hmem =>
    (nodes.mem_recvRanks.mp hmem).1 hr
  refine nodup_cons.mpr ⟨fun hmem => ?_, nodup_cons.mpr ⟨hnot p rfl, nodes.recvRanks_nodup p⟩⟩
  obtain h | h := mem_cons.mp hmem
  · exact hne h.symm
  · exact hnot rank hsame.symm h

theorem recvsPerPeer_nodup : (nodes.recvsPerPeer rank peerIndex).Nodup :=
  (recvsPerPeer_perm hp).nodup_iff.mpr
    ((nodup_cons.mp (cons_peer_nodup hp)).2.map Fin.val_injective)

theorem sorted_recvsPerPeer : Sorted size (nodes.recvsPerPeer rank peerIndex) := by
  refine ⟨?_, fun row hrow => ?_⟩
  · exact ((pairwise_mergeSort_le id _).and (recvsPerPeer_nodup hp)).imp fun {a b} h =>
      lt_of_le_of_ne h.1 h.2
  · obtain ⟨s, -, rfl⟩ := mem_map.mp ((recvsPerPeer_perm hp).mem_iff.mp hrow)
    exact s.isLt

theorem length_recvsPerPeer_lt : (nodes.recvsPerPeer rank peerIndex).length < size := by
  have hle := (cons_peer_nodup hp).length_le_card
  rw [Fintype.card_fin, length_cons] at hle
  rwa [(recvsPerPeer_perm hp).length_eq, length_map]

omit hp in
theorem rows_perm (nodes : Nodes size) (rank : Fin size) :
    (rank.val :: (nodes.recvRanks rank).map Fin.val ++
      (range (nodes.ipcRanks rank).length).flatMap (nodes.recvsPerPeer rank)).Perm
        (range size) := by
  have hpeers : ((range (nodes.ipcRanks rank).length).flatMap (nodes.recvsPerPeer rank)).Perm
      (((nodes.ipcRanks rank).flatMap fun p => p :: nodes.recvRanks p).map Fin.val) := by
    rw [map_flatMap]
    exact flatMap_range_perm fun i p => recvsPerPeer_perm
  have hnode : ((rank :: nodes.ipcRanks rank).flatMap fun p => p :: nodes.recvRanks p).Perm
      (finRange size) := by
    refine ((nodes.cons_ipcRanks_perm rank).flatMap_right _).trans ?_
    have hsplit := flatMap_append_perm (nodes.nodeOf rank) (fun p => [p]) nodes.recvRanks
    rw [flatMap_singleton'] at hsplit
    exact hsplit.symm.trans (nodes.node_perm (nodes.nodeOf_spec rank).1)
  have hmap := hnode.map Fin.val
  rw [map_coe_finRange_eq_range, flatMap_cons, map_append] at hmap
  exact ((Perm.refl _).append hpeers).trans hmap

omit hp in
/-- The checks pass, the copies of a peer have its rows, and all rows are covered once. -/
theorem calculateAllGather2dCopies_spec (nodes : Nodes size) (rank : Fin size)
    (h : (nodes.ipcRanks rank).length ≤ 8) :
    ∃ copies, nodes.calculateAllGather2dCopies rank = some copies ∧
      (∀ (peerIndex : ℕ) (p : Fin size), (nodes.ipcRanks rank)[peerIndex]? = some p →
        ∃ cs, copies[peerIndex]? = some cs ∧ (cs.flatMap Copy2d.rows).Nodup ∧
          ∀ row, row ∈ cs.flatMap Copy2d.rows ↔
            row = p.val ∨ ∃ source, row = source.val ∧
              (source, p) ∈ nodes.proxyDestinationInfo rank) ∧
      (rank.val :: (nodes.recvRanks rank).map Fin.val ++
        copies.flatMap fun cs => cs.flatMap Copy2d.rows).Perm (range size) := by
  have hpeer : ∀ v ∈ nodes.proxyDestinationInfo rank, nodes.getPeerIndex rank v.2 < 8 := by
    intro v hv
    obtain ⟨-, hproxy, hne⟩ := nodes.mem_proxyDestinationInfo.mp hv
    refine (idxOf_lt_length_iff.mpr (nodes.mem_ipcRanks.mpr ⟨?_, hne⟩)).trans_le h
    exact hproxy ▸ nodes.sameNode_proxyOf _ _
  obtain ⟨copies, hcopies, hrows⟩ : ∃ copies,
      ((range (nodes.ipcRanks rank).length).mapM fun peerIndex =>
        AllGather.copies size (nodes.recvsPerPeer rank peerIndex).length
          (nodes.recvsPerPeer rank peerIndex)) = some copies ∧
        copies.map (fun cs => cs.flatMap Copy2d.rows) =
          (range (nodes.ipcRanks rank).length).map (nodes.recvsPerPeer rank) :=
    mapM_map_eq fun i hi => by
      have hp := List.getElem?_eq_getElem (mem_range.mp hi)
      exact copies_spec (sorted_recvsPerPeer hp) (length_recvsPerPeer_lt hp) le_rfl
  refine ⟨copies, ?_, fun peerIndex p hp => ?_, ?_⟩
  · simp only [calculateAllGather2dCopies, guard, if_pos hpeer, if_pos h]
    exact hcopies
  · have hget := congrArg (·[peerIndex]?) hrows
    have hlt := (List.getElem?_eq_some_iff.mp hp).1
    simp only [List.getElem?_map, List.getElem?_range hlt, Option.map_some,
      Option.map_eq_some_iff] at hget
    obtain ⟨cs, hcs, hflat⟩ := hget
    refine ⟨cs, hcs, hflat ▸ recvsPerPeer_nodup hp, fun row => ?_⟩
    rw [hflat, (recvsPerPeer_perm hp).mem_iff, map_cons, mem_cons, mem_map]
    simp only [mem_proxyDestinationInfo_peer (mem_of_getElem? hp), and_comm, eq_comm]
  · rw [flatMap_def, hrows, ← flatMap_def]
    exact rows_perm nodes rank

end Nodes

/-- Three nodes of two ranks: a rank gets the odd rows from its peer. -/
theorem calculateAllGather2dCopies_six : ((consecutive 3 2 Nat.two_pos).ipcRanks 0).length ≤ 8 ∧
    ∃ copies cs, (consecutive 3 2 Nat.two_pos).calculateAllGather2dCopies 0 = some copies ∧
      copies[0]? = some cs ∧ (cs.flatMap Copy2d.rows).Perm [1, 3, 5] := by
  have hlength : ((consecutive 3 2 Nat.two_pos).ipcRanks 0).length ≤ 8 := by decide
  obtain ⟨copies, hcopies, hpeers, -⟩ :=
    Nodes.calculateAllGather2dCopies_spec (consecutive 3 2 Nat.two_pos) 0 hlength
  obtain ⟨cs, hcs, hnodup, hrows⟩ := hpeers 0 1 (by decide)
  have hproxied : ∀ source : Fin (3 * 2),
      (source, 1) ∈ (consecutive 3 2 Nat.two_pos).proxyDestinationInfo 0 ↔
        source = 3 ∨ source = 5 := by
    intro source
    rw [Nodes.mem_proxyDestinationInfo, Nodes.SameNode]
    revert source
    decide
  refine ⟨hlength, copies, cs, hcopies, hcs, (perm_ext_iff_of_nodup hnodup (by decide)).mpr ?_⟩
  intro row
  rw [hrows]
  simp only [hproxied, and_or_left, exists_or, exists_eq_right]
  simp

end AllGather
