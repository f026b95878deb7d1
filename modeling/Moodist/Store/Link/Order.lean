import Moodist.Store.Link.Connection

/-!
# Order on the link

What the two ends of an edge know of each other's messages, in every state that can be reached.
-/

namespace Store.Link

open Foundation List Function Connection EdgeInfo

variable {R M : Type} {a b : ℕ}

/-! ## Sequence numbers -/

theorem seqDiff_eq_bmod (a b : ℕ) : seqDiff a b = ((a : ℤ) - b).bmod (2 ^ 32) := by
  rw [seqDiff, BitVec.toInt_sub, BitVec.toInt_ofNat', BitVec.toInt_ofNat']
  simp

theorem seqDiff_eq (h : a < b + 2 ^ 31) (h' : b ≤ a + 2 ^ 31) :
    seqDiff a b = (a : ℤ) - b := by
  rw [seqDiff_eq_bmod]
  exact Int.bmod_eq_of_le (by omega) (by omega)

theorem seqDiff_eq_zero (h : a < b + 2 ^ 32) (h' : b < a + 2 ^ 32) :
    seqDiff a b = 0 ↔ a = b := by
  rw [seqDiff_eq_bmod]
  constructor
  · intro hzero
    have hdvd := Int.dvd_of_bmod_eq_zero hzero
    omega
  · rintro rfl
    simp

/-! ## The incoming side -/

def EdgeInfo.Handled (pi : EdgeInfo R M) (k : ℕ) : Prop :=
  k < pi.incomingSeq ∨ k ∈ pi.incomingQueue.map Prod.fst

/-- The incoming side of an end, when `sent` are the messages of the other end: the first of
them have been processed, and those that wait come from before the number `b`. -/
structure Received (sent : List M) (b : ℕ) (pi : EdgeInfo R M) : Prop where
  processed : pi.processed = sent.take pi.incomingSeq
  incoming_le : pi.incomingSeq ≤ sent.length
  waiting : ∀ v ∈ pi.incomingQueue, sent[v.1]? = some v.2 ∧ pi.incomingSeq < v.1 ∧ v.1 < b

section Receive

variable {sent sent' : List M} {b' k : ℕ} {m : M} {pi : EdgeInfo R M}

theorem Received.lt_of_handled (h : Received sent b pi) (hk : pi.Handled k) : k < sent.length := by
  rcases hk with hk | hk
  · exact hk.trans_le h.incoming_le
  · obtain ⟨v, hv, rfl⟩ := mem_map.mp hk
    exact (List.getElem?_eq_some_iff.mp (h.waiting v hv).1).1

theorem Received.not_handled (h : Received sent b pi) : ¬ pi.Handled pi.incomingSeq := by
  rintro (hk | hk)
  · exact lt_irrefl _ hk
  · obtain ⟨v, hv, heq⟩ := mem_map.mp hk
    have := (h.waiting v hv).2.1
    omega

theorem Received.mono (h : Received sent b pi) (hsent : sent <+: sent') (hb : b ≤ b') :
    Received sent' b' pi := by
  obtain ⟨rest, rfl⟩ := hsent
  refine ⟨?_, ?_, fun v hv => ?_⟩
  · rw [take_append_of_le_length h.incoming_le]
    exact h.processed
  · rw [length_append]
    exact h.incoming_le.trans (Nat.le_add_right ..)
  · obtain ⟨hv₁, hv₂, hv₃⟩ := h.waiting v hv
    refine ⟨?_, hv₂, hv₃.trans_le hb⟩
    rwa [List.getElem?_append_left (List.getElem?_eq_some_iff.mp hv₁).1]

theorem take_succ_of_getElem? {l : List M} {n : ℕ} (h : l[n]? = some m) :
    l.take (n + 1) = l.take n ++ [m] := by
  rw [take_add_one, h]
  rfl

theorem processed_process (hp : pi.processed = sent.take pi.incomingSeq)
    (hm : sent[pi.incomingSeq]? = some m) :
    (pi.process m).processed = sent.take (pi.process m).incomingSeq := by
  show pi.processed ++ [m] = sent.take (pi.incomingSeq + 1)
  rw [take_succ_of_getElem? hm, hp]

/-- The loop over the messages that wait, in the order of their numbers. -/
theorem received_drain (pi : EdgeInfo R M) (queue : List (ℕ × M)) (hb : b < 2 ^ 31)
    (hsorted : queue.Pairwise fun v w => v.1 ≤ w.1)
    (hqueue : ∀ v ∈ queue, sent[v.1]? = some v.2 ∧ v.1 < b)
    (hp : pi.processed = sent.take pi.incomingSeq) (hle : pi.incomingSeq ≤ sent.length)
    (hwindow : queue ≠ [] → pi.incomingSeq ≤ b) :
    Received sent b (pi.drain queue) ∧ pi.incomingSeq ≤ (pi.drain queue).incomingSeq ∧
      ∀ v ∈ queue, (pi.drain queue).Handled v.1 := by
  induction queue generalizing pi with
  | nil => exact ⟨⟨hp, hle, by simp [drain]⟩, le_refl _, by simp⟩
  | cons v queue ih =>
    obtain ⟨hv, hvb⟩ := hqueue v (by simp)
    obtain ⟨hfirst, hrest⟩ := pairwise_cons.mp hsorted
    have hin := hwindow (by simp)
    have htail : ∀ w ∈ queue, sent[w.1]? = some w.2 ∧ w.1 < b := fun w hw =>
      hqueue w (mem_cons_of_mem _ hw)
    have hdiff : seqDiff v.1 pi.incomingSeq = (v.1 : ℤ) - pi.incomingSeq :=
      seqDiff_eq (by omega) (by omega)
    rw [drain, hdiff]
    split
    next hneg =>
      obtain ⟨h₁, h₂, h₃⟩ := ih pi hrest htail hp hle fun _ => hin
      refine ⟨h₁, h₂, fun w hw => ?_⟩
      rcases mem_cons.mp hw with rfl | hw
      · exact .inl (by omega)
      · exact h₃ w hw
    next hneg =>
      split
      next hgap =>
        refine ⟨⟨hp, hle, fun w hw => ?_⟩, le_refl _, fun w hw => .inr ?_⟩
        · obtain ⟨hw₁, hw₂⟩ := hqueue w hw
          refine ⟨hw₁, ?_, hw₂⟩
          show pi.incomingSeq < w.1
          rcases mem_cons.mp hw with rfl | hw
          · omega
          · have := hfirst w hw
            omega
        · exact mem_map_of_mem hw
      next hgap =>
        have heq : v.1 = pi.incomingSeq := by omega
        rw [heq] at hv
        obtain ⟨h₁, h₂, h₃⟩ := ih (pi.process v.2) hrest htail (processed_process hp hv)
          (List.getElem?_eq_some_iff.mp hv).1 fun _ => by
            show pi.incomingSeq + 1 ≤ b
            omega
        have hstep : pi.incomingSeq + 1 ≤ ((pi.process v.2).drain queue).incomingSeq := h₂
        refine ⟨h₁, by omega, fun w hw => ?_⟩
        rcases mem_cons.mp hw with rfl | hw
        · exact .inl (by omega)
        · exact h₃ w hw

/-- The next message is processed, with those that waited for it. -/
theorem Received.process_drain (h : Received sent b pi) (hb : b < 2 ^ 31)
    (hk : sent[pi.incomingSeq]? = some m) {le : ℕ × M → ℕ × M → Bool} (hle : ∀ v w, le v w = decide
      (seqDiff v.1 (pi.process m).incomingSeq ≤ seqDiff w.1 (pi.process m).incomingSeq)) :
    Received sent b ((pi.process m).drain ((pi.process m).incomingQueue.mergeSort le)) ∧
      ∀ j, pi.Handled j ∨ j = pi.incomingSeq →
        ((pi.process m).drain ((pi.process m).incomingQueue.mergeSort le)).Handled j := by
  set pi₁ := pi.process m with hpi₁
  have hin : pi₁.incomingSeq = pi.incomingSeq + 1 := rfl
  have hperm := mergeSort_perm pi₁.incomingQueue le
  have hexact : ∀ v ∈ pi₁.incomingQueue,
      seqDiff v.1 pi₁.incomingSeq = (v.1 : ℤ) - pi₁.incomingSeq := by
    intro v hv
    obtain ⟨-, h₁, h₂⟩ := h.waiting v hv
    exact seqDiff_eq (by omega) (by omega)
  have hsorted : (pi₁.incomingQueue.mergeSort le).Pairwise fun v w => v.1 ≤ w.1 := by
    have hpair : (pi₁.incomingQueue.mergeSort le).Pairwise (le · ·) := pairwise_mergeSort
      (fun u v w huv hvw => by
        simp only [hle, decide_eq_true_eq] at huv hvw ⊢
        exact huv.trans hvw)
      (fun u v => by
        simp only [hle, Bool.or_eq_true, decide_eq_true_eq]
        exact le_total _ _) pi₁.incomingQueue
    refine hpair.imp_of_mem fun {v w} hv hw hvw => ?_
    rw [hle, decide_eq_true_eq, hexact v (hperm.mem_iff.mp hv),
      hexact w (hperm.mem_iff.mp hw)] at hvw
    omega
  obtain ⟨h₁, h₂, h₃⟩ := received_drain pi₁ (pi₁.incomingQueue.mergeSort le) hb hsorted
    (fun v hv => (h.waiting v (hperm.mem_iff.mp hv)).imp_right And.right)
    (processed_process h.processed hk) (List.getElem?_eq_some_iff.mp hk).1
    (fun hne => by
      obtain ⟨v, hv⟩ := exists_mem_of_ne_nil _ hne
      obtain ⟨-, hlt, hvb⟩ := h.waiting v (hperm.mem_iff.mp hv)
      omega)
  refine ⟨h₁, ?_⟩
  rintro j ((hj | hj) | rfl)
  · exact .inl (by omega)
  · obtain ⟨v, hv, rfl⟩ := mem_map.mp hj
    exact h₃ v (hperm.mem_iff.mpr hv)
  · exact .inl (by omega)

/-- A message is processed in its turn, and waits if it comes before. -/
theorem Received.receive (h : Received sent b pi) (hb : b < 2 ^ 31) (hk : sent[k]? = some m)
    (hahead : k ≤ pi.incomingSeq ∨ k < b) (hbehind : pi.incomingSeq ≤ k + 2 ^ 31) :
    Received sent b (pi.receive k m) ∧
      ∀ j, pi.Handled j ∨ j = k → (pi.receive k m).Handled j := by
  have hdiff : seqDiff k pi.incomingSeq = (k : ℤ) - pi.incomingSeq := seqDiff_eq (by omega) hbehind
  rw [EdgeInfo.receive, hdiff]
  split
  next hle =>
    split
    next hzero =>
      obtain rfl : k = pi.incomingSeq := by omega
      exact h.process_drain hb hk fun _ _ => rfl
    next hne =>
      refine ⟨⟨h.processed, h.incoming_le, fun v hv => ?_⟩, ?_⟩
      · rcases mem_append.mp hv with hv | hv
        · exact h.waiting v hv
        · obtain rfl := mem_singleton.mp hv
          refine ⟨hk, ?_, ?_⟩
          · show pi.incomingSeq < k
            omega
          · show k < b
            omega
      · rintro j ((hj | hj) | rfl)
        · exact .inl hj
        · exact .inr (by simpa using .inl (by simpa using hj))
        · exact .inr (by simp)
  next hlt =>
    refine ⟨h, ?_⟩
    rintro j (hj | rfl)
    · exact hj
    · exact .inl (by omega)

def EdgeInfo.outgoing (pi : EdgeInfo R M) :
    Bool × List (R × M) × List ℕ × ℕ × List (ℕ × M) × List M :=
  (pi.everConnected, pi.pendingBroadcasts, pi.tcpconnections, pi.outgoingSeq, pi.outgoingQueue,
    pi.sent)

def EdgeInfo.incoming (pi : EdgeInfo R M) : ℕ × List (ℕ × M) × List M :=
  (pi.incomingSeq, pi.incomingQueue, pi.processed)

theorem EdgeInfo.drain_outgoing (pi : EdgeInfo R M) (queue : List (ℕ × M)) :
    (pi.drain queue).outgoing = pi.outgoing := by
  induction queue generalizing pi with
  | nil => rfl
  | cons v queue ih =>
    rw [drain]
    split
    · exact ih pi
    · split
      · rfl
      · exact ih (pi.process v.2)

theorem EdgeInfo.receive_outgoing (pi : EdgeInfo R M) (k : ℕ) (m : M) :
    (pi.receive k m).outgoing = pi.outgoing := by
  rw [receive]
  split
  · split
    · exact (pi.process m).drain_outgoing _
    · rfl
  · rfl

end Receive

/-! ## One direction of the edge -/

/-- The sequence numbers in `outgoingQueue`. -/
def EdgeInfo.queued (pi : EdgeInfo R M) : List ℕ :=
  pi.outgoingQueue.map Prod.fst

/-- The direction from the sender `e`, which keeps `S`, to the reader, which keeps `T`. The
messages before the number `b` are those that the sender had before it wrote the queue on
its first connection. -/
structure Direction (b : ℕ) (S T : EdgeInfo R M) (cs : ℕ → Connection R M) (e : Side) :
    Prop where
  seq : S.outgoingSeq = S.sent.length
  sorted : S.queued.Pairwise (· < ·)
  queue_sent : ∀ v ∈ S.outgoingQueue, S.sent[v.1]? = some v.2
  received : Received S.sent b T
  kept : ∀ k < S.sent.length, k ∈ S.queued ∨ T.Handled k
  fresh : S.everConnected = false → b = 0 ∧ S.queued = List.range S.sent.length ∧
    ∀ i, (cs i).hasSourceRank e = false
  bound : S.everConnected = true → b < 2 ^ 31 ∧ S.pendingBroadcasts = []
  single : S.tcpconnections.length ≤ 1
  registered : ∀ i ∈ S.tcpconnections, (cs i).hasSourceRank e = true
  ordered : ∀ k, b ≤ k → k < S.sent.length → k ∉ S.queued → ∀ q ∈ S.queued, k < q
  lanes : ∀ i, Lane b S.queued S.sent T.Handled (cs i) e
  tracked : ∀ i ∈ S.tcpconnections, (cs i).Alive → ∀ q ∈ S.queued, q ∈ (cs i).track e

section Directions

variable {S S' T T' : EdgeInfo R M} {cs : ℕ → Connection R M} {e : Side} {i k : ℕ} {m : M}

theorem Direction.lt_of_queued (h : Direction b S T cs e) (hk : k ∈ S.queued) :
    k < S.sent.length := by
  obtain ⟨v, hv, rfl⟩ := mem_map.mp hk
  exact (List.getElem?_eq_some_iff.mp (h.queue_sent v hv)).1

/-- A message of the queue has fewer than `2 ^ 32` messages after it. -/
theorem Direction.span (h : Direction b S T cs e) (hlen : S.outgoingQueue.length < 2 ^ 31)
    (hk : k ∈ S.queued) : S.sent.length < k + 2 ^ 32 := by
  have hlen' : S.queued.length < 2 ^ 31 := by rwa [queued, length_map]
  have hnodup : S.queued.Nodup := h.sorted.imp fun hlt => hlt.ne
  have hcount : ∀ lo, (∀ j, lo ≤ j → j < S.sent.length → j ∈ S.queued) →
      S.sent.length - lo < 2 ^ 31 := by
    intro lo hall
    have hsub : List.range' lo (S.sent.length - lo) ⊆ S.queued := fun j hj => by
      rw [mem_range'_1] at hj
      exact hall j hj.1 (by omega)
    have hle := (subperm_of_subset nodup_range' hsub).length_le
    rw [length_range'] at hle
    omega
  cases hever : S.everConnected with
  | false =>
    obtain ⟨-, hrange, -⟩ := h.fresh hever
    rw [hrange, length_range] at hlen'
    omega
  | true =>
    obtain ⟨hb, -⟩ := h.bound hever
    -- from the later of the message and the threshold on, the queue has no gap
    have hgap := hcount (max k b) fun j hj hlt => by
      by_contra hnot
      have := h.ordered j (le_of_max_le_right hj) hlt hnot k hk
      omega
    omega

variable {rest : List (Frame R M)} {c : Connection R M}

theorem hasSourceRank_update (hrank : c.hasSourceRank e = (cs i).hasSourceRank e) (j : ℕ) :
    (update cs i c j).hasSourceRank e = (cs j).hasSourceRank e := by
  by_cases hj : j = i
  · rw [hj, update_self, hrank]
  · rw [update_of_ne hj]

variable (h : Direction b S T cs e)

include h

/-- A message that comes before its turn is one of the first. -/
theorem Direction.ahead (hset : (cs i).hasSourceRank e.other = true)
    (heq : (cs i).written e = .message k m :: rest) : k ≤ T.incomingSeq ∨ k < b := by
  by_contra! hnot
  obtain ⟨hlt, hb⟩ := hnot
  have hcov := (h.lanes i).live_covered
  rw [live_of_set hset, heq, seqs_message] at hcov
  have hk : k < S.sent.length :=
    (List.getElem?_eq_some_iff.mp ((h.lanes i).sent_of_mem (by rw [heq]; exact .head _))).1
  have hnext := (h.kept T.incomingSeq (by omega)).resolve_right h.received.not_handled
  exact h.received.not_handled (hcov.head hb hnext hlt)

theorem Direction.everConnected_of_set (hset : (cs i).hasSourceRank e = true) :
    S.everConnected = true := by
  by_contra hnot
  have := (h.fresh (by simpa using hnot)).2.2 i
  simp [hset] at this

/-- The direction does not depend on the incoming side of the sender and on the outgoing side
of the reader. -/
theorem Direction.of_sides (hS : S'.outgoing = S.outgoing) (hT : T'.incoming = T.incoming) :
    Direction b S' T' cs e := by
  simp only [outgoing, Prod.mk.injEq] at hS
  simp only [incoming, Prod.mk.injEq] at hT
  obtain ⟨hever, hpending, htcp, hseq, hqueue, hsent⟩ := hS
  obtain ⟨hin, hwait, hproc⟩ := hT
  have hqueued : S'.queued = S.queued := by rw [queued, hqueue, queued]
  have hhandled : T'.Handled = T.Handled := by
    funext k
    rw [Handled, hin, hwait, Handled]
  have hreceived : Received S'.sent b T' := by
    obtain ⟨h₁, h₂, h₃⟩ := h.received
    exact ⟨by rw [hproc, hsent, hin, h₁], by rw [hin, hsent]; exact h₂,
      by rw [hwait, hsent, hin]; exact h₃⟩
  exact
    { seq := by rw [hseq, hsent]; exact h.seq
      sorted := by rw [hqueued]; exact h.sorted
      queue_sent := by rw [hqueue, hsent]; exact h.queue_sent
      received := hreceived
      kept := by rw [hsent, hqueued, hhandled]; exact h.kept
      fresh := by rw [hever, hqueued, hsent]; exact h.fresh
      bound := by rw [hever, hpending]; exact h.bound
      single := by rw [htcp]; exact h.single
      registered := by rw [htcp]; exact h.registered
      ordered := by rw [hsent, hqueued]; exact h.ordered
      lanes := by rw [hqueued, hsent, hhandled]; exact h.lanes
      tracked := by rw [htcp, hqueued]; exact h.tracked }

theorem Direction.connection (hrank : c.hasSourceRank e = (cs i).hasSourceRank e)
    (hmem : ∀ {k m}, .message k m ∈ c.written e → .message k m ∈ (cs i).written e)
    (hacks : c.acks e <+: (cs i).acks e) (hlive : seqs (c.live e) <+: seqs ((cs i).live e))
    (halive : c.Alive → (cs i).Alive ∧ c.acks e = (cs i).acks e ∧ seqs (c.live e) = seqs ((cs
      i).live e)) : Direction b S T (update cs i c) e := by
  have hranks := hasSourceRank_update hrank
  refine { h with fresh := ?_, registered := ?_, lanes := ?_, tracked := ?_ }
  · intro hever
    obtain ⟨h₁, h₂, h₃⟩ := h.fresh hever
    exact ⟨h₁, h₂, fun j => (hranks j).trans (h₃ j)⟩
  · exact fun j hj => (hranks j).trans (h.registered j hj)
  · intro j
    by_cases hj : j = i
    · subst hj
      rw [update_self]
      exact (h.lanes j).of_isPrefix hmem hacks hlive fun ha => ⟨(halive ha).1, (halive ha).2.1⟩
    · rw [update_of_ne hj]
      exact h.lanes j
  · intro j hj ha q hq
    by_cases hji : j = i
    · subst hji
      rw [update_self] at ha ⊢
      obtain ⟨hold, hacks', hlive'⟩ := halive ha
      rw [track, hacks', hlive']
      exact h.tracked j hj hold q hq
    · rw [update_of_ne hji] at ha ⊢
      exact h.tracked j hj ha q hq

/-- The lanes when a message joins the queue. -/
theorem Direction.lane_enqueue (m : M) (i : ℕ) :
    Lane b (S.enqueue m).queued (S.enqueue m).sent T.Handled (cs i) e := by
  refine (h.lanes i).mono (fun _ => h.received.lt_of_handled) (fun q hq => ?_)
    (prefix_append ..) (fun _ hk => hk)
  have hq' : q ∈ S.queued ++ [S.outgoingSeq] := by
    simpa [queued, enqueue] using hq
  rcases mem_append.mp hq' with hq | hq
  · exact .inl hq
  · obtain rfl := mem_singleton.mp hq
    exact .inr h.seq.ge

/-- A message joins the queue; what is left to show is that it is on its way on the connection
that is registered. -/
theorem Direction.enqueue {cs' : ℕ → Connection R M}
    (hranks : ∀ j, (cs' j).hasSourceRank e = (cs j).hasSourceRank e)
    (hlanes : ∀ j, Lane b (S.enqueue m).queued (S.enqueue m).sent T.Handled (cs' j) e) (htracked :
      ∀ j ∈ S.tcpconnections, (cs' j).Alive → ∀ q ∈ (S.enqueue m).queued, q ∈ (cs' j).track e) :
    Direction b (S.enqueue m) T cs' e := by
  have hqueued : (S.enqueue m).queued = S.queued ++ [S.sent.length] := by
    rw [EdgeInfo.queued, EdgeInfo.enqueue, map_append, h.seq]
    rfl
  have hsent : (S.enqueue m).sent = S.sent ++ [m] := rfl
  have hlen : (S.enqueue m).sent.length = S.sent.length + 1 := by simp [hsent]
  constructor
  · show S.outgoingSeq + 1 = _
    rw [hlen, h.seq]
  · rw [hqueued, pairwise_append]
    refine ⟨h.sorted, pairwise_singleton .., fun k hk j hj => ?_⟩
    obtain rfl := mem_singleton.mp hj
    exact h.lt_of_queued hk
  · intro v hv
    rw [hsent]
    rcases mem_append.mp hv with hv | hv
    · have hold := h.queue_sent v hv
      rwa [List.getElem?_append_left (List.getElem?_eq_some_iff.mp hold).1]
    · obtain rfl := mem_singleton.mp hv
      simp [h.seq]
  · exact h.received.mono (prefix_append ..) (le_refl b)
  · intro k hk
    rw [hqueued, mem_append, mem_singleton]
    by_cases heq : k = S.sent.length
    · exact .inl (.inr heq)
    · exact (h.kept k (by omega)).imp_left .inl
  · intro hever
    obtain ⟨h₁, h₂, h₃⟩ := h.fresh hever
    exact ⟨h₁, by rw [hqueued, hlen, range_succ, h₂], fun j => (hranks j).trans (h₃ j)⟩
  · exact h.bound
  · exact h.single
  · exact fun j hj => (hranks j).trans (h.registered j hj)
  · intro k hb hk hnot q hq
    rw [hqueued, mem_append, mem_singleton, not_or] at hnot
    rw [hqueued, mem_append, mem_singleton] at hq
    have hk' : k < S.sent.length := by omega
    rcases hq with hq | rfl
    · exact h.ordered k hb hk' hnot.1 q hq
    · exact hk'
  · exact hlanes
  · exact htracked

/-- `sendMessage` without a connection. -/
theorem Direction.send_idle (htcp : S.tcpconnections = []) : Direction b (S.enqueue m) T cs e := by
  refine h.enqueue (fun _ => rfl) (fun j => h.lane_enqueue m j) fun j hj => ?_
  simp [htcp] at hj

/-- `sendMessage` on the registered connection. -/
theorem Direction.send_write (hshaped : (cs i).Shaped) {l : List ℕ}
    (htcp : S.tcpconnections = i :: l) : Direction b (S.enqueue m) T
      (update cs i ((cs i).write e [.message S.outgoingSeq m])) e := by
  have hmem : i ∈ S.tcpconnections := by simp [htcp]
  have hset := h.registered i hmem
  have hqueued : ∀ q ∈ (S.enqueue m).queued, q ∈ S.queued ∨ q = S.outgoingSeq := by
    intro q hq
    simpa [EdgeInfo.queued, EdgeInfo.enqueue] using hq
  have hlane := (h.lane_enqueue m i).write_message (k := S.outgoingSeq) (m := m) hshaped hset
    (by simp [EdgeInfo.enqueue, h.seq]) fun halive q hq hlt =>
      h.tracked i hmem halive q ((hqueued q hq).resolve_right hlt.ne)
  refine h.enqueue (fun j => ?_) (fun j => ?_) fun j hj halive q hq => ?_
  · by_cases hj : j = i
    · subst hj
      simp
    · rw [update_of_ne hj]
  · by_cases hj : j = i
    · subst hj
      rw [update_self]
      exact hlane
    · rw [update_of_ne hj]
      exact h.lane_enqueue m j
  · obtain rfl : j = i := by
      have hl : l = [] := by
        have := h.single
        rw [htcp, length_cons] at this
        exact length_eq_zero_iff.mp (by omega)
      simpa [htcp, hl] using hj
    rw [update_self] at halive ⊢
    have hold := write_alive_iff.mp halive
    rw [track_write_message hshaped hset hold]
    rcases hqueued q hq with hq | rfl
    · exact mem_append_left _ (h.tracked j hmem hold q hq)
    · simp

/-- The reader takes up a message. -/
theorem Direction.receive (hset : (cs i).hasSourceRank e = true)
    (hset' : (cs i).hasSourceRank e.other = true) (heq : (cs i).written e = .message k m :: rest)
    (htimely : S.sent.length ≤ k + 2 ^ 31) : Direction b S (T.receive k m)
      (update cs i (((cs i).pop e.other).write e.other [.messageAck k])) e := by
  obtain ⟨hb, -⟩ := h.bound (h.everConnected_of_set hset)
  obtain ⟨hreceived, hhandled⟩ := h.received.receive hb
    ((h.lanes i).sent_of_mem (by rw [heq]; exact .head _)) (h.ahead hset' heq)
    (h.received.incoming_le.trans htimely)
  have hranks : ∀ j, (update cs i
      (((cs i).pop e.other).write e.other [.messageAck k]) j).hasSourceRank e =
        (cs j).hasSourceRank e := hasSourceRank_update (by rw [write_hasSourceRank]; rfl)
  refine { h with received := hreceived, kept := ?_, fresh := ?_, registered := ?_, lanes := ?_,
                  tracked := ?_ }
  · exact fun j hj => (h.kept j hj).imp_right fun hold => hhandled j (.inl hold)
  · intro hever
    obtain ⟨h₁, h₂, h₃⟩ := h.fresh hever
    exact ⟨h₁, h₂, fun j => (hranks j).trans (h₃ j)⟩
  · exact fun j hj => (hranks j).trans (h.registered j hj)
  · intro j
    by_cases hj : j = i
    · subst hj
      rw [update_self]
      refine (Lane.deliver hset' heq (h.lanes j)).mono ?_ (fun q hq => .inl hq) (prefix_refl _)
        hhandled
      rintro q (hq | rfl)
      · exact h.received.lt_of_handled hq
      · exact (h.lanes j).lt_of_mem_live (by rw [live_of_set hset', heq]; simp)
    · rw [update_of_ne hj]
      exact (h.lanes j).mono (fun _ => h.received.lt_of_handled) (fun q hq => .inl hq)
        (prefix_refl _) fun q hq => hhandled q (.inl hq)
  · intro j hj halive q hq
    by_cases hji : j = i
    · subst hji
      rw [update_self] at halive ⊢
      have hold : ((cs j).pop e.other).Alive := write_alive_iff.mp halive
      rw [track_deliver hset' heq hold]
      exact h.tracked j hj hold q hq
    · rw [update_of_ne hji] at halive ⊢
      exact h.tracked j hj halive q hq

/-- The loop of the acknowledgement finds the message that is meant. -/
theorem Direction.queued_acknowledge (hlen : S.outgoingQueue.length < 2 ^ 31)
    (hk : k < S.sent.length) (htimely : S.sent.length ≤ k + 2 ^ 31) :
    (S.acknowledge k).queued = S.queued.erase k := by
  have hexact : ∀ v ∈ S.outgoingQueue, decide (seqDiff v.1 k = 0) = (v.1 == k) := by
    intro v hv
    have hmem : v.1 ∈ S.queued := mem_map_of_mem hv
    have hspan := h.span hlen hmem
    have hlt := h.lt_of_queued hmem
    rw [Bool.eq_iff_iff, decide_eq_true_iff, beq_iff_eq]
    exact seqDiff_eq_zero (by omega) (by omega)
  show (S.outgoingQueue.eraseP fun v => seqDiff v.1 k = 0).map Prod.fst =
    (S.outgoingQueue.map Prod.fst).erase k
  generalize S.outgoingQueue = queue at hexact
  induction queue with
  | nil => rfl
  | cons v queue ih =>
    have hv := hexact v (by simp)
    rw [eraseP_cons, hv, map_cons, erase_cons]
    cases hcase : v.1 == k with
    | true => rfl
    | false =>
      simp only [Bool.false_eq_true, ↓reduceIte, cond_false, map_cons]
      rw [ih fun w hw => hexact w (mem_cons_of_mem _ hw)]

/-- The sender takes up an acknowledgement. -/
theorem Direction.acknowledge (hset : (cs i).hasSourceRank e = true)
    (heq : (cs i).written e.other = .messageAck k :: rest)
    (hlen : S.outgoingQueue.length < 2 ^ 31) (htimely : S.sent.length ≤ k + 2 ^ 31) :
    Direction b (S.acknowledge k) T (update cs i ((cs i).pop e)) e := by
  have hacks : (cs i).acks e = k :: ackSeqs rest := by rw [acks, heq, ackSeqs_messageAck]
  have hhandled := (h.lanes i).handled_of_mem k (by simp [hacks])
  have hk := h.received.lt_of_handled hhandled
  have hnodup : S.queued.Nodup := h.sorted.imp fun hlt => hlt.ne
  have hqueued : ∀ q, q ∈ (S.acknowledge k).queued ↔ q ∈ S.queued ∧ q ≠ k := by
    intro q
    rw [h.queued_acknowledge hlen hk htimely, hnodup.mem_erase_iff, and_comm]
  have hranks : ∀ j, (update cs i ((cs i).pop e) j).hasSourceRank e =
      (cs j).hasSourceRank e := hasSourceRank_update rfl
  -- nothing smaller is left in the queue
  have hfirst : b ≤ k → ∀ q ∈ S.queued, k ≤ q := by
    intro hb q hq
    have hcov := (h.lanes i).acks_covered
    rw [hacks] at hcov
    by_contra! hlt
    exact hcov.head hb hq hlt
  constructor
  · exact h.seq
  · rw [h.queued_acknowledge hlen hk htimely]
    exact h.sorted.sublist erase_sublist
  · exact fun v hv => h.queue_sent v (mem_of_mem_eraseP hv)
  · exact h.received
  · intro j hj
    rw [hqueued]
    by_cases hjk : j = k
    · exact .inr (hjk ▸ hhandled)
    · exact (h.kept j hj).imp_left fun hin => ⟨hin, hjk⟩
  · intro hever
    simp [h.everConnected_of_set hset, EdgeInfo.acknowledge] at hever
  · exact h.bound
  · exact h.single
  · exact fun j hj => (hranks j).trans (h.registered j hj)
  · intro j hb hj hnot q hq
    obtain ⟨hold, hqk⟩ := (hqueued q).mp hq
    by_cases hjk : j = k
    · subst hjk
      exact lt_of_le_of_ne (hfirst hb q hold) (Ne.symm hqk)
    · exact h.ordered j hb hj (fun hin => hnot ((hqueued j).mpr ⟨hin, hjk⟩)) q hold
  · intro j
    by_cases hj : j = i
    · subst hj
      rw [update_self]
      exact (h.lanes j).take_ack heq fun q hq => (hqueued q).mp hq
    · rw [update_of_ne hj]
      exact (h.lanes j).mono (fun _ => h.received.lt_of_handled)
        (fun q hq => .inl ((hqueued q).mp hq).1) (prefix_refl _) fun _ hd => hd
  · intro j hj halive q hq
    obtain ⟨hold, hqk⟩ := (hqueued q).mp hq
    by_cases hji : j = i
    · subst hji
      rw [update_self] at halive ⊢
      have hin := h.tracked j hj halive q hold
      rw [track, hacks, cons_append, mem_cons] at hin
      rw [track, live_pop, acks, pop_written_other, heq]
      exact hin.resolve_left hqk
    · rw [update_of_ne hji] at halive ⊢
      exact h.tracked j hj halive q hold

/-- The sender registers a connection and writes its queue on it. What it writes before is part
of the queue, and is only there on the first connection. -/
theorem Direction.register (hshaped : ∀ j, (cs j).Shaped) {f : Frame R M}
    {reply : List (Frame R M)} (heq : (cs i).written e.other = f :: rest) (hf : f.isHandshake)
    (hreply : ((cs i).hasSourceRank e.other = true ∧ reply = []) ∨ ((cs i).hasSourceRank e.other =
      false ∧ ∃ ranks, reply = [.connectAck ranks])) {early : List (ℕ × M)}
    (hearly : ∀ v ∈ early, v ∈ S.outgoingQueue) (hfirst : S.everConnected = true → early = [])
    (hlen : S.outgoingQueue.length < 2 ^ 31)
    (hS : S'.outgoing = (true, [], [i], S.outgoingSeq, S.outgoingQueue, S.sent)) :
    ∃ b', Direction b' S' T (update cs i
      ((((cs i).pop e).setSourceRank e).write e
        (messages early ++ reply ++ messages S.outgoingQueue))) e := by
  set c := (((cs i).pop e).setSourceRank e).write e
    (messages early ++ reply ++ messages S.outgoingQueue) with hc
  simp only [outgoing, Prod.mk.injEq] at hS
  obtain ⟨hever', hpending, htcp, hseq, hqueue, hsent⟩ := hS
  have hqueued : S'.queued = S.queued := by rw [queued, hqueue, queued]
  obtain ⟨b', hle, hb, hearly', hordered, hlanes⟩ : ∃ b', b ≤ b' ∧ b' < 2 ^ 31 ∧
      (∀ v ∈ early, v.1 < b') ∧
      (∀ k, b' ≤ k → k < S.sent.length → k ∉ S.queued → ∀ q ∈ S.queued, k < q) ∧
      ∀ j, Lane b' S.queued S.sent T.Handled (cs j) e := by
    cases hever : S.everConnected with
    | true =>
      refine ⟨b, le_refl b, (h.bound hever).1, ?_, h.ordered, h.lanes⟩
      simp [hfirst hever]
    | false =>
      obtain ⟨rfl, hrange, hunset⟩ := h.fresh hever
      refine ⟨S.sent.length, Nat.zero_le _, ?_, fun v hv => ?_, fun k hk hlt => ?_, fun j => ?_⟩
      · rw [← length_map (f := Prod.fst)] at hlen
        rw [queued] at hrange
        rwa [hrange, length_range] at hlen
      · exact h.lt_of_queued (mem_map_of_mem (hearly v hv))
      · omega
      · exact Lane.of_nil ((hshaped j).seqs_eq_nil (hunset j)) ((hshaped j).unacked (hunset j))
  obtain ⟨hlane, htrack⟩ : Lane b' S.queued S.sent T.Handled c e ∧
      (c.Alive → ∀ q ∈ S.queued, q ∈ c.track e) :=
    Lane.register (hshaped i) heq hf hreply hearly' h.sorted
      (fun v hv => h.queue_sent v ((mem_append.mp hv).elim (hearly v) id)) hc
  have hset : c.hasSourceRank e = true := by
    rw [hc, write_hasSourceRank]
    exact update_self ..
  refine ⟨b', ?_⟩
  constructor
  · rw [hseq, hsent]
    exact h.seq
  · rw [hqueued]
    exact h.sorted
  · rw [hqueue, hsent]
    exact h.queue_sent
  · rw [hsent]
    exact h.received.mono (prefix_refl _) hle
  · rw [hsent, hqueued]
    exact h.kept
  · simp [hever']
  · exact fun _ => ⟨hb, hpending⟩
  · simp [htcp]
  · intro j hj
    obtain rfl : j = i := by simpa [htcp] using hj
    rw [update_self, hset]
  · rw [hsent, hqueued]
    exact hordered
  · intro j
    rw [hsent, hqueued]
    by_cases hj : j = i
    · subst hj
      rw [update_self]
      exact hlane
    · rw [update_of_ne hj]
      exact hlanes j
  · intro j hj
    obtain rfl : j = i := by simpa [htcp] using hj
    rw [update_self, hqueued]
    exact htrack

/-- `reaptcpconnections` at the sender. -/
theorem Direction.reap (p : ℕ → Bool) :
    Direction b { S with tcpconnections := S.tcpconnections.filter p } T cs e :=
  { h with
    single := (length_filter_le ..).trans h.single
    registered := fun i hi => h.registered i (mem_of_mem_filter hi)
    tracked := fun i hi => h.tracked i (mem_of_mem_filter hi) }

theorem Direction.postpone (r : R) (m : M) : Direction b (S.postpone r m) T cs e := by
  rw [EdgeInfo.postpone]
  split
  next => exact h
  next hever => exact { h with bound := fun hcontra => absurd hcontra hever }

end Directions

end Store.Link
