import Moodist.Transport.Defs

/-!
# Messages are handled in order

The messages of a source that have not been handled are in flight, in the queue, or in the hands of
a call of `onRecv`; their numbers are close enough for the 32 bits to order them, and the queue is
sorted.
-/

namespace Transport

open List Function Option Link
open Prod (snd)
open UInt32 (ofNat)

variable {β : Type*}

/-! ## Sequence numbers -/

theorem ofNat_sub_ofNat {n k : ℕ} (hle : n ≤ k) (hlt : k < n + 2 ^ 32) :
    (ofNat k - ofNat n).toNat = k - n := by
  rw [UInt32.toNat_sub, UInt32.toNat_ofNat', UInt32.toNat_ofNat']
  omega

theorem ofNat_inj_near {n k : ℕ} (hle : n ≤ k) (hlt : k < n + 2 ^ 32)
    (h : ofNat k = ofNat n) : k = n := by
  have hsub := ofNat_sub_ofNat hle hlt
  rw [h, UInt32.sub_self] at hsub
  have : (0 : UInt32).toNat = 0 := rfl
  omega

theorem ofNat_succ (n : ℕ) : ofNat n + 1 = ofNat (n + 1) := by
  rw [UInt32.ofNat_add]
  rfl

section Link

variable {source : ℕ} {sent : List (OpType × β)} {p : Packet β} {n : ℕ}

theorem packets_length : (packets source sent).length = sent.length := by
  rw [packets, length_mapIdx]

theorem packets_append (m : OpType × β) :
    packets source (sent ++ [m]) =
      packets source sent ++ [⟨m.1, source, ofNat sent.length, m.2⟩] := by
  rw [packets, packets, mapIdx_append]
  simp

theorem packets_getElem? (k : ℕ) :
    (packets source sent)[k]? = sent[k]?.map fun m => ⟨m.1, source, ofNat k, m.2⟩ := by
  rw [packets, List.getElem?_mapIdx]

/-- A message that has not been handled has a number from `n` on. -/
theorem exists_of_mem_drop (h : p ∈ (packets source sent).drop n) :
    ∃ k, n ≤ k ∧ k < sent.length ∧ (packets source sent)[k]? = some p ∧ p.source = source ∧
      p.seqid = ofNat k := by
  obtain ⟨i, hi⟩ := mem_iff_getElem?.mp h
  rw [List.getElem?_drop] at hi
  have hlt := (List.getElem?_eq_some_iff.mp hi).1
  rw [packets_length] at hlt
  refine ⟨n + i, Nat.le_add_right n i, hlt, hi, ?_⟩
  rw [packets_getElem?, List.getElem?_eq_getElem hlt] at hi
  cases hi
  exact ⟨rfl, rfl⟩

/-- How far a message is ahead of the one with number `n`. -/
def ahead (n : ℕ) (p : Packet β) : ℕ := (p.seqid - UInt32.ofNat n).toNat

theorem ahead_eq {k : ℕ} (hle : n ≤ k) (hlt : k < n + 2 ^ 32) (hp : p.seqid = ofNat k) :
    ahead n p = k - n := by
  rw [ahead, hp, ofNat_sub_ofNat hle hlt]

theorem map_ahead_drop (h : sent.length ≤ n + 2 ^ 32) :
    ((packets source sent).drop n).map (ahead n) = range (sent.length - n) := by
  apply ext_getElem
  · rw [length_map, length_drop, packets_length, length_range]
  · intro i h₁ h₂
    rw [length_range] at h₂
    have hsub := ofNat_sub_ofNat (Nat.le_add_right n i) (by omega)
    rw [getElem_map, getElem_drop, getElem_range, ahead]
    simp only [packets, getElem_mapIdx]
    rw [hsub, Nat.add_sub_cancel_left]

/-- The messages of a source that are in `hand`, in flight or in the queue are those that have not
been handled, and the queue is sorted. -/
structure Link.Inv (source : ℕ) (hand : List (Packet β)) (l : Link β) : Prop where
  outgoing : l.outgoingSeqId = UInt32.ofNat l.sent.length
  incoming : l.incomingSeqId = UInt32.ofNat l.handled.length
  order : l.handled <+: l.sent
  few : l.sent.length < l.handled.length + 2 ^ 31
  keys : ∀ x ∈ l.incomingSeqQueued, x.1 = x.2.seqid
  perm : (hand ++ (l.inFlight ++ l.incomingSeqQueued.map snd)).Perm
    ((packets source l.sent).drop l.handled.length)
  sorted : l.incomingSeqQueued.Pairwise fun a b =>
    ahead l.handled.length a.2 < ahead l.handled.length b.2

def Link.Settled (l : Link β) : Prop :=
  ∀ x ∈ l.incomingSeqQueued.head?, x.1 ≠ l.incomingSeqId

variable {l : Link β} {hand : List (Packet β)}

theorem Link.Inv.length_le (h : l.Inv source hand) : l.handled.length ≤ l.sent.length :=
  h.order.length_le

theorem Link.Inv.exists_number (h : l.Inv source hand)
    (hp : p ∈ hand ++ (l.inFlight ++ l.incomingSeqQueued.map snd)) :
    ∃ k, l.handled.length ≤ k ∧ k < l.sent.length ∧ (packets source l.sent)[k]? = some p ∧
      p.source = source ∧ p.seqid = ofNat k :=
  exists_of_mem_drop (h.perm.mem_iff.mp hp)

variable {x : UInt32 × Packet β}

theorem Link.Inv.mem_queue (hx : x ∈ l.incomingSeqQueued) :
    x.2 ∈ hand ++ (l.inFlight ++ l.incomingSeqQueued.map snd) :=
  mem_append_right _ (mem_append_right _ (mem_map_of_mem hx))

theorem Link.Inv.next_of_expected (h : l.Inv source hand)
    (hp : p ∈ hand ++ (l.inFlight ++ l.incomingSeqQueued.map snd))
    (hseq : p.seqid = l.incomingSeqId) : (packets source l.sent)[l.handled.length]? = some p := by
  obtain ⟨k, hle, hlt, hk, -, hseqid⟩ := h.exists_number hp
  have hfew := h.few
  rw [h.incoming, hseqid] at hseq
  have heq := ofNat_inj_near hle (by omega) hseq
  rwa [heq] at hk

theorem Link.Inv.init : Inv source [] (⟨0, [], [], 0, [], []⟩ : Link β) where
  outgoing := rfl
  incoming := rfl
  order := nil_prefix
  few := by simp
  keys := by simp
  perm := Perm.nil
  sorted := .nil

/-! ## Each operation keeps the invariant -/

variable (h : l.Inv source [])

include h

theorem Link.Inv.send (type : OpType) (view : β)
    (hfew : l.sent.length + 1 < l.handled.length + 2 ^ 31) :
    (l.send source type view).Inv source [] where
  outgoing := by
    rw [Link.send, h.outgoing, ofNat_succ]
    simp
  incoming := h.incoming
  order := h.order.trans (prefix_append _ _)
  few := by simpa [Link.send] using hfew
  keys := h.keys
  perm := by
    have hperm := h.perm
    have hle := h.length_le
    simp only [Link.send, nil_append] at hperm ⊢
    rw [packets_append, drop_append_of_le_length (by rwa [packets_length]), ← h.outgoing]
    refine (Perm.append_right _ hperm).symm.trans ?_ |>.symm
    rw [append_assoc, append_assoc]
    exact Perm.append_left _ perm_append_comm
  sorted := h.sorted

theorem Link.Inv.arrive {i : ℕ} (hp : l.inFlight[i]? = some p) :
    Inv source [p] { l with inFlight := l.inFlight.eraseIdx i } where
  outgoing := h.outgoing
  incoming := h.incoming
  order := h.order
  few := h.few
  keys := h.keys
  perm := by
    obtain ⟨hlt, rfl⟩ := List.getElem?_eq_some_iff.mp hp
    refine Perm.trans ?_ h.perm
    exact (getElem_cons_eraseIdx_perm hlt).append_right _
  sorted := h.sorted

omit h

/-- The expected message is handled. -/
theorem Link.Inv.handle (h : l.Inv source [p]) (hseq : p.seqid = l.incomingSeqId) :
    (l.handle p).Inv source [] := by
  have hnext := h.next_of_expected (by simp) hseq
  have hlt : l.handled.length < (packets source l.sent).length :=
    (List.getElem?_eq_some_iff.mp hnext).1
  have hcons := drop_eq_getElem_cons hlt
  rw [(List.getElem?_eq_some_iff.mp hnext).2] at hcons
  have hlen : (l.handle p).handled.length = l.handled.length + 1 := by simp [Link.handle]
  have hperm : (l.inFlight ++ l.incomingSeqQueued.map snd).Perm
      ((packets source l.sent).drop (l.handled.length + 1)) :=
    (perm_cons p).mp (hcons ▸ h.perm)
  have hfew := h.few
  have hahead : ∀ x ∈ l.incomingSeqQueued,
      ahead l.handled.length x.2 = ahead (l.handled.length + 1) x.2 + 1 := by
    intro x hx
    have hmem : x.2 ∈ l.inFlight ++ l.incomingSeqQueued.map snd :=
      mem_append_right _ (mem_map_of_mem hx)
    obtain ⟨k, hle, hlt, -, -, hk⟩ := exists_of_mem_drop (hperm.mem_iff.mp hmem)
    rw [ahead_eq (Nat.le_of_succ_le hle) (by omega) hk, ahead_eq hle (by omega) hk]
    omega
  refine ⟨h.outgoing, ?_, ?_, ?_, h.keys, ?_, ?_⟩
  · rw [hlen, ← ofNat_succ, ← h.incoming]
    rfl
  · rw [packets_getElem?, map_eq_some_iff] at hnext
    obtain ⟨m, hm, rfl⟩ := hnext
    have htake : l.handled ++ [m] = l.sent.take (l.handled.length + 1) := by
      rw [take_add_one, hm, ← prefix_iff_eq_take.mp h.order]
      rfl
    rw [prefix_iff_eq_take, hlen]
    exact htake
  · rw [hlen]
    show l.sent.length < _
    omega
  · rw [hlen]
    exact hperm
  · rw [hlen]
    refine h.sorted.imp_of_mem fun {a b} ha hb hab => ?_
    rw [hahead a ha, hahead b hb] at hab
    exact Nat.lt_of_succ_lt_succ hab

/-- Insertion at the lower bound keeps a list sorted. -/
theorem pairwise_insert {α : Type*} (f : α → ℕ) {x : α} {queue : List α} {q : α → Bool}
    (h : queue.Pairwise fun a b => f a < f b) (hq : ∀ a ∈ queue, q a = true ↔ f a < f x)
    (hne : ∀ a ∈ queue, f a ≠ f x) :
    (queue.takeWhile q ++ x :: queue.dropWhile q).Pairwise fun a b => f a < f b := by
  induction queue with
  | nil => simp
  | cons a queue ih =>
    rw [pairwise_cons] at h
    rw [forall_mem_cons] at hne hq
    by_cases hlt : q a = true
    · rw [takeWhile_cons_of_pos hlt, dropWhile_cons_of_pos hlt, cons_append, pairwise_cons]
      refine ⟨fun b hb => ?_, ih h.2 hq.2 hne.2⟩
      rw [perm_middle.mem_iff, takeWhile_append_dropWhile, mem_cons] at hb
      obtain rfl | hb := hb
      · exact hq.1.mp hlt
      · exact h.1 b hb
    · have hxa : f x < f a := by
        have hle := not_lt.mp (mt hq.1.mpr hlt)
        exact lt_of_le_of_ne hle hne.1.symm
      rw [takeWhile_cons_of_neg hlt, dropWhile_cons_of_neg hlt, nil_append,
        pairwise_cons, pairwise_cons]
      refine ⟨fun b hb => ?_, h⟩
      obtain rfl | hb := mem_cons.mp hb
      · exact hxa
      · exact hxa.trans (h.1 b hb)

theorem emplace_perm (e s : UInt32) (p : Packet β) (queue : List (UInt32 × Packet β)) :
    (emplace e s p queue).Perm ((s, p) :: queue) := by
  rw [emplace]
  refine perm_middle.trans ?_
  rw [takeWhile_append_dropWhile]

theorem Link.Inv.nodup_ahead (h : l.Inv source hand) :
    ((hand ++ (l.inFlight ++ l.incomingSeqQueued.map snd)).map
      (ahead l.handled.length)).Nodup := by
  have hfew := h.few
  rw [(h.perm.map _).nodup_iff, map_ahead_drop (by omega)]
  exact nodup_range

theorem Link.Inv.emplace (h : l.Inv source [p]) :
    Inv source [] { l with
      incomingSeqQueued := emplace l.incomingSeqId p.seqid p l.incomingSeqQueued } where
  outgoing := h.outgoing
  incoming := h.incoming
  order := h.order
  few := h.few
  keys x hx := by
    rcases mem_cons.mp ((emplace_perm _ _ _ _).mem_iff.mp hx) with rfl | hx
    · rfl
    · exact h.keys x hx
  perm := by
    refine Perm.trans ?_ h.perm
    have hmap := (emplace_perm l.incomingSeqId p.seqid p l.incomingSeqQueued).map snd
    refine (Perm.append_left l.inFlight hmap).trans ?_
    exact perm_middle
  sorted := by
    refine pairwise_insert (fun a : UInt32 × Packet β => ahead l.handled.length a.2) h.sorted
      (fun a ha => ?_) fun a ha heq => ?_
    · rw [decide_eq_true_eq, h.keys a ha, h.incoming, UInt32.lt_iff_toNat_lt]
      rfl
    · have hnodup := h.nodup_ahead
      rw [singleton_append, map_cons, nodup_cons] at hnodup
      refine hnodup.1 (heq ▸ mem_map_of_mem ?_)
      exact mem_append_right _ (mem_map_of_mem ha)

variable {queue : List (UInt32 × Packet β)}

theorem emplace_head? {e s : UInt32} (hx : x ∈ (emplace e s p queue).head?) :
    x = (s, p) ∨ x ∈ queue.head? := by
  rw [emplace] at hx
  cases queue with
  | nil => exact .inl (mem_some.mp hx).symm
  | cons a queue =>
    rw [takeWhile_cons] at hx
    split_ifs at hx
    · exact .inr hx
    · exact .inl (mem_some.mp hx).symm

theorem Link.Settled.emplace (h : l.Settled) (hne : p.seqid ≠ l.incomingSeqId) :
    Settled { l with
      incomingSeqQueued := emplace l.incomingSeqId p.seqid p l.incomingSeqQueued } := by
  intro x hx
  obtain rfl | hx := emplace_head? hx
  · exact hne
  · exact h x hx

theorem Link.Inv.pop (h : Inv source [] { l with incomingSeqQueued := x :: queue }) :
    Inv source [x.2] { l with incomingSeqQueued := queue } where
  outgoing := h.outgoing
  incoming := h.incoming
  order := h.order
  few := h.few
  keys y hy := h.keys y (mem_cons_of_mem _ hy)
  perm := by
    have hmiddle : (l.inFlight ++ x.2 :: queue.map snd).Perm
        (x.2 :: (l.inFlight ++ queue.map snd)) := perm_middle
    exact hmiddle.symm.trans h.perm
  sorted := (pairwise_cons.mp h.sorted).2

/-- The loop handles the messages of the queue up to the first that is missing. -/
theorem Link.Inv.drainLoop (h : Inv source [] { l with incomingSeqQueued := queue }) :
    ∃ l', l.drainLoop source queue = some l' ∧ l'.Inv source [] ∧ l'.Settled ∧
      l'.sent = l.sent := by
  induction queue generalizing l with
  | nil => exact ⟨_, rfl, h, by simp [Settled], rfl⟩
  | cons x queue ih =>
    rw [drainLoop]
    split_ifs with hne hcheck
    · refine ⟨_, rfl, h, ?_, rfl⟩
      simpa [Settled] using hne
    · exact ih (l := l.handle x.2) (h.pop.handle hcheck.2)
    · obtain ⟨k, -, -, -, hsource, -⟩ := h.exists_number (Link.Inv.mem_queue mem_cons_self)
      refine absurd ⟨hsource, ?_⟩ hcheck
      rw [← h.keys x mem_cons_self]
      exact not_not.mp hne

include h

theorem Link.Inv.drain :
    ∃ l', l.drain source = some l' ∧ l'.Inv source [] ∧ l'.Settled ∧ l'.sent = l.sent :=
  Link.Inv.drainLoop h

/-- The next message is not in the queue. -/
theorem Link.Inv.next_mem_inFlight (hs : l.Settled)
    (hp : (packets source l.sent)[l.handled.length]? = some p) : p ∈ l.inFlight := by
  have hfew := h.few
  have hdrop : p ∈ (packets source l.sent).drop l.handled.length := by
    refine mem_iff_getElem?.mpr ⟨0, ?_⟩
    rwa [List.getElem?_drop]
  have hseq : p.seqid = ofNat l.handled.length := by
    rw [packets_getElem?, map_eq_some_iff] at hp
    obtain ⟨m, -, rfl⟩ := hp
    rfl
  have hzero : ahead l.handled.length p = 0 := by
    rw [ahead_eq le_rfl (by omega) hseq, Nat.sub_self]
  have hmem : p ∈ l.inFlight ++ l.incomingSeqQueued.map snd := h.perm.mem_iff.mpr hdrop
  refine (mem_append.mp hmem).resolve_right fun hqueue => ?_
  obtain ⟨x, hx, rfl⟩ := mem_map.mp hqueue
  cases hq : l.incomingSeqQueued with
  | nil =>
    rw [hq] at hx
    cases hx
  | cons y queue =>
    rw [hq] at hx
    obtain rfl | hx := mem_cons.mp hx
    · refine hs x (by simp [hq]) ?_
      rw [h.keys x (by simp [hq]), hseq, h.incoming]
    · have hsorted := h.sorted
      rw [hq, pairwise_cons] at hsorted
      have hlt := hsorted.1 x hx
      omega

theorem Link.Inv.delivered (hs : l.Settled) : l.Delivered source where
  order := h.order
  intact := h.perm
  settled p hp := h.next_mem_inFlight hs hp
  all hnil := by
    have hlen : l.sent.length ≤ l.handled.length := by
      by_contra hlt
      have hp := h.next_mem_inFlight hs (List.getElem?_eq_getElem
        (by rw [packets_length]; exact not_le.mp hlt))
      rw [hnil] at hp
      cases hp
    refine ⟨h.order.eq_of_length_le hlen, ?_⟩
    have hperm := h.perm
    rw [hnil, drop_of_length_le (by rwa [packets_length])] at hperm
    exact map_eq_nil_iff.mp hperm.eq_nil

end Link

/-! ## Receiving keeps the invariant -/

section Receive

variable {size dev : ℕ} {w w' : State β} {p : Packet β}

/-- `hand` are messages that have been taken from the fabric and are being looked at. -/
structure State.Inv (size : ℕ) (hand : ℕ → List (Packet β)) (w : State β) : Prop where
  links : ∀ source, (w.links source).Inv source (hand source)
  sources : ∀ source, (w.links source).sent ≠ [] → source < size

/-- What posting one receive changes. -/
structure Received (size dev : ℕ) (w w' : State β) : Prop where
  inv : w'.Inv size fun _ => []
  settled : ∀ source, (w.links source).Settled → (w'.links source).Settled
  receives : ∀ d, w'.posted d + w'.callbacks d =
    w.posted d + w.callbacks d + if d = dev then 1 else 0
  initialized : w'.receivesInitialized = w.receivesInitialized

theorem State.Inv.setLink {hand : ℕ → List (Packet β)} {source : ℕ} {l : Link β}
    {ps : List (Packet β)} (h : w.Inv size hand) (hl : l.Inv source ps)
    (hsource : l.sent ≠ [] → source < size) :
    (w.setLink source l).Inv size (update hand source ps) where
  links s := by
    rw [State.setLink]
    by_cases hs : s = source
    · subst hs
      simpa using hl
    · simpa [hs] using h.links s
  sources s := by
    rw [State.setLink]
    by_cases hs : s = source
    · subst hs
      simpa using hsource
    · simpa [hs] using h.sources s

theorem update_succ_add (dev : ℕ) (f g : ℕ → ℕ) (d : ℕ) :
    f d + update g dev (g dev + 1) d = f d + g d + if d = dev then 1 else 0 := by
  by_cases hd : d = dev
  · subst hd
    simp only [update_self, if_pos]
    omega
  · simp [hd]

theorem received_post (h : w.Inv size fun _ => []) :
    Received size dev w { w with posted := update w.posted dev (w.posted dev + 1) } where
  inv := ⟨h.links, h.sources⟩
  settled _ hs := hs
  receives d := by
    have hsum := update_succ_add dev w.callbacks w.posted d
    simp only [Nat.add_comm (w.callbacks d)] at hsum
    exact hsum
  initialized := rfl

/-- A message is in the hands of `onRecv`. -/
def inHand (p : Packet β) : ℕ → List (Packet β) := Function.update (fun _ => []) p.source [p]

theorem update_inHand (p : Packet β) : update (inHand p) p.source [] = fun _ => [] := by
  funext s
  by_cases hs : s = p.source <;> simp [inHand, hs]

theorem received_keep (h : w.Inv size (inHand p)) (hsize : p.source < size)
    (hne : p.seqid ≠ (w.links p.source).incomingSeqId) : Received size dev w (w.keep dev p) where
  inv := by
    have hlink : (w.links p.source).Inv p.source [p] := by
      simpa [inHand] using h.links p.source
    have hinv := h.setLink hlink.emplace fun _ => hsize
    rw [update_inHand] at hinv
    exact ⟨hinv.links, hinv.sources⟩
  settled s hs := by
    rw [State.keep, State.setLink]
    by_cases heq : s = p.source
    · subst heq
      simpa using hs.emplace hne
    · simpa [heq] using hs
  receives d := update_succ_add dev w.posted w.callbacks d
  initialized := rfl

theorem onRecv_spec {repost : State β → Option (State β)}
    (hrepost : ∀ w : State β, w.Inv size (fun _ => []) →
      ∃ w', repost w = some w' ∧ Received size dev w w')
    (h : w.Inv size (inHand p)) (hsize : p.source < size) :
    ∃ w', onRecv size repost dev p w = some w' ∧ Received size dev w w' := by
  rw [onRecv, if_pos hsize]
  split_ifs with hne
  · exact ⟨_, rfl, received_keep h hsize hne⟩
  · have hlink : (w.links p.source).Inv p.source [p] := by
      simpa [inHand] using h.links p.source
    have hinv := h.setLink (hlink.handle (not_not.mp hne)) fun _ => hsize
    rw [update_inHand] at hinv
    obtain ⟨w₁, hw₁, hreceived⟩ := hrepost _ hinv
    -- what has come meanwhile may be of the same source
    obtain ⟨l, hdrain, hl, hsettled, -⟩ := (hreceived.inv.links p.source).drain
    refine ⟨w₁.setLink p.source l, by rw [hw₁, bind_some, hdrain, map_some], ?_, ?_, ?_, ?_⟩
    · have hinv := hreceived.inv.setLink hl fun _ => hsize
      rwa [update_eq_self_iff.mpr rfl] at hinv
    · intro s hs
      rw [State.setLink]
      by_cases heq : s = p.source
      · subst heq
        simpa using hsettled
      · have := hreceived.settled s (by simpa [State.setLink, heq] using hs)
        simpa [heq] using this
    · exact hreceived.receives
    · exact hreceived.initialized

theorem State.Inv.arrive (h : w.Inv size fun _ => []) {c : Choice}
    (harrive : w.arrive c = some (p, w')) : w'.Inv size (inHand p) ∧ p.source < size ∧
      (∀ source, (w.links source).Settled → (w'.links source).Settled) ∧
      w'.posted = w.posted ∧ w'.callbacks = w.callbacks ∧
      w'.receivesInitialized = w.receivesInitialized := by
  rw [State.arrive, map_eq_some_iff] at harrive
  obtain ⟨buffer, hbuffer, heq⟩ := harrive
  obtain ⟨rfl, rfl⟩ := Prod.mk.inj heq
  have hlink := (h.links c.source).arrive hbuffer
  obtain ⟨k, -, hlt, -, hsource, -⟩ := hlink.exists_number (p := buffer) (by simp)
  have hsize : c.source < size := h.sources c.source (ne_nil_of_length_pos (Nat.zero_lt_of_lt hlt))
  have hinv := h.setLink hlink fun _ => hsize
  refine ⟨?_, hsource ▸ hsize, fun s hs => ?_, rfl, rfl, rfl⟩
  · rw [inHand, hsource]
    exact hinv
  · rw [State.setLink]
    by_cases heq : s = c.source
    · subst heq
      simp only [update_self]
      exact hs
    · simpa [heq] using hs

theorem postRecv_spec (dev : ℕ) (cs : List Choice) (w : State β) (h : w.Inv size fun _ => []) :
    ∃ w', postRecv size dev cs w = some w' ∧ Received size dev w w' := by
  induction cs generalizing w with
  | nil => exact ⟨_, rfl, received_post h⟩
  | cons c cs ih =>
    rw [postRecv]
    cases harrive : w.arrive c with
    | none => exact ⟨_, rfl, received_post h⟩
    | some a =>
      obtain ⟨p, w₁⟩ := a
      obtain ⟨hinv, hsize, hsettled, hposted, hcallbacks, hinit⟩ := h.arrive harrive
      obtain ⟨w', hw', hreceived⟩ := onRecv_spec ih hinv hsize
      refine ⟨w', hw', hreceived.inv, fun s hs => hreceived.settled s (hsettled s hs), fun d => ?_,
        hreceived.initialized.trans hinit⟩
      rw [hreceived.receives, hposted, hcallbacks]

/-! ## Runs -/

/-- What holds between two events. -/
structure State.Idle (size : ℕ) (w : State β) : Prop where
  inv : w.Inv size fun _ => []
  settled : ∀ source, (w.links source).Settled

theorem Received.idle (h : Received size dev w w') (hidle : w.Idle size) : w'.Idle size :=
  ⟨h.inv, fun s => h.settled s (hidle.settled s)⟩

theorem foldlM_postRecv (dev : ℕ) (cs : ℕ → List Choice) (l : List ℕ) (w : State β)
    (h : w.Idle size) :
    ∃ w', l.foldlM (fun w i => postRecv size dev (cs i) w) w = some w' ∧ w'.Idle size ∧
      (∀ d, w'.posted d + w'.callbacks d =
        w.posted d + w.callbacks d + if d = dev then l.length else 0) ∧
      w'.receivesInitialized = w.receivesInitialized := by
  induction l generalizing w with
  | nil => exact ⟨w, rfl, h, by simp, rfl⟩
  | cons i l ih =>
    obtain ⟨w₁, hw₁, hreceived⟩ := postRecv_spec dev (cs i) w h.inv
    obtain ⟨w', hw', hidle, hsum, hinit⟩ := ih w₁ (hreceived.idle h)
    refine ⟨w', ?_, hidle, fun d => ?_, hinit.trans hreceived.initialized⟩
    · rw [foldlM_cons, hw₁]
      exact hw'
    · rw [hsum, hreceived.receives, length_cons]
      split_ifs <;> omega

theorem foldlM_devices (cs : ℕ → ℕ → List Choice) (l : List ℕ) (hl : l.Nodup) (w : State β)
    (h : w.Idle size) :
    ∃ w', l.foldlM (fun w di =>
        (range maxSrqEntries).foldlM (fun w i => postRecv size di (cs di i) w) w) w = some w' ∧
      w'.Idle size ∧
      (∀ d, w'.posted d + w'.callbacks d =
        w.posted d + w.callbacks d + if d ∈ l then maxSrqEntries else 0) ∧
      w'.receivesInitialized = w.receivesInitialized := by
  induction l generalizing w with
  | nil => exact ⟨w, rfl, h, by simp, rfl⟩
  | cons di l ih =>
    rw [nodup_cons] at hl
    obtain ⟨w₁, hw₁, hidle₁, hsum₁, hinit₁⟩ :=
      foldlM_postRecv di (cs di) (range maxSrqEntries) w h
    obtain ⟨w', hw', hidle, hsum, hinit⟩ := ih hl.2 w₁ hidle₁
    refine ⟨w', ?_, hidle, fun d => ?_, hinit.trans hinit₁⟩
    · rw [foldlM_cons, hw₁]
      exact hw'
    · rw [hsum, hsum₁, length_range]
      by_cases hd : d = di
      · subst hd
        simp [hl.1]
      · simp [hd]

variable {devices : ℕ}

theorem initReceives_spec (cs : ℕ → ℕ → List Choice) (h : w.Idle size) (hb : Balanced devices w) :
    ∃ w', initReceives size devices cs w = some w' ∧ w'.Idle size ∧ Balanced devices w' := by
  rw [initReceives]
  split_ifs with hinit
  · exact ⟨w, rfl, h, hb⟩
  · obtain ⟨w', hw', hidle, hsum, hinit'⟩ := foldlM_devices cs (range devices)
      nodup_range { w with receivesInitialized := true } ⟨⟨h.inv.links, h.inv.sources⟩, h.settled⟩
    refine ⟨w', hw', hidle, fun d => ?_⟩
    have hd : w.posted d + w.callbacks d = 0 := by simpa [entries, hinit] using hb d
    rw [hsum, hd, entries, hinit']
    simp

theorem Received.balanced {w₀ : State β} (h : Received size dev w w') (hb : Balanced devices w₀)
    (hinit : w.receivesInitialized = w₀.receivesInitialized)
    (hsum : ∀ d, w.posted d + w.callbacks d + (if d = dev then 1 else 0) =
      w₀.posted d + w₀.callbacks d) : Balanced devices w' := by
  intro d
  rw [h.receives, hsum, hb, entries, entries, h.initialized, hinit]

theorem update_pred_add {f : ℕ → ℕ} (hpos : 0 < f dev) (d : ℕ) :
    update f dev (f dev - 1) d + (if d = dev then 1 else 0) = f d := by
  by_cases hd : d = dev
  · subst hd
    simp only [update_self, if_pos]
    omega
  · simp [hd]

theorem perform_spec (h : w.Idle size) (hb : Balanced devices w) (e : Event β)
    (hlegal : e.Legal size w) :
    ∃ w', perform size devices w e = some w' ∧ w'.Idle size ∧ Balanced devices w' := by
  cases e with
  | send source type view =>
    have hlink := (h.inv.links source).send type view hlegal.2
    have hinv := h.inv.setLink hlink fun _ => hlegal.1
    rw [update_eq_self_iff.mpr rfl] at hinv
    refine ⟨_, rfl, ⟨hinv, fun s => ?_⟩, hb⟩
    rw [State.setLink]
    by_cases hs : s = source
    · subst hs
      simp only [update_self]
      exact h.settled s
    · simpa [hs] using h.settled s
  | initReceives cs => exact initReceives_spec cs h hb
  | recv dev c cs =>
    obtain ⟨hpos, hlt⟩ := hlegal
    obtain ⟨⟨p, w₁⟩, harrive⟩ : ∃ a, w.arrive c = some a := by
      rw [State.arrive, List.getElem?_eq_getElem hlt]
      exact ⟨_, rfl⟩
    obtain ⟨hinv, hsize, hsettled, hposted, hcallbacks, hinit⟩ := h.inv.arrive harrive
    have hinv' : State.Inv size (inHand p) { w₁ with
        posted := update w.posted dev (w.posted dev - 1) } := ⟨hinv.links, hinv.sources⟩
    obtain ⟨w', hw', hreceived⟩ := onRecv_spec (postRecv_spec dev cs) hinv' hsize
    refine ⟨w', ?_, ⟨hreceived.inv, fun s => hreceived.settled s (hsettled s (h.settled s))⟩,
      hreceived.balanced hb hinit fun d => ?_⟩
    · rw [perform, harrive]
      exact hw'
    · rw [hcallbacks, Nat.add_right_comm, update_pred_add hpos]
  | callback dev cs =>
    have hinv : State.Inv size (fun _ => []) { w with
        callbacks := update w.callbacks dev (w.callbacks dev - 1) } :=
      ⟨h.inv.links, h.inv.sources⟩
    obtain ⟨w', hw', hreceived⟩ := postRecv_spec dev cs _ hinv
    refine ⟨w', hw', ⟨hreceived.inv, fun s => hreceived.settled s (h.settled s)⟩,
      hreceived.balanced hb rfl fun d => ?_⟩
    rw [Nat.add_assoc, update_pred_add hlegal]

theorem Reachable.idle (h : Reachable size devices w) : w.Idle size ∧ Balanced devices w := by
  induction h with
  | init =>
    refine ⟨⟨⟨fun s => Link.Inv.init, ?_⟩, ?_⟩, fun d => ?_⟩
    · simp [Transport.init]
    · simp [Transport.init, Settled]
    · simp [Transport.init, entries]
  | step h e hlegal hperform ih =>
    obtain ⟨w', hw', hspec⟩ := perform_spec ih.1 ih.2 e hlegal
    rw [hperform] at hw'
    cases hw'
    exact hspec

def play (size devices : ℕ) : List (Event β) → State β → Option (State β)
  | [], w => some w
  | e :: es, w =>
    if e.Legal size w then (perform size devices w e).bind (play size devices es) else none

theorem Reachable.play {es : List (Event β)} (h : Reachable size devices w)
    (hplay : play size devices es w = some w') : Reachable size devices w' := by
  induction es generalizing w with
  | nil =>
    cases hplay
    exact h
  | cons e es ih =>
    rw [play] at hplay
    split_ifs at hplay with hlegal
    obtain ⟨w₁, hw₁, hplay⟩ := bind_eq_some_iff.mp hplay
    exact ih (h.step e hlegal hw₁) hplay

end Receive

/-- In every reachable state the handlers have run in order and once for each message, for all that
has arrived without a gap; the number of receives is that of the beginning. -/
theorem reachable_delivered {size devices : ℕ} {w : State β} (h : Reachable size devices w) :
    Delivered size devices w where
  links source := (h.idle.1.inv.links source).delivered (h.idle.1.settled source)
  receives := h.idle.2
  checks e hlegal := by
    obtain ⟨w', hw', -⟩ := perform_spec h.idle.1 h.idle.2 e hlegal
    rw [hw']
    rfl

/-- The last of three messages comes first, and the second while the receive of the first is posted
again. -/
def outOfOrder : List (Event ℕ) :=
  [.initReceives fun _ _ => [], .send 1 .queuePut 10, .send 1 .queueGet 20, .send 1 .queuePut 30,
    .recv 0 ⟨1, 2⟩ [], .recv 1 ⟨1, 0⟩ [⟨1, 0⟩]]

theorem reachable_delivered_outOfOrder :
    ∃ w : State ℕ, Delivered 2 2 w ∧
      (w.links 1).handled = [(.queuePut, 10), (.queueGet, 20), (.queuePut, 30)] ∧
      w.callbacks 0 = 1 ∧ w.posted 1 = maxSrqEntries := by
  have hplay : (play 2 2 outOfOrder init).map (fun w =>
      ((w.links 1).handled, w.callbacks 0, w.posted 1)) =
        some ([(.queuePut, 10), (.queueGet, 20), (.queuePut, 30)], 1, maxSrqEntries) := by
    decide +kernel
  obtain ⟨w, hw, heq⟩ := map_eq_some_iff.mp hplay
  obtain ⟨hhandled, hrest⟩ := Prod.mk.inj heq
  exact ⟨w, reachable_delivered (Reachable.init.play hw), hhandled, Prod.mk.inj hrest⟩

end Transport
