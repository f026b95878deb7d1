import Moodist.Store.Link.Order

/-!
# The steps of the link

Every step of the edge keeps the invariant of both directions. A step at one end is seen twice:
from the direction in which the end sends, and from the one in which it reads.
-/

namespace Store.Link

open Foundation List Function Connection EdgeInfo State Side

variable {R M : Type} {ranks : List R} {i : ℕ} {e : Side}

/-! ## What a step at one end is for a direction -/

section Lenses

variable {b : ℕ} {S T : EdgeInfo R M} {cs : ℕ → Connection R M} {k : ℕ} {m : M}
  {fs rest : List (Frame R M)} {f : Frame R M}

/-- The reader writes something that is no acknowledgement. -/
theorem Direction.write_back (h : Direction b S T cs e) (i : ℕ) (fs : List (Frame R M))
    (hfs : ackSeqs fs = []) : Direction b S T (update cs i ((cs i).write e.other fs)) e := by
  have hself : ((cs i).write e.other fs).written e = (cs i).written e := by
    have := write_written_other (c := cs i) (e := e.other) fs
    rwa [other_other] at this
  have hacks : ((cs i).write e.other fs).acks e = (cs i).acks e := by
    by_cases halive : (cs i).Alive
    · rw [acks, write_written_self halive, ackSeqs_append, hfs, append_nil, acks]
    · rw [write_of_not_alive halive]
  have hlive : ((cs i).write e.other fs).live e = (cs i).live e := by
    rw [live, hself, write_hasSourceRank, live]
  refine h.connection (by simp) (fun hmem => by rwa [hself] at hmem) ?_ ?_ fun halive => ?_
  · rw [hacks]
  · rw [hlive]
  · exact ⟨write_alive_iff.mp halive, hacks, by rw [hlive]⟩

theorem Direction.write_ack (h : Direction b S T cs e) (hshaped : (cs i).Shaped)
    (hset : (cs i).hasSourceRank e = true) :
    Direction b S T (update cs i ((cs i).write e [.messageAck k])) e := by
  by_cases halive : (cs i).Alive
  swap
  · rw [write_of_not_alive halive, update_eq_self]
    exact h
  have hself := write_written_self (e := e) halive [.messageAck k]
  have hacks := acks_write (c := cs i) (e := e) [.messageAck k]
  have hlive : seqs (((cs i).write e [.messageAck k]).live e) = seqs ((cs i).live e) := by
    by_cases hother : (cs i).hasSourceRank e.other = true
    · rw [live_of_set (by simpa using hother), live_of_set hother, hself]
      simp
    · simp only [Bool.not_eq_true] at hother
      rw [live_of_unset (by simpa using hother), live_of_unset hother, hself,
        afterConnectAck_append_of_has (hshaped.waiting hset hother halive)]
      simp
  refine h.connection (by simp) (fun hmem => ?_) ?_ ?_ fun _ => ⟨halive, hacks, hlive⟩
  · rw [hself] at hmem
    simpa using hmem
  · rw [hacks]
  · rw [hlive]

/-- The sender reads a frame that is no acknowledgement. -/
theorem Direction.pop_front (h : Direction b S T cs e)
    (heq : (cs i).written e.other = f :: rest) (hf : ackSeqs [f] = []) :
    Direction b S T (update cs i ((cs i).pop e)) e := by
  have hacks : ((cs i).pop e).acks e = (cs i).acks e := by
    have hcons : ackSeqs ([f] ++ rest) = ackSeqs [f] ++ ackSeqs rest := ackSeqs_append
    rw [singleton_append] at hcons
    rw [acks, pop_written_other, acks, heq, hcons, hf]
    rfl
  refine h.connection rfl (fun hmem => ?_) ?_ ?_ fun halive => ⟨halive, hacks, ?_⟩
  · rwa [pop_written_self] at hmem
  · rw [hacks]
  · rw [live_pop]
  · rw [live_pop]

variable {c : Connection R M}

theorem Connection.pop_other_written (heq : c.written e = f :: rest) :
    (c.pop e.other).written e = rest := by
  have := c.pop_written_other (e := e.other)
  rwa [other_other, heq] at this

variable (h : Direction b S T cs e)

include h

/-- The reader takes a frame that it throws away, or that does not concern the direction. -/
theorem Direction.pop_back (heq : (cs i).written e = f :: rest)
    (hlive : seqs (((cs i).pop e.other).live e) = seqs ((cs i).live e)) :
    Direction b S T (update cs i ((cs i).pop e.other)) e := by
  have hacks : ((cs i).pop e.other).acks e = (cs i).acks e := by
    rw [acks, pop_written_self, acks]
  refine h.connection rfl (fun hmem => ?_) ?_ ?_ fun halive => ⟨halive, hacks, hlive⟩
  · rw [pop_other_written heq] at hmem
    rw [heq]
    exact mem_cons_of_mem _ hmem
  · rw [hacks]
  · rw [hlive]

theorem Direction.discard (hunset : (cs i).hasSourceRank e.other = false)
    (heq : (cs i).written e = .message k m :: rest) :
    Direction b S T (update cs i ((cs i).pop e.other)) e := by
  refine h.pop_back heq ?_
  rw [live_of_unset (c := (cs i).pop e.other) hunset, live_of_unset hunset,
    pop_other_written heq, heq]
  rfl

/-- The reader takes an acknowledgement of its own. -/
theorem Direction.take_back (heq : (cs i).written e = .messageAck k :: rest) :
    Direction b S T (update cs i ((cs i).pop e.other)) e := by
  refine h.pop_back heq ?_
  by_cases hset : (cs i).hasSourceRank e.other = true
  · rw [live_of_set (c := (cs i).pop e.other) hset, live_of_set hset, pop_other_written heq, heq]
    rfl
  · simp only [Bool.not_eq_true] at hset
    rw [live_of_unset (c := (cs i).pop e.other) hset, live_of_unset hset,
      pop_other_written heq, heq]
    rfl

/-- The reader registers the connection: from here on it reads everything. -/
theorem Direction.register_back (hshaped : (cs i).Shaped) (heq : (cs i).written e = f :: rest)
    (hf : f.isHandshake) (hfs : ackSeqs fs = []) : Direction b S T (update cs i
      ((((cs i).pop e.other).setSourceRank e.other).write e.other fs)) e := by
  set c := ((cs i).pop e.other).setSourceRank e.other with hc
  have hother : (cs i).written e.other.other = f :: rest := by rwa [other_other]
  obtain ⟨hunset, -⟩ := hshaped.unset_of_handshake hother hf
  have hrest : c.written e = rest := pop_other_written heq
  have hset : c.hasSourceRank e.other = true := update_self ..
  have hacks : c.acks e = (cs i).acks e := by
    show ackSeqs (((cs i).pop e.other).written e.other) = _
    rw [pop_written_self, acks]
  -- what came before the acknowledgement of the handshake was no message
  have hlive : seqs (c.live e) = seqs ((cs i).live e) := by
    rw [live_of_set hset, hrest, live_of_unset hunset, heq]
    cases f with
    | connectAck ranks => rfl
    | connect ranks =>
      have hin : Frame.connect ranks ∈ (cs i).written e := by simp [heq]
      obtain ⟨hself, -⟩ := hshaped.connect hin
      have hnil := hshaped.seqs_eq_nil hself
      rw [heq, seqs_connect] at hnil
      have hafter : seqs (afterConnectAck rest) = [] := by
        refine eq_nil_iff_forall_not_mem.mpr fun j hj => ?_
        obtain ⟨m', hm'⟩ := mem_seqs.mp hj
        have hin := mem_seqs.mpr ⟨m', mem_of_mem_afterConnectAck hm'⟩
        simp [hnil] at hin
      rw [hnil]
      exact hafter.symm
    | message k m | messageAck k => simp [Frame.isHandshake] at hf
  have hfirst : Direction b S T (update cs i c) e := by
    refine h.connection ?_ (fun hmem => ?_) ?_ ?_ fun halive => ⟨halive, hacks, hlive⟩
    · exact update_of_ne e.ne_other _ _
    · rw [hrest] at hmem
      rw [heq]
      exact mem_cons_of_mem _ hmem
    · rw [hacks]
    · rw [hlive]
  have hsecond := hfirst.write_back i fs hfs
  rwa [update_self, update_idem] at hsecond

theorem Direction.stop (hrank : c.hasSourceRank e = (cs i).hasSourceRank e)
    (hmem : ∀ {k m}, .message k m ∈ c.written e → .message k m ∈ (cs i).written e)
    (hacks : c.acks e <+: (cs i).acks e) (hlive : seqs (c.live e) <+: seqs ((cs i).live e))
    (hdead : ¬ c.Alive) : Direction b S T (update cs i c) e :=
  h.connection hrank hmem hacks hlive fun halive => absurd halive hdead

theorem Direction.open (hunset : (cs i).hasSourceRank e = false)
    (hrank : c.hasSourceRank e = false) (hseqs : seqs (c.written e) = []) (hacks : c.acks e = []) :
    Direction b S T (update cs i c) e := by
  have hranks := hasSourceRank_update (hrank.trans hunset.symm)
  refine { h with fresh := ?_, registered := ?_, lanes := ?_, tracked := ?_ }
  · intro hever
    obtain ⟨h₁, h₂, h₃⟩ := h.fresh hever
    exact ⟨h₁, h₂, fun j => (hranks j).trans (h₃ j)⟩
  · exact fun j hj => (hranks j).trans (h.registered j hj)
  · intro j
    by_cases hj : j = i
    · subst hj
      rw [update_self]
      exact Lane.of_nil hseqs hacks
    · rw [update_of_ne hj]
      exact h.lanes j
  · intro j hj
    have hji : j ≠ i := by
      rintro rfl
      simp [h.registered j hj] at hunset
    rw [update_of_ne hji]
    exact h.tracked j hj

end Lenses

/-! ## Registration in one piece -/

def numbered : ℕ → List M → List (ℕ × M)
  | _, [] => []
  | seq, m :: ms => (seq, m) :: numbered (seq + 1) ms

def EdgeInfo.enqueueAll (pi : EdgeInfo R M) (ms : List M) : EdgeInfo R M :=
  ms.foldl EdgeInfo.enqueue pi

theorem EdgeInfo.enqueueAll_eq (pi : EdgeInfo R M) (ms : List M) :
    pi.enqueueAll ms =
      { pi with
        outgoingSeq := pi.outgoingSeq + ms.length
        outgoingQueue := pi.outgoingQueue ++ numbered pi.outgoingSeq ms
        sent := pi.sent ++ ms } := by
  induction ms generalizing pi with
  | nil => simp [enqueueAll, numbered]
  | cons m ms ih =>
    have hstep : pi.enqueueAll (m :: ms) = (pi.enqueue m).enqueueAll ms := rfl
    rw [hstep, ih]
    simp [enqueue, numbered, Nat.add_assoc, Nat.add_comm 1]

/-- The end `e` and the connection `i` are replaced. -/
def State.put (s : State R M) (e : Side) (pi : EdgeInfo R M) (i : ℕ) (c : Connection R M) :
    State R M :=
  { ends := Function.update s.ends e pi, connections := Function.update s.connections i c }

theorem sendMessage_put {s : State R M} {l : List ℕ}
    (htcp : (s.ends e).tcpconnections = i :: l) (m : M) :
    sendMessage s e m = s.put e ((s.ends e).enqueue m) i
      ((s.connections i).write e [.message (s.ends e).outgoingSeq m]) := by
  rw [sendMessage, htcp]
  rfl

theorem foldl_sendMessage (ms : List M) (s : State R M) (htcp : (s.ends e).tcpconnections = [i]) :
    ms.foldl (fun s m => sendMessage s e m) s =
      s.put e ((s.ends e).enqueueAll ms) i
        ((s.connections i).write e (messages (numbered (s.ends e).outgoingSeq ms))) := by
  induction ms generalizing s with
  | nil =>
    have hwrite : (s.connections i).write e [] = s.connections i := by
      rw [write]
      split
      · simp
      · rfl
    show s = s.put e (s.ends e) i ((s.connections i).write e [])
    rw [hwrite, put, update_eq_self, update_eq_self]
  | cons m ms ih =>
    rw [foldl_cons, sendMessage_put htcp, ih]
    · simp only [put, update_self, update_idem, write_write]
      rfl
    · simpa [put, enqueue] using htcp

section Register

variable [DecidableEq R]

/-- The messages that `replayPendingBroadcasts` sends on a new connection. -/
def EdgeInfo.replayed (pi : EdgeInfo R M) (ranks : List R) : List M :=
  (pi.pendingBroadcasts.filter fun p =>
    decide (p.1 ∈ ranks) || pi.broadcastForwardFor p.1).map Prod.snd

def EdgeInfo.afterConnect (pi : EdgeInfo R M) (i : ℕ) (ranks : List R) : EdgeInfo R M :=
  { (pi.register i ranks).enqueueAll (pi.replayed ranks) with pendingBroadcasts := [] }

theorem EdgeInfo.afterConnect_outgoing (pi : EdgeInfo R M) (htcp : pi.tcpconnections = []) :
    (pi.afterConnect i ranks).outgoing =
      (true, [], [i], (pi.enqueueAll (pi.replayed ranks)).outgoingSeq,
        (pi.enqueueAll (pi.replayed ranks)).outgoingQueue,
        (pi.enqueueAll (pi.replayed ranks)).sent) := by
  rw [afterConnect, enqueueAll_eq, enqueueAll_eq]
  simp [outgoing, register, htcp]

theorem EdgeInfo.afterConnect_incoming (pi : EdgeInfo R M) (i : ℕ) (ranks : List R) :
    (pi.afterConnect i ranks).incoming = pi.incoming := by
  rw [afterConnect, enqueueAll_eq]
  rfl

theorem onConnect_of_nil (s : State R M)
    {reply : List (Frame R M)} (htcp : (s.ends e).tcpconnections = []) :
    onConnect s e i ranks reply =
      s.put e ((s.ends e).afterConnect i ranks) i
        (((s.connections i).setSourceRank e).write e
          (messages (numbered (s.ends e).outgoingSeq ((s.ends e).replayed ranks)) ++ reply ++
            messages ((s.ends e).enqueueAll ((s.ends e).replayed ranks)).outgoingQueue)) := by
  set s₁ := (s.modifyConnection i (·.setSourceRank e)).modifyEnd e (·.register i ranks) with hs₁
  have hend : s₁.ends e = (s.ends e).register i ranks := update_self ..
  have hconn : s₁.connections i = (s.connections i).setSourceRank e := update_self ..
  have hloop : (s₁.ends e).pendingBroadcasts.foldl
      (fun t pending => if (s₁.ends e).broadcastForwardFor pending.1 then
        sendMessage t e pending.2 else t) s₁ =
      s₁.put e ((s₁.ends e).enqueueAll ((s.ends e).replayed ranks)) i
        ((s₁.connections i).write e
          (messages (numbered (s₁.ends e).outgoingSeq ((s.ends e).replayed ranks)))) := by
    rw [← foldl_sendMessage _ _ (by simp [hend, register, htcp]), replayed,
      foldl_map, foldl_filter, hend]
    rfl
  have hqueue : ((s.ends e).afterConnect i ranks).outgoingQueue =
      ((s.ends e).enqueueAll ((s.ends e).replayed ranks)).outgoingQueue := by
    rw [afterConnect, enqueueAll_eq, enqueueAll_eq]
    rfl
  have hreplay : replayPendingBroadcasts s₁ e =
      s₁.put e ((s.ends e).afterConnect i ranks) i
        ((s₁.connections i).write e
          (messages (numbered (s₁.ends e).outgoingSeq ((s.ends e).replayed ranks)))) := by
    rw [replayPendingBroadcasts, hloop]
    simp only [put, modifyEnd, update_self, update_idem, hend]
    rfl
  rw [onConnect, if_neg (by simp [htcp])]
  show ((replayPendingBroadcasts s₁ e).modifyConnection i _).modifyConnection i _ = _
  rw [hreplay]
  simp only [put, modifyConnection, update_self, update_idem, write_write, hconn, hend, hqueue]
  simp only [hs₁, modifyEnd, modifyConnection, update_idem]
  rfl

end Register

/-! ## The invariant -/

/-- The invariant of an edge. -/
structure Inv (s : State R M) : Prop where
  shaped : ∀ i, (s.connections i).Shaped
  direction : ∀ e, ∃ b, Direction b (s.ends e) (s.ends e.other) s.connections e

/-- Fewer than `2 ^ 31` messages are unacknowledged at each end. -/
def FewUnacknowledged (s : State R M) : Prop :=
  ∀ e, (s.ends e).outgoingQueue.length < 2 ^ 31

/-- Fewer than `2 ^ 31` messages have been sent after the message that is read, or whose
acknowledgement is read. -/
def Timely (s : State R M) : Action R M → Prop
  | .read e i =>
    match s.next? e i with
    | some (.message seq _) => (s.ends e.other).sent.length ≤ seq + 2 ^ 31
    | some (.messageAck seq) => (s.ends e).sent.length ≤ seq + 2 ^ 31
    | _ => True
  | _ => True

section Invariant

variable {s s' : State R M} {k : ℕ} {m : M} {f : Frame R M} {rest : List (Frame R M)}

theorem inv_default : Inv ({} : State R M) where
  shaped _ := shaped_default
  direction e :=
    ⟨0,
      { seq := rfl
        sorted := List.Pairwise.nil
        queue_sent := by simp
        received := ⟨rfl, le_refl _, by simp⟩
        kept := by simp
        fresh := fun _ => ⟨rfl, rfl, fun _ => rfl⟩
        bound := by simp
        single := Nat.zero_le _
        registered := by simp
        ordered := by simp
        lanes := fun _ => Lane.of_nil rfl rfl
        tracked := by simp }⟩

theorem Inv.of_ends (e : Side) (hshaped : ∀ i, (s.connections i).Shaped)
    (hout : ∃ b, Direction b (s.ends e) (s.ends e.other) s.connections e)
    (hin : ∃ b, Direction b (s.ends e.other) (s.ends e) s.connections e.other) : Inv s := by
  refine ⟨hshaped, fun e' => ?_⟩
  obtain rfl | rfl := e.eq_or_other e'
  · exact hout
  · rwa [other_other]

theorem Inv.incoming (h : Inv s) (e : Side) :
    ∃ b, Direction b (s.ends e.other) (s.ends e) s.connections e.other := by
  have := h.direction e.other
  rwa [other_other] at this

variable {c : Connection R M} {cs : ℕ → Connection R M}

theorem shaped_update (h : ∀ j, (cs j).Shaped) (hc : c.Shaped) :
    ∀ j, (update cs i c j).Shaped := by
  intro j
  by_cases hj : j = i
  · subst hj
    rwa [update_self]
  · rw [update_of_ne hj]
    exact h j

theorem Inv.put (h : Inv s) {pi : EdgeInfo R M} (hc : c.Shaped)
    (hout : ∃ b, Direction b pi (s.ends e.other) (update s.connections i c) e)
    (hin : ∃ b, Direction b (s.ends e.other) pi (update s.connections i c) e.other) :
    Inv (s.put e pi i c) := by
  refine Inv.of_ends e (shaped_update h.shaped hc) ?_ ?_
  · simpa [State.put] using hout
  · simpa [State.put] using hin

/-- A step that replaces one end only. -/
theorem Inv.modifyEnd (h : Inv s) {g : EdgeInfo R M → EdgeInfo R M}
    (hout : ∀ b, Direction b (s.ends e) (s.ends e.other) s.connections e →
      Direction b (g (s.ends e)) (s.ends e.other) s.connections e)
    (hin : (g (s.ends e)).incoming = (s.ends e).incoming) : Inv (s.modifyEnd e g) := by
  refine Inv.of_ends e h.shaped ?_ ?_
  · obtain ⟨b, hb⟩ := h.direction e
    exact ⟨b, by simpa [State.modifyEnd] using hout b hb⟩
  · obtain ⟨b, hb⟩ := h.incoming e
    exact ⟨b, by simpa [State.modifyEnd] using hb.of_sides rfl hin⟩

/-- A step that replaces one connection only. -/
theorem Inv.modifyConnection (h : Inv s) {g : Connection R M → Connection R M}
    (hc : (g (s.connections i)).Shaped)
    (hdir : ∀ e b, Direction b (s.ends e) (s.ends e.other) s.connections e →
      Direction b (s.ends e) (s.ends e.other)
        (update s.connections i (g (s.connections i))) e) :
    Inv (s.modifyConnection i g) := by
  refine ⟨shaped_update h.shaped hc, fun e => ?_⟩
  obtain ⟨b, hb⟩ := h.direction e
  exact ⟨b, hdir e b hb⟩

/-- `sendMessage`. -/
theorem Inv.sendMessage (h : Inv s) (e : Side) (m : M) : Inv (sendMessage s e m) := by
  cases htcp : (s.ends e).tcpconnections with
  | nil =>
    rw [Link.sendMessage, htcp]
    exact h.modifyEnd (fun b hb => hb.send_idle htcp) rfl
  | cons i l =>
    rw [sendMessage_put htcp]
    obtain ⟨b, hb⟩ := h.direction e
    obtain ⟨b', hb'⟩ := h.incoming e
    have hset := hb.registered i (by simp [htcp])
    refine h.put ?_ ⟨b, hb.send_write (h.shaped i) htcp⟩ ⟨b', ?_⟩
    · exact (h.shaped i).write hset (by simp [Frame.isHandshake]) (fun _ => rfl)
    · have hwrite := hb'.write_back i [.message (s.ends e).outgoingSeq m] rfl
      rw [other_other] at hwrite
      exact hwrite.of_sides rfl rfl

theorem Connection.shaped_close (h : c.Shaped) : (c.close e).Shaped where
  once := h.once
  connect := h.connect
  connectAck := h.connectAck
  quiet := h.quiet
  unacked := h.unacked
  waiting _ _ halive := absurd halive not_alive_close
  unopened := h.unopened

theorem Inv.close (h : Inv s) (e : Side) (i : ℕ) : Inv (s.modifyConnection i (·.close e)) := by
  refine h.modifyConnection (shaped_close (h.shaped i)) fun e' b hb => ?_
  exact hb.stop rfl id (prefix_refl _) (prefix_refl _) not_alive_close

/-- Frames on the way to a closed end are lost. -/
theorem Inv.lose (h : Inv s) (e : Side) (i kept : ℕ) :
    Inv (s.modifyConnection i (·.lose e kept)) := by
  by_cases hclosed : (s.connections i).closed e = true
  swap
  · have hsame : (s.connections i).lose e kept = s.connections i := by
      rw [Connection.lose, if_neg hclosed]
    have hstate : s.modifyConnection i (·.lose e kept) = s := by
      rw [State.modifyConnection, hsame, update_eq_self]
    rwa [hstate]
  have hdead : ¬ (s.connections i).Alive := fun halive => by simp [halive e] at hclosed
  have hlose : (s.connections i).lose e kept =
      { s.connections i with
        written := update (s.connections i).written e.other
          (((s.connections i).written e.other).take kept) } := by
    rw [Connection.lose, if_pos hclosed]
  refine h.modifyConnection ?_ fun e' b hb => ?_
  · rw [hlose]
    exact (h.shaped i).sublist (take_sublist ..) fun _ halive => absurd halive hdead
  · rw [hlose]
    obtain rfl | rfl := e.eq_or_other e'
    · refine hb.stop rfl (fun hmem => ?_) ?_ ?_ hdead
      · simpa using hmem
      · simp only [acks, update_self]
        exact ackSeqs_prefix <| take_prefix ..
      · simp [live]
    · refine hb.stop rfl (fun hmem => ?_) ?_ ?_ hdead
      · simp only [update_self] at hmem
        exact mem_of_mem_take hmem
      · simp [acks]
      · apply seqs_prefix
        simp only [live, update_self]
        split
        · exact take_prefix ..
        · exact afterConnectAck_take kept

theorem Inv.reap (h : Inv s) (e : Side) : Inv (reaptcpconnections s e) :=
  h.modifyEnd (fun _ hb => hb.reap _) rfl

theorem Inv.postpone (h : Inv s) (e : Side) (r : R) (m : M) :
    Inv (s.modifyEnd e (·.postpone r m)) := by
  refine h.modifyEnd (fun _ hb => hb.postpone r m) ?_
  rw [EdgeInfo.postpone]
  split <;> rfl

/-- `connectEdge`. -/
theorem Inv.connectEdge [DecidableEq R] (h : Inv s) (forwardRanks : Side → List R) (e : Side)
    (i : ℕ) : Inv (connectEdge forwardRanks s e i) := by
  rw [Link.connectEdge]
  split
  next => exact h
  next hfree =>
    obtain ⟨-, hnone⟩ := not_or.mp hfree
    have hunopened := (h.shaped i).unopened (not_not.mp hnone)
    set c : Connection R M :=
      { opener := some e, written := update (fun _ => []) e [.connect (forwardRanks e)] }
      with hc
    have hframes : ∀ e' f, f ∈ c.written e' → e' = e ∧ f = .connect (forwardRanks e) := by
      intro e' f hf
      obtain rfl | rfl := e.eq_or_other e'
      · exact ⟨rfl, by simpa [hc] using hf⟩
      · simp [hc] at hf
    have hacks : ∀ e', ackSeqs (c.written e') = [] := by
      intro e'
      refine eq_nil_iff_forall_not_mem.mpr fun k hk => ?_
      obtain ⟨-, hcontra⟩ := hframes e' _ (mem_ackSeqs.mp hk)
      cases hcontra
    refine h.modifyConnection ?_ fun e' b hb => ?_
    · constructor
      · intro e'
        obtain rfl | rfl := e.eq_or_other e' <;> simp [hc, Frame.isHandshake]
      · intro e' ranks hmem
        obtain ⟨rfl, -⟩ := hframes e' _ hmem
        exact ⟨rfl, rfl, by simp [hc]⟩
      · intro e' ranks hmem
        obtain ⟨-, hcontra⟩ := hframes e' _ hmem
        cases hcontra
      · exact fun _ f hf => ⟨_, (hframes _ f hf).2⟩
      · exact fun _ => hacks _
      · intro e' hset
        cases hset
      · intro hcontra
        cases hcontra
    · refine hb.open (hunopened e').2 rfl ?_ (hacks _)
      refine eq_nil_iff_forall_not_mem.mpr fun k hk => ?_
      obtain ⟨m, hm⟩ := mem_seqs.mp hk
      obtain ⟨-, hcontra⟩ := hframes e' _ hm
      cases hcontra

/-! ## Reading a frame -/

theorem hasConnectAck_tail (h : HasConnectAck (f :: rest)) (hf : f.isHandshake = false) :
    HasConnectAck rest := by
  obtain ⟨ranks, hmem⟩ := h
  rcases mem_cons.mp hmem with rfl | hmem
  · simp [Frame.isHandshake] at hf
  · exact ⟨ranks, hmem⟩

theorem Connection.Shaped.pop_plain (h : c.Shaped) (heq : c.written e.other = f :: rest)
    (hf : f.isHandshake = false) : (c.pop e).Shaped := by
  refine h.sublist (tail_sublist _) fun _ _ hack => ?_
  rw [heq] at hack ⊢
  exact hasConnectAck_tail hack hf

/-- A connection that has come too late is closed. -/
theorem Inv.refuse (h : Inv s) (heq : (s.connections i).written e.other = f :: rest)
    (hf : f.isHandshake) :
    Inv ((s.modifyConnection i (·.pop e)).modifyConnection i (·.close e)) := by
  have hstate : (s.modifyConnection i (·.pop e)).modifyConnection i (·.close e) =
      s.modifyConnection i fun c => (c.pop e).close e := by
    simp [State.modifyConnection]
  rw [hstate]
  have hdead : ¬ (((s.connections i).pop e).close e).Alive := not_alive_close
  refine h.modifyConnection ?_ fun e' b hb => ?_
  · exact (shaped_close (h.shaped i)).sublist (tail_sublist _)
      fun _ halive => absurd halive not_alive_close
  · obtain rfl | rfl := e.eq_or_other e'
    · have hacks : ackSeqs (f :: rest) = ackSeqs rest := by
        cases f with
        | connect ranks | connectAck ranks => rfl
        | message k m | messageAck k => simp [Frame.isHandshake] at hf
      refine hb.stop rfl (fun hmem => ?_) ?_ ?_ hdead
      · rwa [Connection.close, Connection.pop_written_self] at hmem
      · show ackSeqs (((s.connections i).pop e').written e'.other) <+: _
        rw [pop_written_other, acks, heq, hacks]
        exact prefix_refl _
      · show seqs (((s.connections i).pop e').live e') <+: _
        rw [live_pop]
    · obtain ⟨hunset, -⟩ := (h.shaped i).unset_of_handshake heq hf
      have hunset' : (s.connections i).hasSourceRank e.other.other = false := by
        rwa [other_other]
      have hplain := (h.shaped i).tail_plain heq hf
      have hnone : ¬ HasConnectAck rest := by
        rintro ⟨ranks, hmem⟩
        simpa [Frame.isHandshake] using hplain _ hmem
      have hrest : ((s.connections i).pop e).written e.other = rest := by
        rw [pop_written_other, heq, tail_cons]
      refine hb.stop rfl (fun hmem => ?_) ?_ ?_ hdead
      · rw [heq]
        exact mem_cons_of_mem _ (hrest ▸ hmem)
      · show ackSeqs (((s.connections i).pop e).written e.other.other) <+: _
        rw [other_other, pop_written_self, acks, other_other]
      · show seqs (((s.connections i).pop e).live e.other) <+: _
        rw [live_of_unset (c := (s.connections i).pop e) hunset', hrest,
          afterConnectAck_of_not_has hnone]
        exact nil_prefix

theorem Direction.send_all_idle {b : ℕ} {S T : EdgeInfo R M}
    (h : Direction b S T cs e) (htcp : S.tcpconnections = []) (ms : List M) :
    Direction b (S.enqueueAll ms) T cs e := by
  induction ms generalizing S with
  | nil => exact h
  | cons m ms ih => exact ih (h.send_idle htcp) htcp

variable {reply : List (Frame R M)}

/-- What is written when a connection is registered. -/
theorem register_frames (early queue : List (ℕ × M))
    (hreply : reply = [] ∨ ∃ ranks, reply = [.connectAck ranks]) :
    (messages early ++ reply ++ messages queue).countP Frame.isHandshake ≤ 1 ∧
      (∀ ranks, Frame.connect ranks ∉ messages early ++ reply ++ messages queue) ∧
      ackSeqs (messages early ++ reply ++ messages queue) = [] ∧
      (HasConnectAck (messages early ++ reply ++ messages queue) ↔
        ∃ ranks, reply = [.connectAck ranks]) := by
  have hcount : ∀ q : List (ℕ × M),
      (messages q : List (Frame R M)).countP Frame.isHandshake = 0 := by
    intro q
    rw [countP_eq_zero]
    intro f hf
    obtain ⟨v, -, rfl⟩ := mem_map.mp hf
    simp [Frame.isHandshake]
  rcases hreply with rfl | ⟨ranks, rfl⟩
  · refine ⟨by simp [hcount], by simp [messages], by simp, ?_⟩
    simp [HasConnectAck, messages]
  · refine ⟨?_, by simp [messages], by simp, ?_⟩
    · rw [countP_append, countP_append, hcount, hcount]
      exact le_refl 1
    · exact iff_of_true ⟨ranks, by simp⟩ ⟨ranks, rfl⟩

variable (h : Inv s)

include h

theorem Inv.onMessage (heq : (s.connections i).written e.other = .message k m :: rest)
    (htimely : (s.ends e.other).sent.length ≤ k + 2 ^ 31) :
    Inv (onMessage (s.modifyConnection i (·.pop e)) e i k m) := by
  have hset' : (s.connections i).hasSourceRank e.other = true := by
    by_contra hunset
    obtain ⟨ranks, hcontra⟩ := (h.shaped i).quiet (by simpa using hunset) (.message k m)
      (by simp [heq])
    cases hcontra
  have hpopped : (s.modifyConnection i (·.pop e)).connections i = (s.connections i).pop e :=
    update_self ..
  have hshaped := (h.shaped i).pop_plain heq rfl
  rw [Link.onMessage, hpopped]
  split
  next hset =>
    have hset₀ : (s.connections i).hasSourceRank e = true := hset
    have hstate : ((s.modifyConnection i (·.pop e)).modifyConnection i
        (·.write e [.messageAck k])).modifyEnd e (·.receive k m) =
        s.put e ((s.ends e).receive k m) i (((s.connections i).pop e).write e [.messageAck k]) := by
      simp [State.put, State.modifyConnection, State.modifyEnd]
    show Inv (((s.modifyConnection i (·.pop e)).modifyConnection i
        (·.write e [.messageAck k])).modifyEnd e (·.receive k m))
    rw [hstate]
    obtain ⟨b, hb⟩ := h.direction e
    obtain ⟨b', hb'⟩ := h.incoming e
    refine h.put ?_ ⟨b, ?_⟩ ⟨b', ?_⟩
    · refine hshaped.write hset (by simp [Frame.isHandshake]) fun hunset => ?_
      exact absurd hset' (by simpa [pop] using hunset)
    · have hack := (hb.pop_front heq rfl).write_ack (i := i) (k := k)
        (by rw [update_self]; exact hshaped) (by rw [update_self]; exact hset)
      rw [update_self, update_idem] at hack
      exact hack.of_sides ((s.ends e).receive_outgoing k m) rfl
    · have hdel := hb'.receive hset' (by rwa [other_other]) heq htimely
      rwa [other_other] at hdel
  next hunset =>
    refine h.modifyConnection hshaped fun e' b hb => ?_
    obtain rfl | rfl := e.eq_or_other e'
    · exact hb.pop_front heq rfl
    · rw [other_other] at hb ⊢
      have hdis := hb.discard (by simpa [pop] using hunset) heq
      rwa [other_other] at hdis

/-- An acknowledgement is read, on a connection that its reader has registered. -/
theorem Inv.onMessageAck (hfew : FewUnacknowledged s)
    (heq : (s.connections i).written e.other = .messageAck k :: rest)
    (htimely : (s.ends e).sent.length ≤ k + 2 ^ 31) :
    ∃ s', onMessageAck (s.modifyConnection i (·.pop e)) e i k = some s' ∧ Inv s' := by
  have hset : (s.connections i).hasSourceRank e = true := by
    by_contra hunset
    have hnil := (h.shaped i).unacked (e := e) (by simpa using hunset)
    simp [heq] at hnil
  have hpopped : (s.modifyConnection i (·.pop e)).connections i = (s.connections i).pop e :=
    update_self ..
  refine ⟨_, by rw [Link.onMessageAck, hpopped]; exact if_pos hset, ?_⟩
  have hstate : (s.modifyConnection i (·.pop e)).modifyEnd e (·.acknowledge k) =
      s.put e ((s.ends e).acknowledge k) i ((s.connections i).pop e) := rfl
  rw [hstate]
  obtain ⟨b, hb⟩ := h.direction e
  obtain ⟨b', hb'⟩ := h.incoming e
  refine h.put ((h.shaped i).pop_plain heq rfl) ⟨b, ?_⟩ ⟨b', ?_⟩
  · exact hb.acknowledge hset heq (hfew e) htimely
  · have hback := hb'.take_back heq
    rw [other_other] at hback
    exact hback.of_sides rfl rfl

variable [DecidableEq R]

variable (heq : (s.connections i).written e.other = f :: rest) (hf : f.isHandshake)

include heq hf

/-- The first connection that comes is registered. -/
theorem Inv.register (htcp : (s.ends e).tcpconnections = []) (hreply : ((s.connections
      i).hasSourceRank e.other = true ∧ reply = []) ∨ ((s.connections i).hasSourceRank e.other =
      false ∧ ∃ ranks, reply = [.connectAck ranks]))
    (hlen : ((s.ends e).enqueueAll ((s.ends e).replayed ranks)).outgoingQueue.length < 2 ^ 31) :
    Inv (onConnect (s.modifyConnection i (·.pop e)) e i ranks reply) := by
  rw [onConnect_of_nil (s.modifyConnection i (·.pop e)) htcp]
  set S := s.ends e with hS
  set fs : List (Frame R M) := messages (numbered S.outgoingSeq (S.replayed ranks)) ++ reply ++
    messages (S.enqueueAll (S.replayed ranks)).outgoingQueue with hfs
  have hstate : (s.modifyConnection i (·.pop e)).put e (S.afterConnect i ranks) i
      ((((s.modifyConnection i (·.pop e)).connections i).setSourceRank e).write e fs) =
      s.put e (S.afterConnect i ranks) i
        ((((s.connections i).pop e).setSourceRank e).write e fs) := by
    simp [State.put, State.modifyConnection]
  show Inv ((s.modifyConnection i (·.pop e)).put e (S.afterConnect i ranks) i
    ((((s.modifyConnection i (·.pop e)).connections i).setSourceRank e).write e fs))
  rw [hstate]
  obtain ⟨honce, hconnect, hack, hhas⟩ := register_frames
    (numbered S.outgoingSeq (S.replayed ranks)) (S.enqueueAll (S.replayed ranks)).outgoingQueue
    (hreply.imp And.right And.right)
  have hiff : HasConnectAck fs ↔ (s.connections i).hasSourceRank e.other = false := by
    rw [hfs, hhas]
    rcases hreply with ⟨hset, rfl⟩ | ⟨hunset, ranks', rfl⟩
    · simp [hset]
    · simp [hunset]
  obtain ⟨b, hb⟩ := h.direction e
  obtain ⟨b', hb'⟩ := h.incoming e
  refine h.put ((h.shaped i).register heq hf honce hconnect hack hiff) ?_ ⟨b', ?_⟩
  · refine (hb.send_all_idle htcp (S.replayed ranks)).register h.shaped heq hf hreply ?_ ?_ hlen
      (S.afterConnect_outgoing htcp)
    · intro v hv
      rw [enqueueAll_eq]
      exact mem_append_right _ hv
    · intro hever
      rw [enqueueAll_eq] at hever
      have hpending : S.pendingBroadcasts = [] := (hb.bound hever).2
      rw [replayed, hpending]
      rfl
  · have hback := hb'.register_back (h.shaped i) heq hf hack
    rw [other_other] at hback
    exact hback.of_sides rfl (S.afterConnect_incoming i ranks)

theorem Inv.onConnect
    (hreply : ((s.connections i).hasSourceRank e.other = true ∧ reply = []) ∨ ((s.connections
      i).hasSourceRank e.other = false ∧ ∃ ranks, reply = [.connectAck ranks]))
    (hfew : FewUnacknowledged (onConnect (s.modifyConnection i (·.pop e)) e i ranks reply)) :
    Inv (onConnect (s.modifyConnection i (·.pop e)) e i ranks reply) := by
  by_cases htcp : (s.ends e).tcpconnections = []
  · refine h.register heq hf htcp hreply ?_
    have hlen := hfew e
    rw [onConnect_of_nil (s.modifyConnection i (·.pop e)) htcp] at hlen
    simpa [State.put, State.modifyConnection, EdgeInfo.afterConnect, EdgeInfo.enqueueAll_eq,
      EdgeInfo.register] using hlen
  · have htcp' : ((s.modifyConnection i (·.pop e)).ends e).tcpconnections ≠ [] := htcp
    rw [Link.onConnect, if_pos htcp']
    exact h.refuse heq hf

omit heq hf

/-- Every step keeps the invariant, and no `CHECK` fails in it. -/
theorem Inv.step (forwardRanks : Side → List R) (a : Action R M)
    (hfew : FewUnacknowledged s) (htimely : Timely s a) :
    ∃ s', step forwardRanks s a = some s' ∧ (FewUnacknowledged s' → Inv s') := by
  cases a with
  | send e m => exact ⟨_, rfl, fun _ => h.sendMessage e m⟩
  | postpone e r m => exact ⟨_, rfl, fun _ => h.postpone e r m⟩
  | connect e i => exact ⟨_, rfl, fun _ => h.connectEdge forwardRanks e i⟩
  | close e i => exact ⟨_, rfl, fun _ => h.close e i⟩
  | lose e i kept => exact ⟨_, rfl, fun _ => h.lose e i kept⟩
  | reap e => exact ⟨_, rfl, fun _ => h.reap e⟩
  | read e i =>
    show ∃ s', readFrame forwardRanks s e i = some s' ∧ _
    cases hw : (s.connections i).written e.other with
    | nil => exact ⟨s, by simp [readFrame, State.next?, hw], fun _ => h⟩
    | cons f rest =>
      have hnext : s.next? e i = some f := by simp [State.next?, hw]
      have hread : readFrame forwardRanks s e i =
          onreadtcp forwardRanks (s.modifyConnection i (·.pop e)) e i f := by
        rw [readFrame, hnext]
      rw [hread]
      simp only [Timely, hnext] at htimely
      cases f with
      | connect ranks =>
        have hin : Frame.connect ranks ∈ (s.connections i).written e.other := by simp [hw]
        have hunset := ((h.shaped i).connect hin).1
        exact ⟨_, rfl, h.onConnect hw rfl (.inr ⟨hunset, _, rfl⟩)⟩
      | connectAck ranks =>
        have hin : Frame.connectAck ranks ∈ (s.connections i).written e.other := by simp [hw]
        have hset := ((h.shaped i).connectAck hin).1
        exact ⟨_, rfl, h.onConnect hw rfl (.inl ⟨hset, rfl⟩)⟩
      | message k m => exact ⟨_, rfl, fun _ => h.onMessage hw htimely⟩
      | messageAck k =>
        obtain ⟨s', hs', hinv⟩ := h.onMessageAck hfew hw htimely
        exact ⟨s', hs', fun _ => hinv⟩

end Invariant

end Store.Link
