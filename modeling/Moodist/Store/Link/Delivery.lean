import Moodist.Foundation.Fifo
import Moodist.Store.Link.Steps

/-!
# Delivery on the link

The messages of an end are processed by the other end in the order in which they were sent, each
once, whatever happens to the connections.
-/

namespace Store.Link

open Foundation List Connection State EdgeInfo Execution Option

variable {R M : Type} {f : Frame R M} {k : ℕ}

/-! ## What a step does to a queue and to a connection -/

section StepEffects

variable {s s' : State R M} {e e' : Side} {i j : ℕ} {a : Action R M}

/-- The outgoing side of an end after a step: some messages are added, others acknowledged. -/
def Advances (pi pi' : EdgeInfo R M) : Prop :=
  pi.sent <+: pi'.sent ∧
    ∀ v ∈ pi'.outgoingQueue, v ∈ pi.outgoingQueue ∨ pi.outgoingSeq ≤ v.1

variable {pi : EdgeInfo R M} {c : Connection R M}

theorem Advances.of_outgoing {pi' : EdgeInfo R M} (h : pi'.outgoing = pi.outgoing) :
    Advances pi pi' := by
  simp only [outgoing, Prod.mk.injEq] at h
  obtain ⟨-, -, -, -, hqueue, hsent⟩ := h
  exact ⟨by rw [hsent], by rw [hqueue]; exact fun v hv => .inl hv⟩

theorem Advances.refl (pi : EdgeInfo R M) : Advances pi pi := Advances.of_outgoing rfl

theorem le_of_mem_numbered {seq : ℕ} {ms : List M} {v : ℕ × M} (hv : v ∈ numbered seq ms) :
    seq ≤ v.1 := by
  induction ms generalizing seq with
  | nil => simp [numbered] at hv
  | cons m ms ih =>
    rcases mem_cons.mp hv with rfl | hv
    · exact le_refl _
    · exact (Nat.le_succ seq).trans (ih hv)

theorem advances_enqueueAll (pi : EdgeInfo R M) (ms : List M) : Advances pi (pi.enqueueAll ms) := by
  rw [enqueueAll_eq]
  refine ⟨prefix_append .., fun v hv => ?_⟩
  exact (mem_append.mp hv).imp_right le_of_mem_numbered

theorem advances_modifyEnd {g : EdgeInfo R M → EdgeInfo R M}
    (h : Advances (s.ends e') (g (s.ends e'))) (e : Side) :
    Advances (s.ends e) ((s.modifyEnd e' g).ends e) := by
  by_cases heq : e = e'
  · subst heq
    simpa [modifyEnd] using h
  · simpa [modifyEnd, heq] using Advances.refl (s.ends e)

theorem advances_put (h : Advances (s.ends e') pi) (e : Side) :
    Advances (s.ends e) ((s.put e' pi i c).ends e) := by
  by_cases heq : e = e'
  · subst heq
    simpa [put] using h
  · simpa [put, heq] using Advances.refl (s.ends e)

def Extends (c c' : Connection R M) : Prop :=
  ∀ e, c.written e <+: c'.written e

theorem Extends.refl (c : Connection R M) : Extends c c := fun _ => prefix_refl _

theorem extends_write (c : Connection R M) (e : Side) (fs : List (Frame R M)) :
    Extends c (c.write e fs) := by
  intro e'
  by_cases halive : c.Alive
  · obtain rfl | rfl := e.eq_or_other e'
    · rw [write_written_self halive]
      exact prefix_append ..
    · rw [write_written_other]
  · rw [write_of_not_alive halive]

theorem extends_modifyConnection {g : Connection R M → Connection R M}
    (h : Extends (s.connections j) (g (s.connections j))) (i : ℕ) :
    Extends (s.connections i) ((s.modifyConnection j g).connections i) := by
  by_cases hij : i = j
  · subst hij
    simpa [modifyConnection] using h
  · simpa [modifyConnection, hij] using Extends.refl (s.connections i)

theorem extends_put (h : Extends (s.connections j) c) (i : ℕ) :
    Extends (s.connections i) ((s.put e' pi j c).connections i) := by
  by_cases hij : i = j
  · subst hij
    simpa [put] using h
  · simpa [put, hij] using Extends.refl (s.connections i)

variable [DecidableEq R] {forwardRanks : Side → List R}

theorem advances_onreadtcp (hstep : onreadtcp forwardRanks s e' i f = some s') (e : Side) :
    Advances (s.ends e) (s'.ends e) := by
  -- only an end without a registered connection replays its broadcasts
  have hconnect : ∀ ranks reply, Advances (s.ends e) ((onConnect s e' i ranks reply).ends e) := by
    intro ranks reply
    by_cases htcp : (s.ends e').tcpconnections = []
    · rw [onConnect_of_nil s htcp]
      refine advances_put ?_ e
      have hadv := advances_enqueueAll (s.ends e') ((s.ends e').replayed ranks)
      rw [afterConnect, enqueueAll_eq]
      rw [enqueueAll_eq] at hadv
      exact hadv
    · rw [onConnect, if_pos htcp]
      exact Advances.refl _
  cases f with
  | connect ranks | connectAck ranks =>
    cases hstep
    exact hconnect ranks _
  | message k m =>
    cases hstep
    rw [onMessage]
    split
    · exact advances_modifyEnd (s := s.modifyConnection i _)
        (Advances.of_outgoing ((s.ends e').receive_outgoing k m)) e
    · exact Advances.refl _
  | messageAck k =>
    have hack : onMessageAck s e' i k = some s' := hstep
    rw [onMessageAck] at hack
    split at hack
    · cases hack
      exact advances_modifyEnd ⟨prefix_refl _, fun v hv => .inl (mem_of_mem_eraseP hv)⟩ e
    · cases hack

/-- Every step only adds messages and takes acknowledged ones out of the queue. -/
theorem advances_step (hstep : step forwardRanks s a = some s') (e : Side) :
    Advances (s.ends e) (s'.ends e) := by
  cases a with
  | send e' m =>
    cases hstep
    have hadv : Advances (s.ends e') ((s.ends e').enqueue m) := advances_enqueueAll (s.ends e') [m]
    cases htcp : (s.ends e').tcpconnections with
    | nil =>
      rw [sendMessage, htcp]
      exact advances_modifyEnd hadv e
    | cons i l =>
      rw [sendMessage_put htcp]
      exact advances_put hadv e
  | postpone e' r m =>
    cases hstep
    refine advances_modifyEnd ?_ e
    rw [postpone]
    split
    · exact Advances.refl _
    · exact ⟨prefix_refl _, fun v hv => .inl hv⟩
  | connect e' i =>
    cases hstep
    rw [connectEdge]
    split <;> exact Advances.refl _
  | close e' i | lose e' i kept =>
    cases hstep
    exact Advances.refl _
  | reap e' =>
    cases hstep
    exact advances_modifyEnd ⟨prefix_refl _, fun v hv => .inl hv⟩ e
  | read e' i =>
    have hread : readFrame forwardRanks s e' i = some s' := hstep
    rw [readFrame] at hread
    split at hread
    · cases hread
      exact Advances.refl _
    · exact advances_onreadtcp hread e

theorem extends_onreadtcp (hstep : onreadtcp forwardRanks s e' j f = some s') (i : ℕ) :
    Extends (s.connections i) (s'.connections i) := by
  have hconnect : ∀ ranks reply,
      Extends (s.connections i) ((onConnect s e' j ranks reply).connections i) := by
    intro ranks reply
    by_cases htcp : (s.ends e').tcpconnections = []
    · rw [onConnect_of_nil s htcp]
      exact extends_put (extends_write ((s.connections j).setSourceRank e') e' _) i
    · rw [onConnect, if_pos htcp]
      exact extends_modifyConnection (Extends.refl _) i
  cases f with
  | connect ranks | connectAck ranks =>
    cases hstep
    exact hconnect ranks _
  | message k m =>
    cases hstep
    rw [onMessage]
    split
    · exact extends_modifyConnection (extends_write _ e' _) i
    · exact Extends.refl _
  | messageAck k =>
    have hack : onMessageAck s e' j k = some s' := hstep
    rw [onMessageAck] at hack
    split at hack
    · cases hack
      exact Extends.refl _
    · cases hack

theorem extends_step (hstep : step forwardRanks s a = some s')
    (halive : (s.connections i).Alive) (hopen : (s.connections i).opener ≠ none)
    (hread : ∀ e, a ≠ .read e i) : Extends (s.connections i) (s'.connections i) := by
  cases a with
  | send e' m =>
    cases hstep
    cases htcp : (s.ends e').tcpconnections with
    | nil =>
      rw [sendMessage, htcp]
      exact Extends.refl _
    | cons j l =>
      rw [sendMessage_put htcp]
      exact extends_put (extends_write _ e' _) i
  | postpone e' r m | reap e' =>
    cases hstep
    exact Extends.refl _
  | connect e' j =>
    cases hstep
    rw [connectEdge]
    split
    · exact Extends.refl _
    next hfree =>
      have hij : i ≠ j := by
        rintro rfl
        exact hfree (.inr hopen)
      simpa [modifyConnection, hij] using Extends.refl (s.connections i)
  | close e' j =>
    cases hstep
    exact extends_modifyConnection (Extends.refl _) i
  | lose e' j kept =>
    cases hstep
    by_cases hij : i = j
    · subst hij
      -- only a connection that is no longer alive loses frames
      have hsame : (s.connections i).lose e' kept = s.connections i := by
        rw [lose, if_neg (by simp [halive e'])]
      simpa [modifyConnection, hsame] using Extends.refl (s.connections i)
    · simpa [modifyConnection, hij] using Extends.refl (s.connections i)
  | read e' j =>
    have hij : i ≠ j := by
      rintro rfl
      exact hread e' rfl
    have hframe : readFrame forwardRanks s e' j = some s' := hstep
    rw [readFrame] at hframe
    split at hframe
    · cases hframe
      exact Extends.refl _
    · have hext := extends_onreadtcp hframe i
      simpa [modifyConnection, hij] using hext

theorem step_message {m : M} (hnext : s.next? e i = some (.message k m))
    (hset : (s.connections i).hasSourceRank e = true) :
    step forwardRanks s (.read e i) = some (s.put e ((s.ends e).receive k m) i
      (((s.connections i).pop e).write e [.messageAck k])) := by
  show readFrame forwardRanks s e i = _
  rw [readFrame, hnext]
  show some (onMessage _ e i k m) = _
  rw [onMessage, if_pos (by simpa [modifyConnection, pop] using hset)]
  simp [modifyEnd, modifyConnection, put]

theorem step_messageAck (hnext : s.next? e i = some (.messageAck k))
    (hset : (s.connections i).hasSourceRank e = true) :
    step forwardRanks s (.read e i) = some (s.put e ((s.ends e).acknowledge k) i
      ((s.connections i).pop e)) := by
  show readFrame forwardRanks s e i = _
  rw [readFrame, hnext]
  show onMessageAck _ e i k = _
  rw [onMessageAck, if_pos (by simpa [modifyConnection, pop] using hset)]
  simp [modifyEnd, modifyConnection, put]

/-- A step that reads from a connection takes the first frame and adds to what is on the way. -/
theorem extends_read (hstep : step forwardRanks s (.read e' i) = some s') :
    Extends ((s.connections i).pop e') (s'.connections i) := by
  have hframe : readFrame forwardRanks s e' i = some s' := hstep
  rw [readFrame] at hframe
  split at hframe
  next hnone =>
    cases hframe
    have hnil : (s.connections i).written e'.other = [] := by
      simpa [State.next?] using hnone
    intro e
    obtain rfl | rfl := e'.eq_or_other e
    · rw [pop_written_self]
    · rw [pop_written_other, hnil]
      exact nil_prefix
  next f _ =>
    have hext := extends_onreadtcp hframe i
    simpa [modifyConnection] using hext

end StepEffects

/-! ## Runs -/

def Registered (s : State R M) (i : ℕ) : Prop :=
  (s.connections i).Alive ∧ ∀ e, i ∈ (s.ends e).tcpconnections

section Runs

variable [DecidableEq R] {forwardRanks : Side → List R} (ex : Execution forwardRanks M)

/-- The assumptions on a run: few messages are unacknowledged, and no frame is read late. -/
structure Execution.Bounded : Prop where
  few : ∀ t, FewUnacknowledged (ex.state t)
  timely : ∀ t, Timely (ex.state t) (ex.action t)

variable {ex} (hb : ex.Bounded)
include hb

theorem Execution.inv (t : ℕ) : Inv (ex.state t) := by
  induction t with
  | zero =>
    rw [ex.start]
    exact inv_default
  | succ t ih =>
    obtain ⟨s', hs', hinv⟩ := ih.step forwardRanks (ex.action t) (hb.few t) (hb.timely t)
    obtain rfl := some.inj (hs'.symm.trans (ex.next t))
    exact hinv (hb.few _)

omit hb in
theorem Execution.sent_prefix (e : Side) {t t' : ℕ} (hle : t ≤ t') :
    ((ex.state t).ends e).sent <+: ((ex.state t').ends e).sent := by
  induction t', hle using Nat.le_induction with
  | base => exact prefix_refl _
  | succ t' hle ih => exact ih.trans (advances_step (ex.next t') e).1

/-- A message that has left the queue does not come back. -/
theorem Execution.queued_of_le (e : Side) {t t' q : ℕ} (hle : t ≤ t')
    (hq : q ∈ ((ex.state t').ends e).queued) (hlt : q < ((ex.state t).ends e).sent.length) :
    q ∈ ((ex.state t).ends e).queued := by
  induction t', hle using Nat.le_induction with
  | base => exact hq
  | succ t' hle ih =>
    refine ih ?_
    obtain ⟨v, hv, rfl⟩ := mem_map.mp hq
    rcases (advances_step (ex.next t') e).2 v hv with hold | hnew
    · exact mem_map_of_mem hold
    · obtain ⟨b, hdir⟩ := (inv hb t').direction e
      have hpre : ((ex.state t).ends e).sent <+: ((ex.state t').ends e).sent := sent_prefix e hle
      have hlen := hpre.length_le
      have hseq := hdir.seq
      omega

/-- What is on the way from an end over a connection in use, along a run. -/
theorem Execution.fifoHistory {i T : ℕ} (hreg : ∀ t ≥ T, Registered (ex.state t) i) (e : Side) :
    FifoHistory (fun t => ((ex.state (T + t)).connections i).written e)
      (fun t => ex.action (T + t) = .read e.other i) := by
  have hopen : ∀ t, ((ex.state (T + t)).connections i).opener ≠ none := by
    intro t hnone
    obtain ⟨b, hdir⟩ := (inv hb (T + t)).direction e
    have hset := hdir.registered i ((hreg (T + t) (by omega)).2 e)
    have hunset := (((inv hb (T + t)).shaped i).unopened hnone e).2
    simp [hset] at hunset
  -- a read at the other end takes the first frame; all else appends
  constructor
  · intro t hpop
    have hnext := ex.next (T + t)
    rw [hpop] at hnext
    obtain ⟨extra, hextra⟩ := extends_read hnext e
    have hpop' := pop_written_other (c := (ex.state (T + t)).connections i) (e := e.other)
    rw [Side.other_other] at hpop'
    exact ⟨extra, by rw [← hpop', hextra]; rfl⟩
  · intro t hkeep
    by_cases hother : ex.action (T + t) = .read e i
    · have hnext := ex.next (T + t)
      rw [hother] at hnext
      obtain ⟨extra, hextra⟩ := extends_read hnext e
      rw [pop_written_self] at hextra
      exact ⟨extra, hextra.symm⟩
    · have hread : ∀ e', ex.action (T + t) ≠ .read e' i := by
        intro e' heq
        obtain rfl | rfl := e.eq_or_other e'
        · exact hother heq
        · exact hkeep heq
      obtain ⟨extra, hextra⟩ := extends_step (ex.next (T + t)) (hreg (T + t) (by omega)).1
        (hopen t) hread e
      exact ⟨extra, hextra.symm⟩

section Progress

variable {i T : ℕ} (hreg : ∀ t ≥ T, Registered (ex.state t) i)
  (hfair : ∀ t ≥ T, ∀ e, (ex.state t).next? e i ≠ none → ∃ t' ≥ t, ex.action t' = .read e i)
include hreg hfair

variable {t q : ℕ}

theorem Execution.eventually_read (e : Side) (hT : T ≤ t)
    (hf : f ∈ ((ex.state t).connections i).written e) :
    ∃ t' ≥ t, ex.action t' = .read e.other i ∧ (ex.state t').next? e.other i = some f := by
  obtain ⟨n, hn⟩ := mem_iff_getElem?.mp hf
  have hfair' : ∀ k, ((ex.state (T + k)).connections i).written e ≠ [] →
      ∃ k' ≥ k, ex.action (T + k') = .read e.other i := by
    intro k hne
    obtain ⟨t', hle, hact⟩ := hfair (T + k) (by omega) e.other (by simpa [State.next?] using hne)
    exact ⟨t' - T, by omega, by rw [Nat.add_sub_cancel' (by omega)]; exact hact⟩
  obtain ⟨k, hk, hact, hhead⟩ := (fifoHistory hb hreg e).eventually_head hfair'
    (t := t - T) (i := n) (x := f) (by rw [Nat.add_sub_cancel' hT]; exact hn)
  refine ⟨T + k, by omega, hact, ?_⟩
  rw [State.next?, Side.other_other]
  exact hhead

/-- An acknowledgement on the way takes its message out of the queue. -/
theorem Execution.eventually_acknowledged (e : Side) (hT : T ≤ t)
    (hq : q ∈ ((ex.state t).connections i).acks e) :
    ∃ t' ≥ t, q ∉ ((ex.state t').ends e).queued := by
  obtain ⟨t', hle, hact, hnext⟩ := eventually_read hb hreg hfair e.other hT (mem_ackSeqs.mp hq)
  rw [Side.other_other] at hact hnext
  refine ⟨t' + 1, by omega, ?_⟩
  have hstep := ex.next t'
  have htimely := hb.timely t'
  rw [hact] at hstep htimely
  simp only [Timely, hnext] at htimely
  have hinv := inv hb t'
  obtain ⟨rest, hrest⟩ : ∃ rest, ((ex.state t').connections i).written e.other =
      .messageAck q :: rest := List.head?_eq_some_iff.mp hnext
  obtain ⟨b, hdir⟩ := hinv.direction e
  have hset := hdir.registered i ((hreg t' (by omega)).2 e)
  have hhandled := (hdir.lanes i).handled_of_mem q (by simp [acks, hrest])
  have hqueued := hdir.queued_acknowledge (hb.few t' e) (hdir.received.lt_of_handled hhandled)
    htimely
  have hstate : ((ex.state (t' + 1)).ends e).queued =
      (((ex.state t').ends e).acknowledge q).queued := by
    rw [step_messageAck hnext hset] at hstep
    rw [← some.inj hstep]
    simp [put]
  rw [hstate, hqueued]
  have hnodup : ((ex.state t').ends e).queued.Nodup := hdir.sorted.imp fun hlt => hlt.ne
  exact hnodup.not_mem_erase

/-- A message on the way is acknowledged. -/
theorem Execution.eventually_ack_written (e : Side) {m : M} (hT : T ≤ t)
    (hq : .message q m ∈ ((ex.state t).connections i).written e) :
    ∃ t' ≥ t, q ∈ ((ex.state t').connections i).acks e := by
  obtain ⟨t', hle, hact, hnext⟩ := eventually_read hb hreg hfair e hT hq
  refine ⟨t' + 1, by omega, ?_⟩
  have hstep := ex.next t'
  rw [hact] at hstep
  obtain ⟨b, hdir⟩ := (inv hb t').direction e.other
  have hset := hdir.registered i ((hreg t' (by omega)).2 e.other)
  have halive : (((ex.state t').connections i).pop e.other).Alive := (hreg t' (by omega)).1
  rw [step_message hnext hset] at hstep
  rw [← some.inj hstep, acks, mem_ackSeqs]
  simp [put, write_written_self halive]

/-- Every message of the queue leaves it for good. -/
theorem Execution.eventually_not_queued (e : Side) (hT : T ≤ t)
    (hlt : q < ((ex.state t).ends e).sent.length) :
    ∃ T', t ≤ T' ∧ ∀ t' ≥ T', q ∉ ((ex.state t').ends e).queued := by
  obtain ⟨t', hle, hnot⟩ : ∃ t' ≥ t, q ∉ ((ex.state t').ends e).queued := by
    by_cases hq : q ∈ ((ex.state t).ends e).queued
    swap
    · exact ⟨t, le_refl t, hq⟩
    obtain ⟨b, hdir⟩ := (inv hb t).direction e
    obtain ⟨b', hdir'⟩ := (inv hb t).direction e.other
    have htrack := hdir.tracked i ((hreg t hT).2 e) (hreg t hT).1 q hq
    rw [track, live_of_set (hdir'.registered i ((hreg t hT).2 e.other)), mem_append] at htrack
    rcases htrack with hack | hmsg
    · exact eventually_acknowledged hb hreg hfair e hT hack
    · obtain ⟨m, hm⟩ := mem_seqs.mp hmsg
      obtain ⟨t₁, hle₁, hack⟩ := eventually_ack_written hb hreg hfair e hT hm
      obtain ⟨t₂, hle₂, hnot⟩ := eventually_acknowledged hb hreg hfair e (hT.trans hle₁) hack
      exact ⟨t₂, hle₁.trans hle₂, hnot⟩
  refine ⟨t', hle, fun t'' hle' hq => hnot ?_⟩
  have hpre : ((ex.state t).ends e).sent <+: ((ex.state t').ends e).sent := sent_prefix e hle
  exact queued_of_le hb e hle' hq (hlt.trans_le hpre.length_le)

/-- After some time, nothing of what had been sent is in the queue. -/
theorem Execution.eventually_clear (e : Side) (hT : T ≤ t) :
    ∃ T', t ≤ T' ∧ ∀ t' ≥ T', ∀ q < ((ex.state t).ends e).sent.length,
      q ∉ ((ex.state t').ends e).queued := by
  have hbelow : ∀ n ≤ ((ex.state t).ends e).sent.length, ∃ T', t ≤ T' ∧ ∀ t' ≥ T', ∀ q < n,
      q ∉ ((ex.state t').ends e).queued := by
    intro n
    induction n with
    | zero => exact fun _ => ⟨t, le_refl t, fun _ _ q hq => absurd hq (Nat.not_lt_zero q)⟩
    | succ n ih =>
      intro hn
      obtain ⟨T₁, hle₁, h₁⟩ := ih (by omega)
      obtain ⟨T₂, hle₂, h₂⟩ := eventually_not_queued hb hreg hfair e (q := n) hT (by omega)
      refine ⟨max T₁ T₂, by omega, fun t' ht' q hq => ?_⟩
      by_cases heq : q = n
      · exact heq ▸ h₂ t' (by omega)
      · exact h₁ t' (by omega) q (by omega)
  exact hbelow _ (le_refl _)

end Progress

end Runs

/-! ## A run over two connections -/

section TwoConnections

def noRanks : Side → List Empty := fun _ => []

/-- A step whose action is one of `Q` in its state, and after which few messages are
unacknowledged. -/
def FewStep (Q : State Empty Unit → Action Empty Unit → Prop) (s s' : State Empty Unit) : Prop :=
  (∃ a, Q s a ∧ step noRanks s a = some s') ∧ FewUnacknowledged s'

/-- The right end opens two connections. The left end registers the first, writes the message
`0` on it, and loses it; it registers the second, and the right end does too. -/
def lateStart : List (Action Empty Unit) :=
  [.connect .right 0, .connect .right 1, .send .left (), .read .left 0, .close .left 0,
    .reap .left, .read .left 1, .read .right 1, .read .right 1, .read .left 1]

/-- `n` messages have gone over the second connection, and the message `0` is still on its way
on the first. -/
structure Late (n : ℕ) (s : State Empty Unit) : Prop where
  outgoingSeq : (s.ends .left).outgoingSeq = n
  outgoingQueue : (s.ends .left).outgoingQueue = []
  leftRegistered : (s.ends .left).tcpconnections = [1]
  sent : (s.ends .left).sent.length = n
  incomingSeq : (s.ends .right).incomingSeq = n
  incomingQueue : (s.ends .right).incomingQueue = []
  rightRegistered : (s.ends .right).tcpconnections = [1]
  idle : (s.ends .right).outgoingQueue = []
  pending : (s.ends .right).pendingBroadcasts = []
  processed : (s.ends .right).processed.length = n
  alive : (s.connections 1).Alive
  set : ∀ e, (s.connections 1).hasSourceRank e = true
  empty : ∀ e, (s.connections 1).written e = []
  unset : (s.connections 0).hasSourceRank .right = false
  onTheWay : (s.connections 0).written .left = [.connectAck [], .message 0 ()]

variable {s s' : State Empty Unit} {Q : State Empty Unit → Action Empty Unit → Prop}

theorem FewStep.of (a : Action Empty Unit) (ha : Q s a) (hstep : step noRanks s a = some s')
    (hleft : (s'.ends .left).outgoingQueue.length ≤ 1)
    (hright : (s'.ends .right).outgoingQueue.length ≤ 1) : FewStep Q s s' := by
  refine ⟨⟨a, ha, hstep⟩, fun e => ?_⟩
  cases e <;> omega

/-- The steps of `acts`, each checked to leave at most one message unacknowledged and at most
one sent. -/
def lateRun (s : State Empty Unit) (acts : List (Action Empty Unit)) :
    Option (State Empty Unit) :=
  acts.foldlM
    (fun s a => (step noRanks s a).filter fun s' =>
      decide ((s'.ends .left).outgoingQueue.length ≤ 1) &&
        decide ((s'.ends .right).outgoingQueue.length ≤ 1) &&
        decide ((s'.ends .left).sent.length ≤ 1) && decide ((s'.ends .right).sent.length ≤ 1)) s

variable (hleft : (s.ends .left).sent.length ≤ 1) (hright : (s.ends .right).sent.length ≤ 1)

include hleft hright

theorem timely_of_sent (a : Action Empty Unit) : Timely s a := by
  have hsent : ∀ e k, (s.ends e).sent.length ≤ k + 2 ^ 31 := by
    intro e k
    cases e <;> omega
  cases a with
  | read e i =>
    rw [Timely]
    split
    · exact hsent _ _
    · exact hsent _ _
    · trivial
  | _ => trivial

theorem path_of_lateRun {acts : List (Action Empty Unit)}
    (h : lateRun s acts = some s') : Relation.ReflTransGen (FewStep Timely) s s' := by
  induction acts generalizing s with
  | nil =>
    cases h
    exact .refl
  | cons a acts ih =>
    rw [lateRun, foldlM_cons, bind_eq_bind, bind_eq_some_iff] at h
    obtain ⟨s₁, hs₁, hrest⟩ := h
    simp only [filter_eq_some_iff, Bool.and_eq_true, decide_eq_true_eq] at hs₁
    obtain ⟨hstep, ⟨⟨hqueue, hqueue'⟩, hsent⟩, hsent'⟩ := hs₁
    exact .head (FewStep.of a (timely_of_sent hleft hright a) hstep hqueue hqueue')
      (ih hsent hsent' hrest)

omit hleft hright

theorem exists_late_one : ∃ s, Relation.ReflTransGen (FewStep Timely) {} s ∧ Late 1 s := by
  have hsome : (lateRun {} lateStart).isSome = true := by decide +kernel
  have hs : lateRun {} lateStart = some ((lateRun {} lateStart).getD {}) := by
    cases h : lateRun {} lateStart with
    | none => simp [h] at hsome
    | some s => rfl
  refine ⟨_, path_of_lateRun (by simp) (by simp) hs, ?_⟩
  constructor
  case set | empty =>
    intro e
    cases e <;> decide +kernel
  all_goals decide +kernel

/-- A path of such steps is the beginning of a run that rests at its end, if it can. -/
theorem exists_execution_of_path
    (h : Relation.ReflTransGen (FewStep Q) {} s) (hrest : (s.ends .right).tcpconnections ≠ [])
    (hQ : Q s (.connect .right 0)) :
    ∃ ex : Execution noRanks Unit, (∀ t, FewUnacknowledged (ex.state t)) ∧
      (∀ t, Q (ex.state t) (ex.action t)) ∧ ∃ T, ∀ t ≥ T, ex.state t = s := by
  have hempty : FewUnacknowledged ({} : State Empty Unit) := fun _ => by norm_num
  have hfew : FewUnacknowledged s := by
    rcases Relation.ReflTransGen.cases_tail h with rfl | ⟨s₁, -, hlast⟩
    · exact hempty
    · exact hlast.2
  have hidle : FewStep Q s s := by
    refine ⟨⟨.connect .right 0, hQ, ?_⟩, hfew⟩
    show some (connectEdge noRanks s .right 0) = some s
    rw [connectEdge, if_pos (.inl hrest)]
  -- from the end of the path, where the run stays
  have hrun : ∀ s₀, Relation.ReflTransGen (FewStep Q) s₀ s → ∃ f : ℕ → State Empty Unit,
      f 0 = s₀ ∧ (∃ T, ∀ t ≥ T, f t = s) ∧ ∀ t, FewStep Q (f t) (f (t + 1)) := by
    intro s₀ hpath
    induction hpath using Relation.ReflTransGen.head_induction_on with
    | refl => exact ⟨fun _ => s, rfl, ⟨0, fun _ _ => rfl⟩, fun _ => hidle⟩
    | @head s₀ s₁ hstep _ ih =>
      obtain ⟨f, hstart, ⟨T, hT⟩, hsteps⟩ := ih
      refine ⟨fun t => Nat.casesOn t s₀ f, rfl, ⟨T + 1, fun t ht => ?_⟩, fun t => ?_⟩
      · obtain ⟨t, rfl⟩ := Nat.exists_eq_add_of_le' (Nat.one_le_of_lt ht)
        exact hT t (Nat.le_of_succ_le_succ ht)
      · cases t with
        | zero =>
          show FewStep Q s₀ (f 0)
          rwa [hstart]
        | succ t => exact hsteps t
  obtain ⟨f, hstart, hend, hsteps⟩ := hrun _ h
  choose act hact using fun t => (hsteps t).1
  refine ⟨⟨f, act, hstart, fun t => (hact t).2⟩, fun t => ?_, fun t => (hact t).1, hend⟩
  cases t with
  | zero =>
    show FewUnacknowledged (f 0)
    rw [hstart]
    exact hempty
  | succ t => exact (hsteps t).2

end TwoConnections

/-! ## Main theorem -/

/-- The link between two neighbours, along every run in which fewer than `2 ^ 31` messages are
unacknowledged and no frame is read after `2 ^ 31` further messages have been sent. At any
time the other end has processed the first of the messages that were sent, in their order.
No `CHECK` of the link fails. If one connection stays registered at both ends and all on it
is read, what has been sent at any time `t` has been processed after some time, and is no
longer in the queue: the queue is empty if nothing else has been sent. -/
theorem edge_exactly_once {R M : Type} [DecidableEq R] (forwardRanks : Side → List R)
    (ex : Execution forwardRanks M) (hfew : ∀ t, FewUnacknowledged (ex.state t))
    (htimely : ∀ t, Timely (ex.state t) (ex.action t)) :
    (∀ t e, ((ex.state t).ends e.other).processed <+: ((ex.state t).ends e).sent) ∧
      (∀ t a, Timely (ex.state t) a → step forwardRanks (ex.state t) a ≠ none) ∧
      ∀ i T, (∀ t ≥ T, Registered (ex.state t) i) →
        (∀ t ≥ T, ∀ e, (ex.state t).next? e i ≠ none → ∃ t' ≥ t, ex.action t' = .read e i) →
        ∀ t e, ∃ T', ∀ t' ≥ T',
          ((ex.state t).ends e).sent <+: ((ex.state t').ends e.other).processed ∧
          (((ex.state t').ends e).sent = ((ex.state t).ends e).sent →
            ((ex.state t').ends e).outgoingQueue = []) := by
  have hb : ex.Bounded := ⟨hfew, htimely⟩
  refine ⟨fun t e => ?_, fun t a ha => ?_, fun i T hreg hfair t e => ?_⟩
  · obtain ⟨b, hdir⟩ := (inv hb t).direction e
    rw [hdir.received.processed]
    exact take_prefix ..
  · obtain ⟨s', hs', -⟩ := (inv hb t).step forwardRanks a (hfew t) ha
    simp [hs']
  · obtain ⟨T', hle, hclear⟩ := eventually_clear hb hreg hfair e (le_max_right t T)
    refine ⟨T', fun t' ht' => ?_⟩
    obtain ⟨b, hdir⟩ := (inv hb t').direction e
    have hold : ((ex.state t).ends e).sent <+: ((ex.state (max t T)).ends e).sent :=
      sent_prefix e (le_max_left t T)
    have hlater : ((ex.state (max t T)).ends e).sent <+: ((ex.state t').ends e).sent :=
      sent_prefix e (by omega)
    constructor
    · -- the next message to process would still be in the queue
      have hnext : ((ex.state (max t T)).ends e).sent.length ≤
          ((ex.state t').ends e.other).incomingSeq := by
        by_contra! hlt
        have hkept := hdir.kept _ (hlt.trans_le hlater.length_le)
        exact hclear t' ht' _ hlt (hkept.resolve_right hdir.received.not_handled)
      rw [hdir.received.processed]
      exact prefix_take_iff.mpr ⟨hold.trans hlater, hold.length_le.trans hnext⟩
    · intro hsame
      refine eq_nil_iff_forall_not_mem.mpr fun v hv => ?_
      have hmem : v.1 ∈ ((ex.state t').ends e).queued := mem_map_of_mem hv
      have hlt := hdir.lt_of_queued hmem
      rw [hsame] at hlt
      exact hclear t' ht' _ (hlt.trans_le hold.length_le) hmem

/-- A message written on a connection that its sender then loses is processed once, over the
second connection. -/
theorem edge_exactly_once_resent :
    ∃ ex : Execution noRanks Unit, ∃ T, ((ex.state T).ends .left).sent.length = 1 ∧
      (∀ t e, ((ex.state t).ends e.other).processed <+: ((ex.state t).ends e).sent) ∧
      ∃ T', ∀ t ≥ T', ((ex.state T).ends .left).sent <+:
        ((ex.state t).ends Side.left.other).processed := by
  obtain ⟨s, hpath, hs⟩ := exists_late_one
  have hrest : (s.ends .right).tcpconnections ≠ [] := by simp [hs.rightRegistered]
  obtain ⟨ex, hfew, htimely, T, hT⟩ := exists_execution_of_path hpath hrest trivial
  obtain ⟨hpre, -, hlive⟩ := edge_exactly_once noRanks ex hfew htimely
  have hsent : ((ex.state T).ends .left).sent.length = 1 := by rw [hT T le_rfl, hs.sent]
  have hregistered : ∀ t ≥ T, Registered (ex.state t) 1 := by
    intro t ht
    rw [hT t ht]
    refine ⟨hs.alive, fun e => ?_⟩
    cases e
    · simp [hs.leftRegistered]
    · simp [hs.rightRegistered]
  have hread : ∀ t ≥ T, ∀ e, (ex.state t).next? e 1 ≠ none →
      ∃ t' ≥ t, ex.action t' = .read e 1 := by
    intro t ht e hnext
    rw [hT t ht] at hnext
    exact absurd (by simp [State.next?, hs.empty]) hnext
  obtain ⟨T', hT'⟩ := hlive 1 T hregistered hread T .left
  exact ⟨ex, T, hsent, hpre, T', fun t ht => (hT' t ht).1⟩

/-! ## A late frame -/

section Late

def AnyStep : State Empty Unit → State Empty Unit → Prop :=
  FewStep fun _ _ => True

theorem receive_of_seqDiff {pi : EdgeInfo Empty Unit}
    (hdiff : seqDiff k pi.incomingSeq = 0) (hqueue : pi.incomingQueue = []) :
    pi.receive k () = pi.process () := by
  rw [receive, if_pos hdiff.ge, if_pos hdiff]
  simp only [process, hqueue, mergeSort_nil, drain]

variable {s : State Empty Unit}

/-- One more message goes over the second connection. -/
theorem Late.round {n : ℕ} (h : Late n s) :
    ∃ s', Relation.ReflTransGen AnyStep s s' ∧ Late (n + 1) s' := by
  set c := (s.connections 1).write .left [.message n ()] with hc
  have hwritten : c.written .left = [.message n ()] := by
    rw [hc, write_written_self h.alive, h.empty, nil_append]
  have hback : c.written .right = [] := by
    rw [hc]
    exact (write_written_other (e := .left) _).trans (h.empty .right)
  have halive : (c.pop .right).Alive := write_alive_iff.mpr h.alive
  have hset : ∀ e, c.hasSourceRank e = true := by simpa [hc] using h.set
  set c₂ := (c.pop .right).write .right [.messageAck n] with hc₂
  have hempty : c₂.written .left = [] := by
    refine (write_written_other (c := c.pop .right) (e := .right) _).trans ?_
    exact (pop_written_other (e := .right)).trans (by simp [hwritten, Side.other])
  have hack : c₂.written .right = [.messageAck n] := by
    rw [hc₂, write_written_self halive, pop_written_self, hback, nil_append]
  set s₁ := s.put .left ((s.ends .left).enqueue ()) 1 c with hs₁
  set s₂ := s₁.put .right ((s.ends .right).process ()) 1 c₂ with hs₂
  set s₃ := s₂.put .left (((s.ends .left).enqueue ()).acknowledge n) 1 (c₂.pop .left) with hs₃
  have hqueue : ((s.ends .left).enqueue ()).outgoingQueue = [(n, ())] := by
    simp [enqueue, h.outgoingQueue, h.outgoingSeq]
  have hdone : (((s.ends .left).enqueue ()).acknowledge n).outgoingQueue = [] := by
    have hzero : seqDiff n n = 0 := by simp [seqDiff]
    simp [acknowledge, hqueue, hzero]
  -- the message is sent, read at the other end and acknowledged
  have hfirst : step noRanks s (.send .left ()) = some s₁ := by
    show some (sendMessage s .left ()) = _
    rw [sendMessage_put h.leftRegistered, h.outgoingSeq]
  have hsecond : step noRanks s₁ (.read .right 1) = some s₂ := by
    have hnext : s₁.next? .right 1 = some (.message n ()) := by
      simp [hs₁, State.next?, State.put, Side.other, hwritten]
    have hreceive : (s.ends .right).receive n () = (s.ends .right).process () :=
      receive_of_seqDiff (by simp [h.incomingSeq, seqDiff]) h.incomingQueue
    rw [step_message hnext (by simpa [hs₁, State.put] using hset .right)]
    simp [hs₁, hs₂, State.put, hreceive, hc₂]
  have hthird : step noRanks s₂ (.read .left 1) = some s₃ := by
    have hnext : s₂.next? .left 1 = some (.messageAck n) := by
      simp [hs₂, State.next?, State.put, Side.other, hack]
    rw [step_messageAck hnext (by simpa [hs₂, State.put, pop, hc₂] using hset .left)]
    simp [hs₁, hs₂, hs₃, State.put]
  have hright : ((s.ends .right).process ()).outgoingQueue = [] := h.idle
  have hfew₁ : AnyStep s s₁ :=
    FewStep.of _ trivial hfirst (by simp [hs₁, State.put, hqueue])
      (by simp [hs₁, State.put, h.idle])
  have hfew₂ : AnyStep s₁ s₂ :=
    FewStep.of _ trivial hsecond (by simp [hs₁, hs₂, State.put, hqueue])
      (by simp [hs₂, State.put, hright])
  have hfew₃ : AnyStep s₂ s₃ :=
    FewStep.of _ trivial hthird (by simp [hs₃, State.put, hdone])
      (by simp [hs₂, hs₃, State.put, hright])
  refine ⟨s₃, ?_, ?_⟩
  · exact ((Relation.ReflTransGen.single hfew₁).tail hfew₂).tail hfew₃
  · have hleft : s₃.ends .left = ((s.ends .left).enqueue ()).acknowledge n := by
      simp [hs₃, State.put]
    have hright' : s₃.ends .right = (s.ends .right).process () := by simp [hs₃, hs₂, State.put]
    have hone : s₃.connections 1 = c₂.pop .left := by simp [hs₃, State.put]
    have hzero : s₃.connections 0 = s.connections 0 := by simp [hs₃, hs₂, hs₁, State.put]
    constructor
    · rw [hleft]
      exact congrArg (· + 1) h.outgoingSeq
    · rw [hleft, hdone]
    · rw [hleft]
      exact h.leftRegistered
    · rw [hleft]
      simp [acknowledge, enqueue, h.sent]
    · rw [hright']
      exact congrArg (· + 1) h.incomingSeq
    · rw [hright']
      exact h.incomingQueue
    · rw [hright']
      exact h.rightRegistered
    · rw [hright', hright]
    · rw [hright']
      exact h.pending
    · rw [hright']
      simp [process, h.processed]
    · rw [hone]
      exact write_alive_iff.mpr halive
    · intro e
      rw [hone]
      simpa [pop, hc₂] using hset e
    · intro e
      rw [hone]
      cases e with
      | left => exact pop_written_self.trans hempty
      | right => exact (pop_written_other (e := .left)).trans (by simp [Side.other, hack])
    · rw [hzero]
      exact h.unset
    · rw [hzero]
      exact h.onTheWay

theorem Late.rounds {n : ℕ} (h : Late n s) (k : ℕ) :
    ∃ s', Relation.ReflTransGen AnyStep s s' ∧ Late (n + k) s' := by
  induction k with
  | zero => exact ⟨s, .refl, h⟩
  | succ k ih =>
    obtain ⟨s₁, hpath₁, h₁⟩ := ih
    obtain ⟨s₂, hpath₂, h₂⟩ := h₁.round
    exact ⟨s₂, hpath₁.trans hpath₂, h₂⟩

/-- After `2 ^ 32` messages the second connection is lost, and the right end takes the message
`0` from the first for the next one. -/
theorem Late.twice (h : Late (2 ^ 32) s) :
    ∃ s', Relation.ReflTransGen AnyStep s s' ∧ (s'.ends .right).tcpconnections ≠ [] ∧
      (s'.ends .left).sent.length < (s'.ends .right).processed.length := by
  set s₁ := s.modifyConnection 1 (·.close .right) with hs₁
  set pi : EdgeInfo Empty Unit := { s.ends .right with tcpconnections := [] } with hpi
  set s₂ : State Empty Unit := { s₁ with ends := Function.update s₁.ends .right pi } with hs₂
  have hreap : reaptcpconnections s₁ .right = s₂ := by
    simp [hs₂, hpi, hs₁, reaptcpconnections, modifyEnd, modifyConnection, h.rightRegistered, close]
  have hpi₂ : s₂.ends .right = pi := by simp [hs₂]
  have hconn₂ : s₂.connections 0 = s.connections 0 := by simp [hs₂, hs₁, modifyConnection]
  -- the first connection is registered now, and nothing is written on it
  set c := (((s.connections 0).pop .right).setSourceRank .right).write .right
    (messages (numbered pi.outgoingSeq []) ++ [] ++ messages (pi.enqueueAll []).outgoingQueue)
    with hc
  set s₃ := (s₂.modifyConnection 0 (·.pop .right)).put .right (pi.afterConnect 0 []) 0 c with hs₃
  have hreplayed : pi.replayed [] = [] := by
    have hpending : pi.pendingBroadcasts = [] := h.pending
    simp [replayed, hpending]
  have hconnect : onConnect (s₂.modifyConnection 0 (·.pop .right)) .right 0 [] [] = s₃ := by
    have hends : (s₂.modifyConnection 0 (·.pop .right)).ends .right = pi := hpi₂
    rw [onConnect_of_nil _ (by rw [hends]), hends, hreplayed]
    simp [hs₃, hc, modifyConnection, hconn₂]
  have hwritten : c.written .left = [.message 0 ()] := by
    refine (write_written_other (e := .right) _).trans ?_
    exact (pop_written_other (c := s.connections 0) (e := .right)).trans
      (by rw [Side.other, h.onTheWay]; rfl)
  have hset : c.hasSourceRank .right = true := by simp [hc, setSourceRank]
  have hincoming := pi.afterConnect_incoming 0 []
  simp only [incoming, Prod.mk.injEq] at hincoming
  obtain ⟨hin, hwait, hproc⟩ := hincoming
  have hidle : (pi.afterConnect 0 []).outgoingQueue = [] := by
    rw [afterConnect, hreplayed]
    exact h.idle
  set s₄ := s₃.put .right ((pi.afterConnect 0 []).process ()) 0
    ((c.pop .right).write .right [.messageAck 0]) with hs₄
  have hstep₃ : step noRanks s₂ (.read .right 0) = some s₃ := by
    have hnext : s₂.next? .right 0 = some (.connectAck []) := by
      simp [State.next?, hconn₂, Side.other, h.onTheWay]
    show readFrame noRanks s₂ .right 0 = _
    rw [readFrame, hnext, ← hconnect]
    rfl
  have hstep₄ : step noRanks s₃ (.read .right 0) = some s₄ := by
    have hnext : s₃.next? .right 0 = some (.message 0 ()) := by
      simp [hs₃, State.next?, State.put, Side.other, hwritten]
    have hreceive : (pi.afterConnect 0 []).receive 0 () = (pi.afterConnect 0 []).process () := by
      refine receive_of_seqDiff ?_ (hwait.trans h.incomingQueue)
      have hlast : (pi.afterConnect 0 []).incomingSeq = 2 ^ 32 := hin.trans h.incomingSeq
      rw [hlast]
      decide
    rw [step_message hnext (by simpa [hs₃, State.put] using hset)]
    simp [hs₃, hs₄, State.put, hreceive]
  have hleft : ∀ t ∈ [s₁, s₂, s₃, s₄], t.ends .left = s.ends .left := by
    simp [hs₁, hs₂, hs₃, hs₄, modifyConnection, State.put]
  have hempty : ∀ t ∈ [s₁, s₂, s₃, s₄], (t.ends .left).outgoingQueue.length ≤ 1 := by
    intro t ht
    simp [hleft t ht, h.outgoingQueue]
  have hfew₁ : AnyStep s s₁ :=
    FewStep.of (.close .right 1) trivial rfl (hempty s₁ (by simp))
      (by simp [hs₁, modifyConnection, h.idle])
  have hfew₂ : AnyStep s₁ s₂ :=
    FewStep.of (.reap .right) trivial (congrArg some hreap) (hempty s₂ (by simp))
      (by simp [hpi₂, hpi, h.idle])
  have hfew₃ : AnyStep s₂ s₃ :=
    FewStep.of _ trivial hstep₃ (hempty s₃ (by simp)) (by simp [hs₃, State.put, hidle])
  have hfew₄ : AnyStep s₃ s₄ :=
    FewStep.of _ trivial hstep₄ (hempty s₄ (by simp))
      (by simp [hs₄, State.put, process, hidle])
  refine ⟨s₄, (((Relation.ReflTransGen.single hfew₁).tail hfew₂).tail hfew₃).tail hfew₄, ?_, ?_⟩
  · have hends : s₄.ends .right = (pi.afterConnect 0 []).process () := by simp [hs₄, State.put]
    rw [hends]
    simp [process, afterConnect, enqueueAll_eq, register]
  have hlen : pi.processed.length = 2 ^ 32 := h.processed
  rw [hleft s₄ (by simp), h.sent]
  simp [hs₄, State.put, process, hproc, hlen]

end Late

/-- With one message unacknowledged at most, a frame that is read late is processed as if it
were the next message. -/
theorem edge_late_frame :
    ∃ ex : Execution noRanks Unit, (∀ t, FewUnacknowledged (ex.state t)) ∧
      ∃ t, ¬ ((ex.state t).ends Side.left.other).processed <+: ((ex.state t).ends .left).sent := by
  obtain ⟨s₁, hpath, h₁⟩ := exists_late_one
  have hpath₁ : Relation.ReflTransGen AnyStep {} s₁ :=
    hpath.lift id fun _ _ ⟨⟨a, _, ha⟩, hfew⟩ => ⟨⟨a, trivial, ha⟩, hfew⟩
  obtain ⟨s₂, hpath₂, h₂⟩ := h₁.rounds (2 ^ 32 - 1)
  obtain ⟨s₃, hpath₃, hrest, hlong⟩ := h₂.twice
  obtain ⟨ex, hfew, -, T, hT⟩ :=
    exists_execution_of_path ((hpath₁.trans hpath₂).trans hpath₃) hrest trivial
  refine ⟨ex, hfew, T, fun hpre => ?_⟩
  rw [hT T le_rfl] at hpre
  exact absurd hpre.length_le (not_le.mpr hlong)

end Store.Link
