import Moodist.Foundation.Track
import Moodist.Store.Link.Defs

/-!
# What is on the way on a connection

For one direction of a connection, the messages that the reader will take up (a reader that waits
for the handshake throws away what comes before it), and the acknowledgements that come back.
-/

namespace Store.Link

open Foundation List Function Connection
open Prod (fst)

variable {R M : Type} {rest : List (Frame R M)} {f : Frame R M}

/-! ## Sides and updates -/

@[simp] theorem Side.other_other (e : Side) : e.other.other = e := by cases e <;> rfl

@[simp] theorem Side.other_ne (e : Side) : e.other ≠ e := by cases e <;> decide

@[simp] theorem Side.ne_other (e : Side) : e ≠ e.other := by cases e <;> decide

theorem Side.eq_or_other (e e' : Side) : e' = e ∨ e' = e.other := by
  cases e <;> cases e' <;> decide

section Connections

variable {c : Connection R M} {e : Side} {fs : List (Frame R M)}

theorem Connection.write_of_alive (h : c.Alive) :
    c.write e fs = { c with written := update c.written e (c.written e ++ fs) } := by
  rw [write, if_pos h]

theorem Connection.write_of_not_alive (h : ¬ c.Alive) : c.write e fs = c := by
  rw [write, if_neg h]

@[simp] theorem Connection.write_closed : (c.write e fs).closed = c.closed := by
  rw [write]
  split <;> rfl

@[simp] theorem Connection.write_hasSourceRank :
    (c.write e fs).hasSourceRank = c.hasSourceRank := by
  rw [write]
  split <;> rfl

@[simp] theorem Connection.write_opener : (c.write e fs).opener = c.opener := by
  rw [write]
  split <;> rfl

@[simp] theorem Connection.write_written_other (fs : List (Frame R M)) :
    (c.write e fs).written e.other = c.written e.other := by
  rw [write]
  split
  · exact update_of_ne e.other_ne _ _
  · rfl

theorem Connection.write_written_self (h : c.Alive) (fs : List (Frame R M)) :
    (c.write e fs).written e = c.written e ++ fs := by
  rw [write_of_alive h]
  exact update_self ..

@[simp] theorem Connection.write_alive_iff : (c.write e fs).Alive ↔ c.Alive := by
  simp [Alive]

theorem Connection.write_write (fs' : List (Frame R M)) :
    (c.write e fs).write e fs' = c.write e (fs ++ fs') := by
  by_cases h : c.Alive
  · rw [write_of_alive (write_alive_iff.2 h), write_of_alive h, write_of_alive h]
    simp
  · rw [write_of_not_alive (mt write_alive_iff.1 h), write_of_not_alive h, write_of_not_alive h]

theorem Connection.not_alive_close : ¬ (c.close e).Alive := by
  intro h
  simpa [close] using h e

@[simp] theorem Connection.pop_written_self : (c.pop e).written e = c.written e :=
  update_of_ne e.ne_other _ _

@[simp] theorem Connection.pop_written_other :
    (c.pop e).written e.other = (c.written e.other).tail :=
  update_self ..

end Connections

/-! ## Frames -/

def seqs (fs : List (Frame R M)) : List ℕ :=
  fs.filterMap fun
    | .message seq _ => some seq
    | _ => none

def ackSeqs (fs : List (Frame R M)) : List ℕ :=
  fs.filterMap fun
    | .messageAck seq => some seq
    | _ => none

def afterConnectAck : List (Frame R M) → List (Frame R M)
  | [] => []
  | .connectAck _ :: fs => fs
  | _ :: fs => afterConnectAck fs

def Frame.isHandshake : Frame R M → Bool
  | .connect _ | .connectAck _ => true
  | .message _ _ | .messageAck _ => false

def HasConnectAck (fs : List (Frame R M)) : Prop :=
  ∃ ranks, Frame.connectAck ranks ∈ fs

section Frames

variable {fs gs : List (Frame R M)} {k : ℕ} {m : M} {ranks : List R}

@[simp] theorem seqs_nil : seqs ([] : List (Frame R M)) = [] := rfl

@[simp] theorem seqs_append : seqs (fs ++ gs) = seqs fs ++ seqs gs := filterMap_append ..

@[simp] theorem seqs_message : seqs (.message k m :: fs) = k :: seqs fs := rfl

@[simp] theorem seqs_connect : seqs (.connect ranks :: fs : List (Frame R M)) = seqs fs := rfl

@[simp] theorem seqs_connectAck : seqs (.connectAck ranks :: fs : List (Frame R M)) = seqs fs :=
  rfl

@[simp] theorem seqs_messageAck : seqs (.messageAck k :: fs : List (Frame R M)) = seqs fs := rfl

@[simp] theorem ackSeqs_nil : ackSeqs ([] : List (Frame R M)) = [] := rfl

@[simp] theorem ackSeqs_append : ackSeqs (fs ++ gs) = ackSeqs fs ++ ackSeqs gs :=
  filterMap_append ..

@[simp] theorem ackSeqs_message : ackSeqs (.message k m :: fs) = ackSeqs fs := rfl

@[simp] theorem ackSeqs_connect : ackSeqs (.connect ranks :: fs : List (Frame R M)) = ackSeqs fs :=
  rfl

@[simp] theorem ackSeqs_connectAck :
    ackSeqs (.connectAck ranks :: fs : List (Frame R M)) = ackSeqs fs :=
  rfl

@[simp] theorem ackSeqs_messageAck :
    ackSeqs (.messageAck k :: fs : List (Frame R M)) = k :: ackSeqs fs :=
  rfl

@[simp] theorem seqs_messages (queue : List (ℕ × M)) :
    seqs (messages queue : List (Frame R M)) = queue.map fst := by
  induction queue with
  | nil => rfl
  | cons v queue ih => exact congrArg (v.1 :: ·) ih

@[simp] theorem ackSeqs_messages (queue : List (ℕ × M)) :
    ackSeqs (messages queue : List (Frame R M)) = [] := by
  induction queue with
  | nil => rfl
  | cons v queue ih => exact ih

theorem mem_seqs : k ∈ seqs fs ↔ ∃ m, Frame.message k m ∈ fs := by
  induction fs with
  | nil => simp
  | cons f fs ih => cases f <;> simp [ih, exists_or]

theorem mem_ackSeqs : k ∈ ackSeqs fs ↔ Frame.messageAck k ∈ fs := by
  induction fs with
  | nil => simp
  | cons f fs ih => cases f <;> simp_all

theorem mem_messages {queue : List (ℕ × M)} :
    (Frame.message k m : Frame R M) ∈ messages queue ↔ (k, m) ∈ queue := by
  simp [messages]

theorem afterConnectAck_append_of_has (h : HasConnectAck fs) :
    afterConnectAck (fs ++ gs) = afterConnectAck fs ++ gs := by
  induction fs with
  | nil => simp [HasConnectAck] at h
  | cons f fs ih =>
    cases f with
    | connectAck ranks => rfl
    | connect ranks | message k m | messageAck k =>
      exact ih (by simpa [HasConnectAck] using h)

theorem afterConnectAck_append_of_not_has (h : ¬ HasConnectAck fs) (gs : List (Frame R M)) :
    afterConnectAck (fs ++ gs) = afterConnectAck gs := by
  induction fs with
  | nil => rfl
  | cons f fs ih =>
    cases f with
    | connectAck ranks => exact absurd ⟨ranks, by simp⟩ h
    | connect ranks | message k m | messageAck k =>
      exact ih (by simpa [HasConnectAck] using h)

theorem afterConnectAck_of_not_has (h : ¬ HasConnectAck fs) : afterConnectAck fs = [] := by
  simpa [afterConnectAck] using afterConnectAck_append_of_not_has h []

theorem afterConnectAck_take (n : ℕ) : afterConnectAck (fs.take n) <+: afterConnectAck fs := by
  induction fs generalizing n with
  | nil => simp [afterConnectAck]
  | cons f fs ih =>
    cases n with
    | zero => simp [afterConnectAck]
    | succ n =>
      cases f with
      | connectAck ranks => exact take_prefix ..
      | connect ranks | message k m | messageAck k => exact ih n

theorem mem_of_mem_afterConnectAck (h : f ∈ afterConnectAck fs) : f ∈ fs := by
  induction fs with
  | nil => exact h
  | cons g fs ih =>
    cases g with
    | connectAck ranks => exact mem_cons_of_mem _ h
    | connect ranks | message k m | messageAck k => exact mem_cons_of_mem _ (ih h)

theorem seqs_prefix (h : fs <+: gs) : seqs fs <+: seqs gs := h.filterMap _

theorem ackSeqs_prefix (h : fs <+: gs) : ackSeqs fs <+: ackSeqs gs := h.filterMap _

end Frames

/-! ## The handshake -/

/-- Where frames of the handshake can be, and that an end writes messages only after it has
registered the connection. -/
structure Connection.Shaped (c : Connection R M) : Prop where
  once : ∀ e, (c.written e).countP Frame.isHandshake ≤ 1
  connect : ∀ {e ranks}, .connect ranks ∈ c.written e →
    c.hasSourceRank e = false ∧ c.hasSourceRank e.other = false ∧ c.written e.other = []
  connectAck : ∀ {e ranks}, .connectAck ranks ∈ c.written e →
    c.hasSourceRank e = true ∧ c.hasSourceRank e.other = false
  quiet : ∀ {e}, c.hasSourceRank e = false → ∀ f ∈ c.written e, ∃ ranks, f = .connect ranks
  unacked : ∀ {e}, c.hasSourceRank e = false → ackSeqs (c.written e.other) = []
  waiting : ∀ {e}, c.hasSourceRank e = true → c.hasSourceRank e.other = false → c.Alive →
    HasConnectAck (c.written e)
  unopened : c.opener = none → ∀ e, c.written e = [] ∧ c.hasSourceRank e = false

section Shaped

variable {c : Connection R M} {e : Side} {fs : List (Frame R M)}

theorem Connection.shaped_default : ({} : Connection R M).Shaped where
  once _ := by simp
  connect h := by simp at h
  connectAck h := by simp at h
  quiet _ f h := by simp at h
  unacked _ := rfl
  waiting h := by simp at h
  unopened _ _ := ⟨rfl, rfl⟩

variable (h : c.Shaped)

include h

theorem Connection.Shaped.seqs_eq_nil (he : c.hasSourceRank e = false) :
    seqs (c.written e) = [] := by
  rw [seqs, filterMap_eq_nil_iff]
  intro f hf
  obtain ⟨ranks, rfl⟩ := h.quiet he f hf
  rfl

theorem Connection.Shaped.tail_plain (heq : c.written e = f :: fs)
    (hf : f.isHandshake) : ∀ g ∈ fs, g.isHandshake = false := by
  have honce := h.once e
  rw [heq, countP_cons_of_pos hf] at honce
  have hzero : fs.countP Frame.isHandshake = 0 := by omega
  intro g hg
  simpa using countP_eq_zero.mp hzero g hg

/-- The reader of a frame of the handshake has not registered the connection, and has nothing on
the way. -/
theorem Connection.Shaped.unset_of_handshake
    (heq : c.written e.other = f :: rest) (hf : f.isHandshake) :
    c.hasSourceRank e = false ∧ c.written e = [] := by
  have hmem : f ∈ c.written e.other := by simp [heq]
  cases f with
  | connect ranks =>
    obtain ⟨-, h₂, h₃⟩ := h.connect hmem
    rw [Side.other_other] at h₂ h₃
    exact ⟨h₂, h₃⟩
  | connectAck ranks =>
    obtain ⟨h₁, h₂⟩ := h.connectAck hmem
    rw [Side.other_other] at h₂
    refine ⟨h₂, eq_nil_iff_forall_not_mem.mpr fun g hg => ?_⟩
    obtain ⟨ranks', rfl⟩ := h.quiet h₂ g hg
    exact absurd (h.connect hg).2.1 (by simp [h₁])
  | message k m | messageAck k => simp [Frame.isHandshake] at hf

/-- Frames that are not on the way any more. -/
theorem Connection.Shaped.sublist (hsub : fs.Sublist (c.written e))
    (hack : c.hasSourceRank e.other = false → c.Alive → HasConnectAck (c.written e) →
      HasConnectAck fs) :
    ({ c with written := update c.written e fs } : Connection R M).Shaped := by
  have hmem : ∀ e' f, f ∈ update c.written e fs e' → f ∈ c.written e' := by
    intro e' f hf
    by_cases heq : e' = e
    · subst heq
      rw [update_self] at hf
      exact hsub.subset hf
    · rwa [update_of_ne heq] at hf
  have hnil : ∀ e', c.written e' = [] → update c.written e fs e' = [] := by
    intro e' heq
    refine eq_nil_iff_forall_not_mem.mpr fun f hf => ?_
    simpa [heq] using hmem e' f hf
  constructor
  · intro e'
    by_cases heq : e' = e
    · subst heq
      simpa using (hsub.countP_le).trans (h.once e')
    · simpa [heq] using h.once e'
  · intro e' ranks hmem'
    obtain ⟨h₁, h₂, h₃⟩ := h.connect (hmem _ _ hmem')
    exact ⟨h₁, h₂, hnil _ h₃⟩
  · exact fun hmem' => h.connectAck (hmem _ _ hmem')
  · exact fun he f hf => h.quiet he f (hmem _ _ hf)
  · intro e' he
    refine eq_nil_iff_forall_not_mem.mpr fun k hk => ?_
    have hk' := mem_ackSeqs.2 (hmem _ _ (mem_ackSeqs.1 hk))
    simp [h.unacked he] at hk'
  · intro e' he hother halive
    have hold := h.waiting he hother halive
    by_cases heq : e' = e
    · subst heq
      simpa using hack hother halive hold
    · simpa [heq] using hold
  · exact fun hnone e' => ⟨hnil e' (h.unopened hnone e').1, (h.unopened hnone e').2⟩

/-- An end that has registered the connection writes messages and acknowledgements. -/
theorem Connection.Shaped.write (he : c.hasSourceRank e = true)
    (hplain : ∀ f ∈ fs, f.isHandshake = false)
    (hack : c.hasSourceRank e.other = false → ackSeqs fs = []) : (c.write e fs).Shaped := by
  by_cases halive : c.Alive
  swap
  · rwa [write_of_not_alive halive]
  have hself := write_written_self (e := e) halive fs
  have hnot : ∀ {f : Frame R M}, f.isHandshake = true → f ∈ (c.write e fs).written e →
      f ∈ c.written e := by
    intro f hf hmem
    rw [hself, mem_append] at hmem
    refine hmem.resolve_right fun hin => ?_
    simp [hplain f hin] at hf
  have hother := write_written_other (c := c) (e := e) fs
  -- the fields of `Shaped`, each for the end that writes and for the other
  constructor
  · intro e'
    obtain rfl | rfl := e.eq_or_other e'
    · have hzero : fs.countP Frame.isHandshake = 0 :=
        countP_eq_zero.mpr fun f hf => by simp [hplain f hf]
      rw [hself, countP_append, hzero]
      exact h.once _
    · rw [hother]
      exact h.once _
  · intro e' ranks hmem
    obtain rfl | rfl := e.eq_or_other e'
    · exact absurd (h.connect (hnot rfl hmem)).1 (by simp [he])
    · rw [hother] at hmem
      exact absurd (h.connect hmem).2.1 (by simp [he])
  · intro e' ranks hmem
    obtain rfl | rfl := e.eq_or_other e'
    · simpa using h.connectAck (hnot rfl hmem)
    · rw [hother] at hmem
      simpa using h.connectAck hmem
  · intro e' he'
    obtain rfl | rfl := e.eq_or_other e'
    · simp [he] at he'
    · rw [hother]
      exact h.quiet (by simpa using he')
  · intro e' he'
    obtain rfl | rfl := e.eq_or_other e'
    · simp [he] at he'
    · have hold := h.unacked (e := e.other) (by simpa using he')
      rw [Side.other_other] at hold
      rw [Side.other_other, hself, ackSeqs_append, hold, hack (by simpa using he')]
      rfl
  · intro e' he' hother' _
    obtain rfl | rfl := e.eq_or_other e'
    · obtain ⟨ranks, hmem⟩ := h.waiting he (by simpa using hother') halive
      exact ⟨ranks, by simp [hself, hmem]⟩
    · simp [he] at hother'
  · intro hnone
    have hfalse := (h.unopened (by simpa using hnone) e).2
    simp [he] at hfalse

/-- What registers a connection: the handshake is read, and what is written in answer holds the
acknowledgement of the handshake if the other end waits for it. -/
theorem Connection.Shaped.register (heq : c.written e.other = f :: rest) (hf : f.isHandshake)
    (honce : fs.countP Frame.isHandshake ≤ 1) (hconnect : ∀ ranks, .connect ranks ∉ fs)
    (hack : ackSeqs fs = []) (hreply : HasConnectAck fs ↔ c.hasSourceRank e.other = false) :
    (((c.pop e).setSourceRank e).write e fs).Shaped := by
  set c₁ := (c.pop e).setSourceRank e with hc₁
  have hplain := h.tail_plain heq hf
  obtain ⟨hunset, hempty⟩ := h.unset_of_handshake heq hf
  have hrank : c₁.hasSourceRank e = true := update_self ..
  have hrank' : c₁.hasSourceRank e.other = c.hasSourceRank e.other := update_of_ne e.other_ne _ _
  have hrest : (c₁.write e fs).written e.other = rest := by
    rw [write_written_other]
    exact c.pop_written_other.trans (by rw [heq]; rfl)
  have hself : ∀ {g}, g ∈ (c₁.write e fs).written e → g ∈ fs := by
    intro g hg
    by_cases halive : c₁.Alive
    · rw [write_written_self halive] at hg
      simpa [hc₁, setSourceRank, hempty] using hg
    · rw [write_of_not_alive halive] at hg
      simp [hc₁, setSourceRank, hempty] at hg
  constructor
  · intro e'
    obtain rfl | rfl := e.eq_or_other e'
    · by_cases halive : c₁.Alive
      · rw [write_written_self halive]
        simpa [hc₁, setSourceRank, hempty] using honce
      · rw [write_of_not_alive halive]
        simp [hc₁, setSourceRank, hempty]
    · rw [hrest, countP_eq_zero.mpr fun g hg => by simp [hplain g hg]]
      exact Nat.zero_le 1
  · intro e' ranks hmem
    obtain rfl | rfl := e.eq_or_other e'
    · exact absurd (hself hmem) (hconnect ranks)
    · rw [hrest] at hmem
      simpa [Frame.isHandshake] using hplain _ hmem
  · intro e' ranks hmem
    obtain rfl | rfl := e.eq_or_other e'
    · simpa [hrank, hrank'] using hreply.mp ⟨ranks, hself hmem⟩
    · rw [hrest] at hmem
      simpa [Frame.isHandshake] using hplain _ hmem
  · intro e' he' g hg
    obtain rfl | rfl := e.eq_or_other e'
    · simp [hrank] at he'
    · rw [hrest] at hg
      rw [write_hasSourceRank, hrank'] at he'
      exact h.quiet he' g (by simp [heq, hg])
  · intro e' he'
    obtain rfl | rfl := e.eq_or_other e'
    · simp [hrank] at he'
    · refine eq_nil_iff_forall_not_mem.mpr fun k hk => ?_
      rw [Side.other_other] at hk
      have hin := mem_ackSeqs.2 (hself (mem_ackSeqs.1 hk))
      simp [hack] at hin
  · intro e' he' hother' halive
    obtain rfl | rfl := e.eq_or_other e'
    · rw [write_hasSourceRank, hrank'] at hother'
      rw [write_written_self (write_alive_iff.1 halive)]
      obtain ⟨ranks, hmem⟩ := hreply.mpr hother'
      exact ⟨ranks, mem_append_right _ hmem⟩
    · simp [hrank] at hother'
  · intro hnone
    rw [write_opener] at hnone
    have hnil := (h.unopened hnone e.other).1
    simp [heq] at hnil

end Shaped

/-! ## One direction -/

/-- What the other end will read and not throw away of what `e` has written. -/
def Connection.live (c : Connection R M) (e : Side) : List (Frame R M) :=
  if c.hasSourceRank e.other then c.written e else afterConnectAck (c.written e)

/-- The acknowledgements on the way to `e`. -/
def Connection.acks (c : Connection R M) (e : Side) : List ℕ :=
  ackSeqs (c.written e.other)

/-- The order in which `e` will see its messages acknowledged. -/
def Connection.track (c : Connection R M) (e : Side) : List ℕ :=
  c.acks e ++ seqs (c.live e)

/-- One direction of a connection, from the sender `e`: the messages on the way have been sent,
those acknowledged have been handled by the other end, and from the number `b` on no message
overtakes one of `queue`. -/
structure Lane (b : ℕ) (queue : List ℕ) (sent : List M) (handled : ℕ → Prop)
    (c : Connection R M) (e : Side) : Prop where
  sent_of_mem : ∀ {k m}, .message k m ∈ c.written e → sent[k]? = some m
  handled_of_mem : ∀ k ∈ c.acks e, handled k
  acks_covered : Covered b queue (fun _ => False) (c.acks e)
  live_covered : Covered b queue handled (seqs (c.live e))
  track_covered : c.Alive → Covered b queue (fun _ => False) (c.track e)

section Lanes

variable {b : ℕ} {queue queue' : List ℕ} {sent sent' : List M} {handled handled' : ℕ → Prop}
  {c c' : Connection R M} {e : Side} {k : ℕ} {m : M}

theorem Connection.live_of_set (h : c.hasSourceRank e.other = true) : c.live e = c.written e := by
  rw [live, if_pos h]

theorem Connection.live_of_unset (h : c.hasSourceRank e.other = false) :
    c.live e = afterConnectAck (c.written e) := by
  rw [live, if_neg (by simp [h])]

theorem Connection.mem_written_of_mem_live (h : f ∈ c.live e) :
    f ∈ c.written e := by
  rw [live] at h
  split at h
  · exact h
  · exact mem_of_mem_afterConnectAck h

theorem Connection.live_pop : (c.pop e).live e = c.live e := by
  rw [live, pop_written_self]
  rfl

/-- A connection on which the sender has nothing on the way. -/
theorem Lane.of_nil (hseqs : seqs (c.written e) = []) (hacks : c.acks e = []) :
    Lane b queue sent handled c e := by
  have hlive : seqs (c.live e) = [] := by
    refine eq_nil_iff_forall_not_mem.mpr fun k hk => ?_
    obtain ⟨m, hmem⟩ := mem_seqs.1 hk
    have hin := mem_seqs.2 ⟨m, mem_written_of_mem_live hmem⟩
    simp [hseqs] at hin
  constructor
  · intro k m hmem
    have hin := mem_seqs.2 ⟨m, hmem⟩
    simp [hseqs] at hin
  · simp [hacks]
  · rw [hacks]
    exact Covered.nil
  · rw [hlive]
    exact Covered.nil
  · intro _
    rw [track, hacks, hlive]
    exact Covered.nil

/-- What does not concern the direction, or only cuts it short. -/
theorem Lane.of_isPrefix (h : Lane b queue sent handled c e)
    (hmem : ∀ {k m}, .message k m ∈ c'.written e → .message k m ∈ c.written e)
    (hacks : c'.acks e <+: c.acks e) (hlive : seqs (c'.live e) <+: seqs (c.live e))
    (halive : c'.Alive → c.Alive ∧ c'.acks e = c.acks e) : Lane b queue sent handled c' e where
  sent_of_mem hin := h.sent_of_mem (hmem hin)
  handled_of_mem k hk := h.handled_of_mem k (hacks.subset hk)
  acks_covered := h.acks_covered.of_isPrefix hacks
  live_covered := h.live_covered.of_isPrefix hlive
  track_covered ha := by
    obtain ⟨hc, heq⟩ := halive ha
    refine (h.track_covered hc).of_isPrefix ?_
    rw [track, track, heq]
    exact (prefix_append_right_inj _).mpr hlive

theorem Lane.lt_of_mem_live (h : Lane b queue sent handled c e) (hk : k ∈ seqs (c.live e)) :
    k < sent.length := by
  obtain ⟨m, hmem⟩ := mem_seqs.1 hk
  exact (List.getElem?_eq_some_iff.mp (h.sent_of_mem (mem_written_of_mem_live hmem))).1

/-- New messages join the queue, and the other end handles more. -/
theorem Lane.mono (h : Lane b queue sent handled c e) (hlt : ∀ k, handled k → k < sent.length)
    (hqueue : ∀ q ∈ queue', q ∈ queue ∨ sent.length ≤ q) (hsent : sent <+: sent')
    (hhandled : ∀ k, handled k → handled' k) : Lane b queue' sent' handled' c e := by
  have hacks : ∀ k ∈ c.acks e, k < sent.length := fun k hk => hlt k (h.handled_of_mem k hk)
  have hlive : ∀ k ∈ seqs (c.live e), k < sent.length := fun k hk => h.lt_of_mem_live hk
  constructor
  · intro k m hmem
    obtain ⟨rest, rfl⟩ := hsent
    have hold := h.sent_of_mem hmem
    rwa [List.getElem?_append_left (List.getElem?_eq_some_iff.mp hold).1]
  · exact fun k hk => hhandled k (h.handled_of_mem k hk)
  · exact h.acks_covered.mono
      (fun q hq => (hqueue q hq).imp_right fun hle k hk => (hacks k hk).le.trans hle)
      (fun _ _ hf => hf)
  · exact h.live_covered.mono
      (fun q hq => (hqueue q hq).imp_right fun hle k hk => (hlive k hk).le.trans hle)
      (fun q _ => hhandled q)
  · refine fun halive => (h.track_covered halive).mono (fun q hq => ?_) (fun _ _ hf => hf)
    refine (hqueue q hq).imp_right fun hle k hk => ?_
    rcases mem_append.mp hk with hk | hk
    · exact (hacks k hk).le.trans hle
    · exact (hlive k hk).le.trans hle

/-- A message that the sender writes will be read. -/
theorem Connection.live_write_message (hshaped : c.Shaped) (hset : c.hasSourceRank e = true)
    (halive : c.Alive) : (c.write e [.message k m]).live e = c.live e ++ [.message k m] := by
  by_cases hother : c.hasSourceRank e.other = true
  · rw [live_of_set (by simpa using hother), live_of_set hother, write_written_self halive]
  · simp only [Bool.not_eq_true] at hother
    rw [live_of_unset (by simpa using hother), live_of_unset hother, write_written_self halive,
      afterConnectAck_append_of_has (hshaped.waiting hset hother halive)]

theorem Connection.acks_write (fs : List (Frame R M)) : (c.write e fs).acks e = c.acks e := by
  rw [acks, write_written_other, acks]

theorem Connection.track_write_message (hshaped : c.Shaped) (hset : c.hasSourceRank e = true)
    (halive : c.Alive) : (c.write e [.message k m]).track e = c.track e ++ [k] := by
  rw [track, acks_write, live_write_message hshaped hset halive]
  simp [track]

/-- The sender writes its next message, with all of the queue before it on the way. -/
theorem Lane.write_message (h : Lane b queue sent handled c e) (hshaped : c.Shaped)
    (hset : c.hasSourceRank e = true) (hsent : sent[k]? = some m)
    (hbefore : c.Alive → ∀ q ∈ queue, q < k → q ∈ c.track e) :
    Lane b queue sent handled (c.write e [.message k m]) e := by
  by_cases halive : c.Alive
  swap
  · rwa [write_of_not_alive halive]
  constructor
  · intro k' m' hmem
    rw [write_written_self halive, mem_append] at hmem
    rcases hmem with hmem | hmem
    · exact h.sent_of_mem hmem
    · simp only [mem_singleton, Frame.message.injEq] at hmem
      obtain ⟨rfl, rfl⟩ := hmem
      exact hsent
  · rw [acks_write]
    exact h.handled_of_mem
  · rw [acks_write]
    exact h.acks_covered
  · rw [live_write_message hshaped hset halive, seqs_append]
    refine h.live_covered.concat fun _ q hq hlt => ?_
    rcases mem_append.mp (hbefore halive q hq hlt) with hin | hin
    · exact .inr (h.handled_of_mem q hin)
    · exact .inl hin
  · intro _
    rw [track_write_message hshaped hset halive]
    exact (h.track_covered halive).concat fun _ q hq hlt => .inl (hbefore halive q hq hlt)

section Deliver

variable (hset : c.hasSourceRank e.other = true) (heq : c.written e = .message k m :: rest)
include hset heq

omit hset in
theorem Connection.written_deliver :
    ((c.pop e.other).write e.other [.messageAck k]).written e = rest := by
  have hpop := c.pop_written_other (e := e.other)
  have hwrite := write_written_other (c := c.pop e.other) (e := e.other) [.messageAck k]
  rw [Side.other_other, heq] at hpop
  rw [Side.other_other, hpop] at hwrite
  exact hwrite

theorem Connection.live_deliver :
    ((c.pop e.other).write e.other [.messageAck k]).live e = rest := by
  rw [live_of_set (by simpa [pop] using hset), written_deliver heq]

theorem Connection.seqs_live_deliver : seqs (c.live e) = k :: seqs rest := by
  rw [live_of_set hset, heq, seqs_message]

omit hset heq in
theorem Connection.acks_deliver (halive : c.Alive) :
    ((c.pop e.other).write e.other [.messageAck k]).acks e = c.acks e ++ [k] := by
  rw [acks, write_written_self (show (c.pop e.other).Alive from halive),
    pop_written_self, ackSeqs_append]
  rfl

theorem Connection.track_deliver (halive : c.Alive) :
    ((c.pop e.other).write e.other [.messageAck k]).track e = c.track e := by
  rw [track, acks_deliver halive, live_deliver hset heq, track, seqs_live_deliver hset heq]
  simp

/-- The reader takes up a message and acknowledges it. -/
theorem Lane.deliver (h : Lane b queue sent handled c e) :
    Lane b queue sent (fun j => handled j ∨ j = k)
      ((c.pop e.other).write e.other [.messageAck k]) e := by
  have hcovered := h.live_covered
  rw [seqs_live_deliver hset heq] at hcovered
  have hsent : ∀ {j m'},
      .message j m' ∈ ((c.pop e.other).write e.other [.messageAck k]).written e →
        sent[j]? = some m' := by
    intro j m' hmem
    rw [written_deliver heq] at hmem
    exact h.sent_of_mem (by rw [heq]; exact mem_cons_of_mem _ hmem)
  by_cases halive : c.Alive
  -- the acknowledgement takes the place of the message
  · have hcov := h.track_covered halive
    refine ⟨hsent, ?_, ?_, ?_, fun _ => ?_⟩
    · intro j hj
      rw [acks_deliver halive, mem_append, mem_singleton] at hj
      exact hj.imp_left (h.handled_of_mem j)
    · rw [← track_deliver hset heq halive, track] at hcov
      exact hcov.of_isPrefix (prefix_append ..)
    · rw [live_deliver hset heq]
      exact hcovered.tail
    · rw [track_deliver hset heq halive]
      exact hcov
  -- nothing is written any more
  · have hacks : ((c.pop e.other).write e.other [.messageAck k]).acks e = c.acks e := by
      rw [write_of_not_alive (show ¬ (c.pop e.other).Alive from halive),
        acks, pop_written_self, acks]
    refine ⟨hsent, ?_, ?_, ?_, fun ha => absurd (write_alive_iff.1 ha) halive⟩
    · rw [hacks]
      exact fun j hj => .inl (h.handled_of_mem j hj)
    · rw [hacks]
      exact h.acks_covered
    · rw [live_deliver hset heq]
      exact hcovered.tail

end Deliver

/-- The sender takes up an acknowledgement. -/
theorem Lane.take_ack (h : Lane b queue sent handled c e)
    (heq : c.written e.other = .messageAck k :: rest)
    (hqueue : ∀ q ∈ queue', q ∈ queue ∧ q ≠ k) : Lane b queue' sent handled (c.pop e) e := by
  have hacks : c.acks e = k :: (c.pop e).acks e := by
    rw [acks, acks, pop_written_other, heq]
    rfl
  have hlive : (c.pop e).live e = c.live e := live_pop
  have hcovered := h.acks_covered
  rw [hacks] at hcovered
  constructor
  · intro j m' hmem
    rw [pop_written_self] at hmem
    exact h.sent_of_mem hmem
  · exact fun j hj => h.handled_of_mem j (by rw [hacks]; exact mem_cons_of_mem _ hj)
  · exact hcovered.take_up hqueue
  · rw [hlive]
    exact h.live_covered.mono (fun q hq => .inl (hqueue q hq).1) (fun _ _ hd => hd)
  · intro halive
    have htrack := h.track_covered halive
    rw [track, hacks, cons_append] at htrack
    rw [track, hlive]
    exact htrack.take_up hqueue

/-- The sender registers the connection: it writes some messages from before the threshold, the
acknowledgement of the handshake if the other end waits for it, and its whole queue. -/
theorem Lane.register (hshaped : c.Shaped) {rest reply : List (Frame R M)}
    (heq : c.written e.other = f :: rest) (hf : f.isHandshake)
    (hreply : (c.hasSourceRank e.other = true ∧ reply = []) ∨
      (c.hasSourceRank e.other = false ∧ ∃ ranks, reply = [.connectAck ranks]))
    {early queued : List (ℕ × M)} (hearly : ∀ v ∈ early, v.1 < b)
    (hsorted : (queued.map fst).Pairwise (· < ·))
    (hsent : ∀ v ∈ early ++ queued, sent[v.1]? = some v.2)
    (hc' : c' = ((c.pop e).setSourceRank e).write e (messages early ++ reply ++ messages queued)) :
    Lane b (queued.map fst) sent handled c' e ∧
      (c'.Alive → ∀ q ∈ queued.map fst, q ∈ c'.track e) := by
  set c₁ := (c.pop e).setSourceRank e with hc₁
  obtain ⟨hunset, hempty⟩ := hshaped.unset_of_handshake heq hf
  have hempty₁ : c₁.written e = [] := c.pop_written_self.trans hempty
  have hacks : c'.acks e = [] := by
    rw [hc', acks, write_written_other]
    refine (congrArg ackSeqs c.pop_written_other).trans ?_
    have := hshaped.unacked hunset
    rw [heq] at this ⊢
    cases f with
    | connect ranks | connectAck ranks => exact this
    | message k m | messageAck k => simp [Frame.isHandshake] at hf
  by_cases halive : c₁.Alive
  swap
  · have hself : c'.written e = [] := by
      rw [hc', write_of_not_alive halive, hempty₁]
    refine ⟨Lane.of_nil (by rw [hself]; rfl) hacks, fun ha => ?_⟩
    rw [hc', write_alive_iff] at ha
    exact absurd ha halive
  have hself : c'.written e = messages early ++ reply ++ messages queued := by
    rw [hc', write_written_self halive, hempty₁, nil_append]
  have hlow : Covered b (queued.map fst) (fun _ => False) (early.map fst) := by
    intro pre k post hsplit hb
    have hk : k ∈ early.map fst := by simp [hsplit]
    obtain ⟨v, hv, rfl⟩ := mem_map.mp hk
    exact absurd (hearly v hv) (not_lt.mpr hb)
  have hrank : c'.hasSourceRank e.other = c.hasSourceRank e.other := by
    rw [hc', write_hasSourceRank]
    exact update_of_ne e.other_ne _ _
  -- the early messages count if the other end has registered the connection already
  have hlive : seqs (c'.live e) = early.map fst ++ queued.map fst ∨
      seqs (c'.live e) = queued.map fst := by
    rcases hreply with ⟨hset, rfl⟩ | ⟨hunset', ranks, rfl⟩
    · left
      rw [live_of_set (hrank.trans hset), hself]
      simp
    · right
      have hnone : ¬ HasConnectAck (messages early : List (Frame R M)) := by
        rintro ⟨ranks', hmem⟩
        simp [messages] at hmem
      rw [live_of_unset (hrank.trans hunset'), hself, append_assoc,
        afterConnectAck_append_of_not_has hnone]
      exact seqs_messages queued
  have hcovered : Covered b (queued.map fst) (fun _ => False) (seqs (c'.live e)) := by
    rcases hlive with hlive | hlive
    · rw [hlive]
      exact hlow.append_sorted hsorted
    · rw [hlive]
      simpa using Covered.nil.append_sorted hsorted
  have htrack : c'.track e = seqs (c'.live e) := by rw [track, hacks, nil_append]
  refine ⟨⟨?_, ?_, ?_, ?_, ?_⟩, fun _ q hq => ?_⟩
  · intro k m hmem
    rw [hself] at hmem
    have hin : (k, m) ∈ early ++ queued := by
      rcases hreply with ⟨-, rfl⟩ | ⟨-, ranks, rfl⟩ <;> simpa [mem_messages] using hmem
    exact hsent _ hin
  · simp [hacks]
  · rw [hacks]
    exact Covered.nil
  · exact hcovered.mono (fun q hq => .inl hq) (fun _ _ hfalse => hfalse.elim)
  · intro _
    rwa [htrack]
  · rw [htrack]
    rcases hlive with hlive | hlive <;> rw [hlive]
    · exact mem_append_right _ hq
    · exact hq

end Lanes

end Store.Link
