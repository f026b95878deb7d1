import Moodist.Store.System

/-!
# What the handlers do to broadcasts

The handlers are followed through two lenses. `Node.Good` is what keeps them from failing: right
tables, and messages that can be carried on from where they are. `Node.view` is what the broadcasts
see of a rank.
-/

namespace Store

open Foundation List Function Node

variable {n : ℕ} {G : SimpleGraph (Fin n)} {nd : Node n}

/-! ## Messages in transit -/

def Body.Readable (body : Body n) : Prop :=
  ∀ payload, body = .done payload → ∃ r, readDone payload = .ok r

theorem deserializeValue_serializeValue (v : Value) :
    deserializeValue (serializeValue v) = some v := by
  have hlen : (serializeValue v).length = 8 + v.val.length := by simp [serializeValue]
  have htake : (serializeValue v).take 8 = toLE 8 v.val.length := by simp [serializeValue]
  have hdrop : (serializeValue v).drop 8 = v.val := by simp [serializeValue]
  have hsize : ofLE (toLE 8 v.val.length) = v.val.length := ofLE_toLE (by simpa using v.property)
  simp [deserializeValue, hlen, htake, hdrop, hsize]

theorem readDone_serializeValue (v : Value) : readDone (serializeValue v) = .ok (false, v) := by
  have h : 2 ≤ (serializeValue v).length := by
    rw [serializeValue, length_append, length_toLE]
    omega
  unfold readDone
  split
  · next heq => simp [heq] at h
  · next heq => simp [heq] at h
  · rw [deserializeValue_serializeValue]

theorem readable_nil : (Body.done [] : Body n).Readable := by
  rintro payload ⟨⟩
  exact ⟨_, rfl⟩

theorem readable_singleton (b : UInt8) : (Body.done [b] : Body n).Readable := by
  rintro payload ⟨⟩
  exact ⟨_, rfl⟩

theorem readable_serializeValue (v : Value) : (Body.done (serializeValue v) : Body n).Readable := by
  rintro payload ⟨⟩
  exact ⟨_, readDone_serializeValue v⟩

theorem Op.readable_body (op : Op) (key : Key) : (op.body n key).Readable := by
  cases op <;> exact fun _ h => by cases h

/-- A message that `u` may have sent to its neighbour `v`. One with a single destination is
a step closer to it, and has hops left for the rest; a broadcast has lost one hop for
each step from its source. -/
structure Message.InTransit (G : SimpleGraph (Fin n)) (u v : Fin n) (m : Message n) :
    Prop where
  adj : G.Adj u v
  readable : m.body.Readable
  unicast : m.broadcast = false →
    G.dist v m.destinationRank + 1 = G.dist u m.destinationRank ∧
      G.dist u m.destinationRank ≤ m.ttl
  broadcast : m.broadcast = true →
    m.destinationRank = v ∧ m.ttl + G.dist u m.sourceRank = n

variable {m : Message n} {u v : Fin n}

theorem Message.InTransit.ttl_ne_zero (hlt : ∀ u v, G.dist u v < n)
    (h : m.InTransit G u v) : m.ttl ≠ 0 := by
  cases hb : m.broadcast with
  | false =>
    have := h.unicast hb
    omega
  | true =>
    have := (h.broadcast hb).2
    have := hlt u m.sourceRank
    omega

theorem inTransit_neighbor (hadj : G.Adj u v) (hr : m.body.Readable)
    (hb : m.broadcast = false) (hd : m.destinationRank = v) (httl : m.ttl = n) :
    m.InTransit G u v := by
  refine ⟨hadj, hr, fun _ => ?_, fun h => by simp [hb] at h⟩
  have hpos := u.pos
  rw [hd, SimpleGraph.dist_self, SimpleGraph.dist_eq_one_iff_adj.mpr hadj, httl]
  omega

/-! ## The view of the broadcasts -/

def Message.payload? (m : Message n) : Option (Fin n × Body n) :=
  if m.broadcast then some (m.sourceRank, m.body) else none

def Event.call? : Event n → Option (Body n)
  | .broadcast body => some body
  | .process _ => none

def Event.payload? : Event n → Option (Fin n × Body n)
  | .broadcast _ => none
  | .process msg => msg.payload?

/-- What the broadcasts see of a rank. `sent` is the outbox by edge. -/
@[ext] structure View (n : ℕ) where
  calls : List (Body n)
  processed : List (Fin n × Body n)
  sent : Fin n → List (Fin n × Body n)
  pending : Fin n → List (Fin n × Body n)
  connected : Fin n → Bool
  forwardFor : Fin n → Fin n → Bool

namespace Node

def view (nd : Node n) : View n where
  calls := nd.trace.filterMap Event.call?
  processed := nd.trace.filterMap Event.payload?
  sent := fun edge => (nd.sentTo edge).filterMap Message.payload?
  pending := fun edge => (nd.edgeInfo edge).pendingBroadcasts.map fun p => (p.1, p.2.body)
  connected := fun edge => (nd.edgeInfo edge).everConnected
  forwardFor := fun edge => (nd.edgeInfo edge).broadcastForwardFor

/-- The tables are right and all messages at hand can be carried on. -/
structure Good (nd : Node n) (G : SimpleGraph (Fin n)) : Prop where
  routed : nd.Routed G
  outbox : ∀ p ∈ nd.outbox, p.2.InTransit G nd.rank p.1
  pending : ∀ edge, ∀ p ∈ (nd.edgeInfo edge).pendingBroadcasts,
    p.2.broadcast = true ∧ p.2.sourceRank = p.1 ∧ p.2.InTransit G nd.rank edge

end Node

/-- A change of an edge record, seen by the broadcasts. -/
theorem Node.view_modifyEdge (nd : Node n) (edge : Fin n) (f : EdgeInfo n → EdgeInfo n) :
    (nd.modifyEdge edge f).view =
      { nd.view with
        pending := update nd.view.pending edge
          ((f (nd.edgeInfo edge)).pendingBroadcasts.map fun p => (p.1, p.2.body))
        connected := update nd.view.connected edge (f (nd.edgeInfo edge)).everConnected
        forwardFor := update nd.view.forwardFor edge
          (f (nd.edgeInfo edge)).broadcastForwardFor } := by
  simp only [view, sentTo, modifyEdge]
  congr 1 <;>
  · funext e
    by_cases he : e = edge
    · subst he
      simp
    · simp [update_of_ne he]

/-- The effect of a handler that has nothing to do with broadcasts. -/
structure Quiet (G : SimpleGraph (Fin n)) (nd nd' : Node n) : Prop where
  good : nd'.Good G
  tables : Node.SameTables nd nd'
  view : nd'.view = nd.view

theorem Quiet.refl (h : nd.Good G) : Quiet G nd nd := ⟨h, .refl nd, rfl⟩

variable {nd₁ : Node n}

theorem Quiet.trans {nd₂ nd₃ : Node n} (h : Quiet G nd₁ nd₂) (h' : Quiet G nd₂ nd₃) :
    Quiet G nd₁ nd₃ :=
  ⟨h'.good, h.tables.trans h'.tables, h'.view.trans h.view⟩

variable {nd' : Node n}

section

variable (h : nd.Good G) (hs : SameTables nd nd') (hedge : nd'.edgeInfo = nd.edgeInfo)
  (hout : nd'.outbox = nd.outbox)

include h hs hedge hout

/-- A change of the other fields is quiet. -/
theorem Node.Good.quiet_of_eq
    (hcalls : nd'.trace.filterMap Event.call? = nd.trace.filterMap Event.call?)
    (hproc : nd'.trace.filterMap Event.payload? = nd.trace.filterMap Event.payload?) :
    Quiet G nd nd' := by
  refine ⟨⟨h.routed.of_sameTables hs, ?_, ?_⟩, hs, ?_⟩
  · rw [hout, hs.rank]
    exact h.outbox
  · rw [hedge, hs.rank]
    exact h.pending
  · simp [view, sentTo, hedge, hout, hcalls, hproc]

theorem Node.Good.quiet_of_state (htrace : nd'.trace = nd.trace) : Quiet G nd nd' :=
  h.quiet_of_eq hs hedge hout (by rw [htrace]) (by rw [htrace])

end

theorem Node.Good.record_process (h : nd.Good G) (msg : Message n)
    (hb : msg.broadcast = false) : Quiet G nd (nd.record (.process msg)) := by
  refine h.quiet_of_eq ⟨rfl, rfl, rfl⟩ rfl rfl ?_ ?_
  · simp [record, Event.call?]
  · simp [record, Event.payload?, Message.payload?, hb]

/-! ## Sends -/

theorem Node.diagnosticMessages_inTransit (edge ds : Fin n) (hadj : G.Adj nd.rank edge)
    (p : Fin n × Message n) (hp : p ∈ nd.diagnosticMessages edge ds) :
    p.1 = edge ∧ p.2.broadcast = false ∧ p.2.InTransit G nd.rank edge := by
  rw [diagnosticMessages] at hp
  split at hp
  · cases hp
  · obtain rfl := mem_singleton.mp hp
    exact ⟨rfl, rfl, inTransit_neighbor hadj (fun _ h => by cases h) rfl rfl rfl⟩

theorem Node.payload?_diagnosticMessages (nd : Node n) (edge ds e : Fin n) :
    (((nd.diagnosticMessages edge ds).filter fun p => p.1 = e).map Prod.snd).filterMap
      Message.payload? = [] := by
  rw [diagnosticMessages]
  split
  · rfl
  · by_cases he : edge = e <;> simp [he, Message.payload?]

variable {edge : Fin n} {msg : Message n}

theorem Node.Good.post (h : nd.Good G) (ht : msg.InTransit G nd.rank edge) (ds : Fin n) :
    (nd.post edge msg ds).Good G := by
  refine ⟨h.routed.of_sameTables (nd.sameTables_post edge msg ds), ?_, ?_⟩
  · intro p hp
    simp only [Node.post, mem_append, mem_singleton] at hp
    rcases hp with hp | hp | rfl
    · exact h.outbox p hp
    · obtain ⟨hedge, -, hin⟩ := diagnosticMessages_inTransit edge ds ht.adj p hp
      rw [hedge]
      exact hin
    · exact ht
  · intro e p hp
    by_cases he : e = edge
    · subst he
      exact h.pending e p (by simpa [Node.post] using hp)
    · exact h.pending e p (by simpa [Node.post, update_of_ne he] using hp)

/-- A view after a broadcast message has gone to the outbox for `edge`. -/
def View.send (v : View n) (edge : Fin n) (payload : Fin n × Body n) : View n :=
  { v with sent := update v.sent edge (v.sent edge ++ [payload]) }

open View

theorem Node.view_post (edge ds : Fin n) (msg : Message n) :
    (nd.post edge msg ds).view =
      match msg.payload? with
      | none => nd.view
      | some payload => nd.view.send edge payload := by
  have hsent : ∀ e, ((nd.post edge msg ds).sentTo e).filterMap Message.payload? =
      (nd.sentTo e).filterMap Message.payload? ++
        (if e = edge then msg.payload?.toList else []) := by
    intro e
    have hdiag := nd.payload?_diagnosticMessages edge ds e
    simp only [sentTo, post, filter_append, map_append, filterMap_append, hdiag, nil_append]
    by_cases he : e = edge
    · subst he
      cases hpay : msg.payload? <;> simp [hpay]
    · simp [he, Ne.symm he]
  have hpending : ∀ e, ((nd.post edge msg ds).edgeInfo e).pendingBroadcasts =
      (nd.edgeInfo e).pendingBroadcasts := by
    intro e
    by_cases he : e = edge
    · subst he
      simp [post]
    · simp [post, update_of_ne he]
  have hconn : ∀ e, ((nd.post edge msg ds).edgeInfo e).everConnected =
      (nd.edgeInfo e).everConnected := by
    intro e
    by_cases he : e = edge
    · subst he
      simp [post]
    · simp [post, update_of_ne he]
  have hfor : ∀ e, ((nd.post edge msg ds).edgeInfo e).broadcastForwardFor =
      (nd.edgeInfo e).broadcastForwardFor := by
    intro e
    by_cases he : e = edge
    · subst he
      simp [post]
    · simp [post, update_of_ne he]
  cases hpay : msg.payload? with
  | none =>
    simp only [view, hsent, hpending, hconn, hfor, hpay]
    simp [post]
  | some payload =>
    simp only [view, send, hsent, hpending, hconn, hfor, hpay]
    congr 1
    funext e
    by_cases he : e = edge
    · subst he
      simp
    · simp [he]

theorem Node.Good.quiet_post (h : nd.Good G) (ht : msg.InTransit G nd.rank edge)
    (hb : msg.broadcast = false) (ds : Fin n) : Quiet G nd (nd.post edge msg ds) := by
  refine ⟨h.post ht ds, nd.sameTables_post edge msg ds, ?_⟩
  rw [view_post, Message.payload?, if_neg (by simp [hb])]

/-! ## Requests and replies -/

def Keeps (G : SimpleGraph (Fin n)) (nd : Node n) (r : Except Fault (Node n)) : Prop :=
  ∃ nd', r = .ok nd' ∧ Quiet G nd nd'

variable {r : Except Fault (Node n)} {dest : Fin n}

theorem Keeps.bind {f : Node n → Except Fault (Node n)} (h : Keeps G nd r)
    (hf : ∀ nd', nd'.Good G → Keeps G nd' (f nd')) : Keeps G nd (r >>= f) := by
  obtain ⟨nd₁, rfl, hq₁⟩ := h
  obtain ⟨nd₂, hr₂, hq₂⟩ := hf nd₁ hq₁.good
  exact ⟨nd₂, hr₂, hq₁.trans hq₂⟩

theorem Keeps.of_quiet (hq : Quiet G nd nd₁) (h : Keeps G nd₁ r) : Keeps G nd r := by
  obtain ⟨nd₂, hr, hq₂⟩ := h
  exact ⟨nd₂, hr, hq.trans hq₂⟩

theorem Node.Good.firsthop (h : nd.Good G) (hne : dest ≠ nd.rank) :
    ∃ f, nd.firsthop dest = some f ∧ G.Adj nd.rank f ∧
      G.dist f dest + 1 = G.dist nd.rank dest :=
  h.routed.hops.hop dest hne

theorem keeps_sendMessageTo_of_ne (h : nd.Good G) (hlt : ∀ u v, G.dist u v < n) (k : ℕ)
    (hne : dest ≠ nd.rank) (id : UInt32) (ds : Fin n) {body : Body n}
    (hr : body.Readable) : Keeps G nd (sendMessageTo (calls (k + 1)) nd dest id ds body) := by
  obtain ⟨f, hf, hadj, hdist⟩ := h.firsthop hne
  refine ⟨_, sendMessageTo_eq h.routed k hne hf id ds body, h.quiet_post ?_ rfl ds⟩
  exact ⟨hadj, hr, fun _ => ⟨hdist, (hlt _ _).le⟩, fun hb => by cases hb⟩

variable {payload : List UInt8} {edges : List (Fin n)}

theorem keeps_processDone (h : nd.Good G) (id : UInt32)
    (hr : (Body.done payload : Body n).Readable) : Keeps G nd (processDone nd id payload) := by
  obtain ⟨r, hread⟩ := hr payload rfl
  rw [processDone, hread]
  simp only [bind, Except.bind]
  split
  · exact ⟨nd, rfl, .refl h⟩
  · exact ⟨_, rfl, h.quiet_of_state ⟨rfl, rfl, rfl⟩ rfl rfl rfl⟩

/-- The part of the state that only the owner of a key uses. -/
structure Node.SameStore (nd nd' : Node n) : Prop where
  store : nd'.store = nd.store
  storeVersion : nd'.storeVersion = nd.storeVersion
  storeWaiters : nd'.storeWaiters = nd.storeWaiters

theorem sameStore_processDone {id : UInt32} (h : processDone nd id payload = .ok nd') :
    nd.SameStore nd' := by
  rw [processDone] at h
  obtain ⟨r, -, h⟩ := except_bind_eq_ok.mp h
  dsimp only at h
  split at h <;> cases h <;> exact ⟨rfl, rfl, rfl⟩

section

variable (h : nd.Good G) (hlt : ∀ u v, G.dist u v < n)

include h hlt

theorem keeps_reply (k : ℕ) (dest : Fin n) (id : UInt32) (ds : Fin n)
    (hr : (Body.done payload : Body n).Readable) :
    ∃ nd', sendMessageTo (calls (k + 1)) nd dest id ds (.done payload) = .ok nd' ∧
      Quiet G nd nd' ∧ nd.SameStore nd' := by
  by_cases hne : dest = nd.rank
  · subst hne
    rw [sendMessageTo_self h.routed]
    set msg : Message n :=
      { ttl := n, destinationRank := nd.rank, id := id, sourceRank := nd.rank,
        diagnosticSource := ds, broadcast := false, body := .done payload } with hmsg
    have hq := h.record_process msg rfl
    obtain ⟨nd', hdone, hq'⟩ := keeps_processDone hq.good id hr
    refine ⟨nd', ?_, hq.trans hq', ?_⟩
    · simpa [calls, processMessage, processBody, hmsg, bind, Except.bind, pure, Except.pure]
        using hdone
    · have hs := sameStore_processDone hdone
      exact ⟨hs.store, hs.storeVersion, hs.storeWaiters⟩
  · obtain ⟨nd', hsend, hq⟩ := keeps_sendMessageTo_of_ne h hlt k hne id ds hr
    refine ⟨nd', hsend, hq, ?_⟩
    obtain ⟨f, hf, -, -⟩ := h.firsthop hne
    rw [sendMessageTo_eq h.routed k hne hf] at hsend
    cases hsend
    exact ⟨rfl, rfl, rfl⟩

theorem keeps_answerWaiter (k : ℕ) (data : Value) (w : Waiter n) :
    ∃ nd', answerWaiter (calls (k + 1)) data nd w = .ok nd' ∧ Quiet G nd nd' ∧
      nd.SameStore nd' := by
  rw [answerWaiter]
  cases w.messageType with
  | get => exact keeps_reply h hlt k _ _ _ (readable_serializeValue data)
  | wait => exact keeps_reply h hlt k _ _ _ readable_nil

theorem keeps_answerWaiters (k : ℕ) (data : Value) (ws : List (Waiter n)) :
    ∃ nd', ws.foldlM (answerWaiter (calls (k + 1)) data) nd = .ok nd' ∧ Quiet G nd nd' ∧
      nd.SameStore nd' := by
  induction ws generalizing nd with
  | nil => exact ⟨nd, rfl, .refl h, rfl, rfl, rfl⟩
  | cons w ws ih =>
    obtain ⟨nd₁, h₁, hq₁, hs₁⟩ := keeps_answerWaiter h hlt k data w
    obtain ⟨nd₂, h₂, hq₂, hs₂⟩ := ih hq₁.good
    refine ⟨nd₂, ?_, hq₁.trans hq₂, hs₂.store.trans hs₁.store,
      hs₂.storeVersion.trans hs₁.storeVersion, hs₂.storeWaiters.trans hs₁.storeWaiters⟩
    rw [foldlM_cons, h₁]
    exact h₂

/-- Setting a value is quiet: its check does not fail, since the replies leave the map as it
is. -/
theorem keeps_internalStoreSetValue (k : ℕ) (key : Key) (value : Value) :
    Keeps G nd (internalStoreSetValue (calls (k + 1)) nd key value) := by
  rw [internalStoreSetValue]
  simp only
  split
  · exact ⟨_, rfl, h.quiet_of_state ⟨rfl, rfl, rfl⟩ rfl rfl rfl⟩
  · next vec _ =>
    have hq : Quiet G nd
        { nd with
          store := nd.store.insert key value, storeVersion := nd.storeVersion + 1,
          storeWaiters := nd.storeWaiters.erase key } :=
      h.quiet_of_state ⟨rfl, rfl, rfl⟩ rfl rfl rfl
    obtain ⟨nd', hfold, hq', hs⟩ := keeps_answerWaiters hq.good hlt k value vec
    refine ⟨nd', ?_, hq.trans hq'⟩
    rw [hfold]
    exact if_pos hs.storeVersion

theorem keeps_internalStoreGetValue (k : ℕ) (key : Key) (w : Waiter n) :
    Keeps G nd (internalStoreGetValue (calls (k + 1)) nd key w) := by
  rw [internalStoreGetValue]
  split
  · next data _ =>
    obtain ⟨nd', hr, hq, -⟩ := keeps_answerWaiter h hlt k data w
    exact ⟨nd', hr, hq⟩
  · exact ⟨_, rfl, h.quiet_of_state ⟨rfl, rfl, rfl⟩ rfl rfl rfl⟩

/-- Every message but `messageExit` is processed quietly. -/
theorem keeps_processBody (k : ℕ) (hr : msg.body.Readable)
    (hexit : ∀ origin, msg.body ≠ .exit origin) :
    Keeps G nd (processBody (calls (k + 1)) nd msg) := by
  rw [processBody]
  cases hbody : msg.body with
  | done payload => exact keeps_processDone h _ (hbody ▸ hr)
  | set key value =>
    refine (keeps_internalStoreSetValue h hlt k key value).bind fun nd' h' => ?_
    obtain ⟨nd'', hsend, hq, -⟩ :=
      keeps_reply h' hlt k msg.sourceRank msg.id msg.diagnosticSource readable_nil
    exact ⟨nd'', hsend, hq⟩
  | get key | wait key => exact keeps_internalStoreGetValue h hlt k key _
  | check key =>
    obtain ⟨nd', hsend, hq, -⟩ := keeps_reply h hlt k msg.sourceRank msg.id
      msg.diagnosticSource (readable_singleton (if (nd.store.lookup key).isSome then 1 else 0))
    exact ⟨nd', hsend, hq⟩
  | shutdown origin | exitAck => exact ⟨_, rfl, h.quiet_of_state ⟨rfl, rfl, rfl⟩ rfl rfl rfl⟩
  | exit origin => exact absurd hbody (hexit origin)
  | diagnosticSource addrs =>
    exact ⟨_, rfl, h.quiet_of_state ⟨rfl, rfl, rfl⟩ rfl rfl rfl⟩

/-- A client operation is quiet. -/
theorem quiet_doWaitOp (id : UInt32) (op : Op) (key : Key) :
    ∃ nd' w, doWaitOp nd id op key = .ok (nd', w) ∧ Quiet G nd nd' := by
  have hfirst : ∃ f, nd.firsthop (storeRank nd.rank key) = some f := by
    by_cases hne : storeRank nd.rank key = nd.rank
    · exact ⟨_, hne ▸ h.routed.hops.self⟩
    · obtain ⟨f, hf, -⟩ := h.firsthop hne
      exact ⟨f, hf⟩
  obtain ⟨f, hf⟩ := hfirst
  simp only [doWaitOp, hf]
  split
  · exact ⟨_, _, rfl, h.quiet_of_state ⟨rfl, rfl, rfl⟩ rfl rfl rfl⟩
  · set nd₁ : Node n := { nd with
      waitObjects := nd.waitObjects ++ [Wait.fresh]
      waits := nd.waits.insert id nd.waitObjects.length }
    have hq₁ : Quiet G nd nd₁ := h.quiet_of_state ⟨rfl, rfl, rfl⟩ rfl rfl rfl
    have hbody := op.readable_body (n := n) key
    have hsend : Keeps G nd₁
        (sendMessageTo handlers nd₁ (storeRank nd.rank key) id nd.rank (op.body n key)) := by
      by_cases hne : storeRank nd.rank key = nd₁.rank
      · -- this rank owns the key, and processes the request in the same call
        rw [hne, sendMessageTo_self hq₁.good.routed]
        simp only [handlers, calls, processMessage, ne_eq, not_true_eq_false, if_false,
          Bool.false_eq_true, pure, Except.pure, ok_bind]
        have hq₂ := hq₁.good.record_process
          { ttl := n, destinationRank := nd₁.rank, id := id, sourceRank := nd₁.rank,
            diagnosticSource := nd.rank, broadcast := false, body := op.body n key } rfl
        refine Keeps.of_quiet hq₂ (keeps_processBody hq₂.good hlt 0 hbody fun origin => ?_)
        cases op <;> exact fun hb => by cases hb
      · exact keeps_sendMessageTo_of_ne hq₁.good hlt 1 hne id nd.rank hbody
    obtain ⟨nd₂, hok, hq₂⟩ := hsend
    refine ⟨nd₂, nd.waitObjects.length, ?_, hq₁.trans hq₂⟩
    rw [hok]
    rfl

end

/-! ## Broadcasts -/

def Shows (G : SimpleGraph (Fin n)) (nd : Node n) (v : View n) (r : Except Fault (Node n)) :
    Prop :=
  ∃ nd', r = .ok nd' ∧ nd'.Good G ∧ nd.SameTables nd' ∧ nd'.view = v

theorem Keeps.shows (h : Keeps G nd r) : Shows G nd nd.view r := by
  obtain ⟨nd', hr, hq⟩ := h
  exact ⟨nd', hr, hq.good, hq.tables, hq.view⟩

theorem Shows.trans {v : View n} (h : Shows G nd₁ v r) (hs : nd.SameTables nd₁) :
    Shows G nd v r := by
  obtain ⟨nd', hr, hg, ht, hv⟩ := h
  exact ⟨nd', hr, hg, hs.trans ht, hv⟩

theorem Message.payload?_of_broadcast (h : m.broadcast = true) :
    m.payload? = some (m.sourceRank, m.body) := if_pos h

theorem shows_sendMessage (h : nd.Good G) (k : ℕ) (msg : Message n) (hb : msg.broadcast = true)
    (ht : msg.InTransit G nd.rank edge) (ds : Fin n) :
    Shows G nd (nd.view.send edge (msg.sourceRank, msg.body))
      (sendMessage (calls (k + 1)) nd edge msg ds) := by
  refine ⟨_, sendMessage_eq h.routed k ht.adj msg ds, h.post ht ds,
    nd.sameTables_post edge msg ds, ?_⟩
  rw [view_post, Message.payload?_of_broadcast hb]

/-- The view after a payload has gone to each of `edges`. -/
def View.sendAll (v : View n) (edges : List (Fin n)) (payload : Fin n × Body n) : View n :=
  { v with sent := fun e => if e ∈ edges then v.sent e ++ [payload] else v.sent e }

theorem View.sendAll_cons (v : View n) (hnot : edge ∉ edges) (payload : Fin n × Body n) :
    v.sendAll (edge :: edges) payload = (v.send edge payload).sendAll edges payload := by
  simp only [sendAll, send]
  congr 1
  funext e
  by_cases he : e = edge
  · subst he
    simp [hnot]
  · simp [he]

/-- `broadcastMessage` sends to every neighbour. -/
theorem broadcastMessage_view (h : nd.Good G) (k : ℕ) (body : Body n) (hr : body.Readable) :
    Shows G nd
      ({ nd.view with calls := nd.view.calls ++ [body] }.sendAll nd.edgePeers (nd.rank, body))
      (broadcastMessage (calls (k + 1)) nd body) := by
  have hfold : ∀ (edges : List (Fin n)) (nd₁ : Node n), nd₁.Good G → edges.Nodup →
      (∀ e ∈ edges, G.Adj nd₁.rank e) →
      Shows G nd₁ (nd₁.view.sendAll edges (nd₁.rank, body))
        (edges.foldlM (fun nd edge =>
          sendMessage (calls (k + 1)) nd edge
            { ttl := n, destinationRank := edge, id := 0, sourceRank := nd.rank,
              diagnosticSource := nd.rank, broadcast := true, body := body } nd.rank) nd₁) := by
    intro edges
    induction edges with
    | nil =>
      intro nd₁ h₁ _ _
      exact ⟨nd₁, rfl, h₁, .refl _, by simp [sendAll]⟩
    | cons edge edges ih =>
      intro nd₁ h₁ hnodup hadj
      obtain ⟨hnot, hnodup⟩ := nodup_cons.mp hnodup
      have hedge := hadj edge (by simp)
      obtain ⟨nd₂, hsend, h₂, hs₂, hv₂⟩ := shows_sendMessage h₁ k
        { ttl := n, destinationRank := edge, id := 0, sourceRank := nd₁.rank,
          diagnosticSource := nd₁.rank, broadcast := true, body := body }
        rfl ⟨hedge, hr, fun hb => (by cases hb), fun _ => ⟨rfl, by simp⟩⟩ nd₁.rank
      have hrest := ih nd₂ h₂ hnodup fun e he => by
        rw [hs₂.rank]
        exact hadj e (by simp [he])
      rw [foldlM_cons, hsend]
      rw [sendAll_cons _ hnot, ← hv₂, ← hs₂.rank]
      exact hrest.trans hs₂
  have hq : (nd.record (.broadcast body)).Good G :=
    ⟨h.routed.of_sameTables ⟨rfl, rfl, rfl⟩, h.outbox, h.pending⟩
  have hview : (nd.record (.broadcast body)).view =
      { nd.view with calls := nd.view.calls ++ [body] } := by
    simp [view, record, sentTo, Event.call?, Event.payload?]
  have := hfold nd.edgePeers _ hq h.routed.nodup fun e he => (h.routed.peers e).mp he
  rw [hview] at this
  have hs : nd.SameTables (nd.record (.broadcast body)) := ⟨rfl, rfl, rfl⟩
  exact this.trans hs

/-- The view after `forwardBroadcast`: the connected neighbours that asked for the source get
the payload, and those that have never connected have it kept for them. -/
def View.forward (v : View n) (edges : List (Fin n)) (sender : Fin n)
    (payload : Fin n × Body n) : View n :=
  { v with
    sent := fun e =>
      if e ∈ edges ∧ e ≠ sender ∧ v.connected e = true ∧ v.forwardFor e payload.1 = true then
        v.sent e ++ [payload]
      else v.sent e
    pending := fun e =>
      if e ∈ edges ∧ e ≠ sender ∧ v.connected e = false then v.pending e ++ [payload]
      else v.pending e }

/-- The view after one iteration of the loop of `forwardBroadcast`. -/
def View.forwardTo (v : View n) (sender : Fin n) (payload : Fin n × Body n) (edge : Fin n) :
    View n :=
  if edge = sender then v
  else if v.connected edge then
    if v.forwardFor edge payload.1 then v.send edge payload else v
  else { v with pending := update v.pending edge (v.pending edge ++ [payload]) }

theorem View.forward_cons (v : View n) (hnot : edge ∉ edges)
    (sender : Fin n) (payload : Fin n × Body n) : v.forward (edge :: edges) sender payload =
      (v.forwardTo sender payload edge).forward edges sender payload := by
  have hconn : (v.forwardTo sender payload edge).connected = v.connected := by
    unfold forwardTo
    split_ifs <;> rfl
  have hfor : (v.forwardTo sender payload edge).forwardFor = v.forwardFor := by
    unfold forwardTo
    split_ifs <;> rfl
  have hcalls : (v.forwardTo sender payload edge).calls = v.calls := by
    unfold forwardTo
    split_ifs <;> rfl
  have hproc : (v.forwardTo sender payload edge).processed = v.processed := by
    unfold forwardTo
    split_ifs <;> rfl
  simp only [forward, hconn, hfor, hcalls, hproc]
  congr 1
  · funext e
    by_cases he : e = edge
    · subst he
      simp only [mem_cons, true_or, true_and, hnot, false_and, if_false, forwardTo]
      split_ifs <;> simp_all [send]
    · have hsent : (v.forwardTo sender payload edge).sent e = v.sent e := by
        unfold forwardTo
        split_ifs <;> simp [send, update_of_ne he]
      simp [he, hsent]
  · funext e
    by_cases he : e = edge
    · subst he
      simp only [mem_cons, true_or, true_and, hnot, false_and, if_false, forwardTo]
      split_ifs <;> simp_all [send]
    · have hpend : (v.forwardTo sender payload edge).pending e = v.pending e := by
        unfold forwardTo
        split_ifs <;> simp [send, update_of_ne he]
      simp [he, hpend]

theorem shows_forwardBroadcastTo (h : nd.Good G) (k : ℕ) {S sender : Fin n} (buffer : Message n)
    (hb : buffer.broadcast = true) (hS : buffer.sourceRank = S)
    (ht : { buffer with destinationRank := edge }.InTransit G nd.rank edge) :
    Shows G nd (nd.view.forwardTo sender (S, buffer.body) edge)
      (forwardBroadcastTo (calls (k + 1)) S buffer sender nd edge) := by
  subst hS
  simp only [forwardBroadcastTo, forwardTo]
  by_cases hsender : edge = sender
  · simp only [hsender, if_true]
    exact ⟨nd, rfl, h, .refl _, rfl⟩
  rw [if_neg hsender, if_neg hsender]
  have hview : nd.view.connected edge = (nd.edgeInfo edge).everConnected := rfl
  have hview' : nd.view.forwardFor edge = (nd.edgeInfo edge).broadcastForwardFor := rfl
  rw [hview, hview']
  cases hconn : (nd.edgeInfo edge).everConnected with
  | true =>
    cases hfor : (nd.edgeInfo edge).broadcastForwardFor buffer.sourceRank with
    | true =>
      simpa using shows_sendMessage h k { buffer with destinationRank := edge } hb ht nd.rank
    | false => simpa using ⟨nd, rfl, h, .refl _, rfl⟩
  | false =>
    -- the neighbour has never connected: the broadcast is kept for it
    simp only [Bool.false_and, Bool.false_eq_true, if_false, Bool.not_false, if_true]
    refine ⟨_, rfl, ⟨h.routed.of_sameTables ⟨rfl, rfl, rfl⟩, h.outbox, ?_⟩, ⟨rfl, rfl, rfl⟩, ?_⟩
    · intro e p hp
      by_cases he : e = edge
      · subst he
        simp only [modifyEdge, update_self, mem_append, mem_singleton] at hp
        rcases hp with hp | rfl
        · exact h.pending e p hp
        · exact ⟨hb, rfl, ht⟩
      · exact h.pending e p (by simpa [modifyEdge, update_of_ne he] using hp)
    · rw [view_modifyEdge]
      simp [view]

theorem forwardBroadcast_view (h : nd.Good G) (k : ℕ) {original : Message n} (sender : Fin n)
    (hb : original.broadcast = true) (httl : original.ttl ≠ 0) (ht : ∀ edge, G.Adj nd.rank edge →
      { original with ttl := original.ttl - 1, destinationRank := edge }.InTransit G
        nd.rank edge) :
    Shows G nd
      (nd.view.forward nd.edgePeers sender (original.sourceRank, original.body))
      (forwardBroadcast (calls (k + 1)) nd original.sourceRank original sender) := by
  rw [forwardBroadcast, if_neg httl]
  set buffer : Message n := { original with ttl := original.ttl - 1 } with hbuffer
  have hfold : ∀ (edges : List (Fin n)) (nd₁ : Node n), nd₁.Good G → edges.Nodup →
      (∀ e ∈ edges, { buffer with destinationRank := e }.InTransit G nd₁.rank e) →
      Shows G nd₁ (nd₁.view.forward edges sender (original.sourceRank, original.body))
        (edges.foldlM (forwardBroadcastTo (calls (k + 1)) original.sourceRank buffer sender)
          nd₁) := by
    intro edges
    induction edges with
    | nil =>
      intro nd₁ h₁ _ _
      exact ⟨nd₁, rfl, h₁, .refl _, by simp [forward]⟩
    | cons edge edges ih =>
      intro nd₁ h₁ hnodup hin
      obtain ⟨hnot, hnodup⟩ := nodup_cons.mp hnodup
      obtain ⟨nd₂, hsend, h₂, hs₂, hv₂⟩ :=
        shows_forwardBroadcastTo h₁ k buffer hb rfl (hin edge (by simp))
      have hrest := ih nd₂ h₂ hnodup fun e he => by
        rw [hs₂.rank]
        exact hin e (by simp [he])
      rw [foldlM_cons, hsend, forward_cons _ hnot]
      rw [hv₂] at hrest
      exact hrest.trans hs₂
  exact hfold nd.edgePeers nd h h.routed.nodup fun e he => ht e ((h.routed.peers e).mp he)

/-- The view after a neighbour has connected and announced the ranks in `ranks`. -/
def View.connect (v : View n) (edge : Fin n) (ranks : List (Fin n)) : View n :=
  let forwardFor := fun r => decide (r ∈ ranks) || v.forwardFor edge r
  { v with
    sent := update v.sent edge
      (v.sent edge ++ (v.pending edge).filter fun p => forwardFor p.1)
    pending := update v.pending edge []
    connected := update v.connected edge true
    forwardFor := update v.forwardFor edge forwardFor }

/-- The loop of `replayPendingBroadcasts`. -/
theorem shows_replay (h : nd.Good G) (k : ℕ) (l : List (Fin n × Message n))
    (hl : ∀ p ∈ l, p.2.broadcast = true ∧ p.2.sourceRank = p.1 ∧ p.2.InTransit G nd.rank edge) :
    Shows G nd
      { nd.view with
        sent := update nd.view.sent edge (nd.view.sent edge ++
          (l.map fun p => (p.1, p.2.body)).filter fun p => nd.view.forwardFor edge p.1) }
      (l.foldlM
        (fun nd pending =>
          if (nd.edgeInfo edge).broadcastForwardFor pending.1 then
            sendMessage (calls (k + 1)) nd edge pending.2 nd.rank
          else .ok nd)
        nd) := by
  induction l generalizing nd with
  | nil => exact ⟨nd, rfl, h, .refl _, by simp⟩
  | cons p l ih =>
    obtain ⟨hb, hS, ht⟩ := hl p (by simp)
    have hl' : ∀ q ∈ l, q.2.broadcast = true ∧ q.2.sourceRank = q.1 ∧
        q.2.InTransit G nd.rank edge := fun q hq => hl q (by simp [hq])
    rw [foldlM_cons]
    cases hfor : (nd.edgeInfo edge).broadcastForwardFor p.1 with
    | false =>
      have hview : nd.view.forwardFor edge p.1 = false := hfor
      simpa [hview] using ih h hl'
    | true =>
      have hview : nd.view.forwardFor edge p.1 = true := hfor
      obtain ⟨nd₂, hsend, h₂, hs₂, hv₂⟩ := shows_sendMessage h k p.2 hb ht nd.rank
      have hrest := ih h₂ fun q hq => by
        rw [hs₂.rank]
        exact hl' q hq
      rw [if_pos rfl, hsend]
      rw [hv₂, hS] at hrest
      simpa [hview, send] using hrest.trans hs₂

/-- Connecting replays what was kept, as far as the neighbour asks for it. -/
theorem onConnect_view (h : nd.Good G) (k : ℕ) (hadj : G.Adj nd.rank edge) (ranks : List (Fin n)) :
    Shows G nd (nd.view.connect edge ranks) (onConnect (calls (k + 1)) nd edge ranks) := by
  rw [onConnect, if_pos ((h.routed.peers edge).mpr hadj)]
  set nd₁ := nd.modifyEdge edge fun pi =>
    { pi with
      everConnected := true
      broadcastForwardFor := fun r => decide (r ∈ ranks) || pi.broadcastForwardFor r }
    with hnd₁
  have hpend : ∀ e, (nd₁.edgeInfo e).pendingBroadcasts =
      (nd.edgeInfo e).pendingBroadcasts := by
    intro e
    by_cases he : e = edge
    · subst he
      simp [hnd₁, modifyEdge]
    · simp [hnd₁, modifyEdge, update_of_ne he]
  have hs₁ : nd.SameTables nd₁ := ⟨rfl, rfl, rfl⟩
  have h₁ : nd₁.Good G := by
    refine ⟨h.routed.of_sameTables hs₁, h.outbox, fun e p hp => ?_⟩
    rw [hpend] at hp
    exact h.pending e p hp
  obtain ⟨nd₂, hfold, h₂, hs₂, hv₂⟩ :=
    shows_replay h₁ k (nd₁.edgeInfo edge).pendingBroadcasts (h₁.pending edge)
  have hv₁ := nd.view_modifyEdge edge fun pi =>
    { pi with
      everConnected := true
      broadcastForwardFor := fun r => decide (r ∈ ranks) || pi.broadcastForwardFor r }
  rw [← hnd₁] at hv₁
  refine ⟨nd₂.modifyEdge edge fun pi => { pi with pendingBroadcasts := [] }, ?_, ?_, ?_, ?_⟩
  · rw [replayPendingBroadcasts, hfold]
    rfl
  · refine ⟨h₂.routed.of_sameTables ⟨rfl, rfl, rfl⟩, h₂.outbox, fun e p hp => ?_⟩
    by_cases he : e = edge
    · subst he
      simp [modifyEdge] at hp
    · exact h₂.pending e p (by simpa [modifyEdge, update_of_ne he] using hp)
  · exact hs₁.trans (hs₂.trans ⟨rfl, rfl, rfl⟩)
  · have hclear : (nd₂.modifyEdge edge fun pi => { pi with pendingBroadcasts := [] }).view =
        { nd₂.view with pending := update nd₂.view.pending edge [] } := by
      rw [view_modifyEdge]
      simp [view]
    rw [hclear, hv₂, hpend edge, hv₁]
    simp [connect, view]

def Node.started (nd : Node n) (body : Body n) : Option (Body n) :=
  match body with
  | .exit origin => if nd.exited then none else some (.exit origin)
  | _ => none

def View.start (v : View n) (rank : Fin n) (edges : List (Fin n)) : Option (Body n) → View n
  | none => v
  | some body => { v with calls := v.calls ++ [body] }.sendAll edges (rank, body)

theorem foldl_exitWait_eq (l : List (Sigma fun _ : UInt32 => ℕ)) (nd : Node n) :
    ∃ objects, l.foldl
      (fun nd e => nd.modifyWait e.2 (exitWait nd.rank nd.exitSourceRank)) nd =
        { nd with waitObjects := objects } := by
  induction l generalizing nd with
  | nil => exact ⟨nd.waitObjects, rfl⟩
  | cons e l ih =>
    obtain ⟨objects, h⟩ := ih (nd.modifyWait e.2 (exitWait nd.rank nd.exitSourceRank))
    exact ⟨objects, by rw [foldl_cons, h]; rfl⟩

theorem Node.Good.quiet_enterExit (h : nd.Good G) (origin : Fin n) :
    Quiet G nd (nd.enterExit origin) := by
  obtain ⟨objects, hobjects⟩ := foldl_exitWait_eq nd.waits.entries
    { nd with
      exitSourceRank :=
        if !nd.shuttingDown && nd.exitSourceRank.isNone then some origin
        else nd.exitSourceRank
      exited := true }
  rw [enterExit, hobjects]
  exact h.quiet_of_state ⟨rfl, rfl, rfl⟩ rfl rfl rfl

theorem processExit_view (h : nd.Good G) (k : ℕ) (source origin : Fin n) :
    Shows G nd (nd.view.start nd.rank nd.edgePeers (nd.started (.exit origin)))
      (processExit (calls (k + 1)) nd source origin) := by
  simp only [processExit, started]
  set nd₁ : Node n := { nd with
    shutdownStates := update nd.shutdownStates source
      { nd.shutdownStates source with exited := true } }
  have hq₁ : Quiet G nd nd₁ := h.quiet_of_state ⟨rfl, rfl, rfl⟩ rfl rfl rfl
  by_cases hexited : nd.exited = true
  · rw [if_pos hexited, if_pos hexited]
    exact ⟨nd₁, rfl, hq₁.good, hq₁.tables, hq₁.view⟩
  · rw [if_neg hexited, if_neg hexited]
    have hq := hq₁.trans (hq₁.good.quiet_enterExit origin)
    have := broadcastMessage_view hq.good k (.exit origin) (fun _ h => by cases h)
    rw [hq.view, hq.tables.rank, hq.tables.edgePeers] at this
    exact this.trans hq.tables

theorem processBody_view (h : nd.Good G) (hlt : ∀ u v, G.dist u v < n) (k : ℕ)
    (hr : msg.body.Readable) :
    Shows G nd (nd.view.start nd.rank nd.edgePeers (nd.started msg.body))
      (processBody (calls (k + 1)) nd msg) := by
  by_cases hexit : ∃ origin, msg.body = .exit origin
  · obtain ⟨origin, hbody⟩ := hexit
    rw [processBody, hbody]
    exact processExit_view h k msg.sourceRank origin
  · have hne : ∀ origin, msg.body ≠ .exit origin := fun origin hb => hexit ⟨origin, hb⟩
    have hstart : nd.started msg.body = none := by
      unfold started
      split
      · next origin hb => exact absurd hb (hne origin)
      · rfl
    rw [hstart]
    exact (keeps_processBody h hlt k hr hne).shows

end Store
