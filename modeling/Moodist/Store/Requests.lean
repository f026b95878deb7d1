import Moodist.Store.KeyValue

/-!
# The handlers follow the key-value protocol

What a handler does to the key-value operations, seen as steps of `Store.KV`. A message of
the store is a packet of the protocol or nothing to it. `KV.overlay` puts one rank, with the
messages it has not sent yet, into a state of the protocol.

A reply to an operation of the same rank is processed inside the call that sends it. In the
protocol it is sent first and taken at once.
-/

namespace Store

open Foundation List Function Node
open Prod (fst snd)

variable {n : ℕ} {G : SimpleGraph (Fin n)} {nd nd' : Node n}

def Message.packet? (m : Message n) : Option (Packet n) :=
  match m.body with
  | .set key value => some (.request (m.sourceRank, m.id) (.set value) key)
  | .get key => some (.request (m.sourceRank, m.id) .get key)
  | .check key => some (.request (m.sourceRank, m.id) .check key)
  | .wait key => some (.request (m.sourceRank, m.id) .wait key)
  | .done payload => some (.reply (m.destinationRank, m.id) payload)
  | _ => none

variable {op : Op} {key : Key}

theorem Message.packet?_of_body {m : Message n} (h : m.body = op.body n key) :
    m.packet? = some (.request (m.sourceRank, m.id) op key) := by
  cases op <;> simp [Message.packet?, h, Op.body]

/-- A message of a store that has not been shut down. A request goes to the owner of its
key. -/
def Message.IsClient (m : Message n) : Prop :=
  m.broadcast = false ∧
    ((∃ op key, m.body = Op.body n op key ∧ m.destinationRank = storeRank m.sourceRank key) ∨
      (∃ payload, m.body = .done payload) ∨ ∃ addrs, m.body = .diagnosticSource addrs)

def Node.readers (nd : Node n) (key : Key) : List (Reader n) :=
  ((nd.storeWaiters.lookup key).getD []).map fun w => ⟨w.messageType, (w.sourceRank, w.id)⟩

/-- A rank that has seen no shutdown. Readers only wait for keys without a value. -/
structure Node.ClientOnly (nd : Node n) : Prop where
  outbox : ∀ p ∈ nd.outbox, p.2.IsClient
  pending : ∀ edge, (nd.edgeInfo edge).pendingBroadcasts = []
  running : nd.exited = false
  blocked : ∀ key, nd.readers key ≠ [] → nd.store.lookup key = none

theorem pair_cases {α β : Type*} (p : α × β) (a : α) (b : β) :
    p = (a, b) ∨ (p ≠ (a, b) ∧ p.1 = a ∧ p.2 ≠ b) ∨ (p ≠ (a, b) ∧ p.1 ≠ a) := by
  by_cases ha : p.1 = a
  · by_cases hb : p.2 = b
    · exact .inl (Prod.ext ha hb)
    · exact .inr (.inl ⟨fun he => hb (congrArg snd he), ha, hb⟩)
  · exact .inr (.inr ⟨fun he => ha (congrArg fst he), ha⟩)

namespace KV

/-- A state of the protocol in which one rank, with its outbox, is this one. -/
def overlay (K : KV n) (nd : Node n) : KV n where
  waits c := if c.1 = nd.rank then nd.waits.lookup c.2 else K.waits c
  objects := Function.update K.objects nd.rank nd.waitObjects
  ops := K.ops
  network := (nd.outbox.filterMap fun p => p.2.packet?) + K.network
  store p := if p.1 = nd.rank then nd.store.lookup p.2 else K.store p
  waiting p := if p.1 = nd.rank then nd.readers p.2 else K.waiting p
  log := K.log

end KV

/-- The effect of `sendMessage` on the protocol. -/
theorem KV.overlay_post (K : KV n) (edge ds : Fin n) (msg : Message n) :
    K.overlay (nd.post edge msg ds) = (K.overlay nd).emits msg.packet?.toList := by
  have hdiag : (nd.diagnosticMessages edge ds).filterMap (fun p => p.2.packet?) = [] := by
    rw [diagnosticMessages]
    split <;> rfl
  ext1
  · rfl
  · rfl
  · rfl
  · have hmsg : [(edge, msg)].filterMap (fun p => p.2.packet?) = msg.packet?.toList := by
      cases h : msg.packet? <;> simp [h]
    simp only [overlay, post, emits, filterMap_append, hdiag, nil_append, hmsg, ← Multiset.coe_add]
    abel
  · rfl
  · rfl
  · rfl

variable {msg : Message n} {payload : List UInt8} {nd₁ : Node n} {id : UInt32}

theorem Node.ClientOnly.post (h : nd.ClientOnly) (hmsg : msg.IsClient) (edge ds : Fin n) :
    (nd.post edge msg ds).ClientOnly := by
  refine { h with outbox := ?_, pending := ?_ }
  · intro p hp
    simp only [Node.post, mem_append, mem_singleton] at hp
    rcases hp with hp | hp | rfl
    · exact h.outbox p hp
    · rw [Node.diagnosticMessages] at hp
      split at hp
      · cases hp
      · obtain rfl := mem_singleton.mp hp
        exact ⟨rfl, .inr (.inr ⟨_, rfl⟩)⟩
    · exact hmsg
  · intro e
    rcases eq_or_ne e edge with rfl | he
    · simpa [Node.post] using h.pending e
    · simpa [Node.post, update_of_ne he] using h.pending e

/-! ## Replies -/

def Event.IsReply (e : Event n) : Prop :=
  ∃ msg payload, e = .process msg ∧ msg.body = .done payload

/-- An operation in flight keeps its object until it is finished. -/
def Node.Finishes (nd nd' : Node n) : Prop :=
  ∀ id, nd'.waits.lookup id = nd.waits.lookup id ∨ nd'.waits.lookup id = none

theorem Node.Finishes.trans (h : nd.Finishes nd₁) (h' : nd₁.Finishes nd') :
    nd.Finishes nd' := by
  intro id
  rcases h' id with heq | hnone
  · rw [heq]
    exact h id
  · exact .inr hnone

/-- The effect of a handler that sends these replies, and processes those to its own rank. -/
structure Replies (nd nd' : Node n) (ps : List (Packet n)) : Prop where
  tables : nd.SameTables nd'
  store : nd.SameStore nd'
  client : nd.ClientOnly → nd'.ClientOnly
  waits : nd.Finishes nd'
  trace : ∃ evs, nd'.trace = nd.trace ++ evs ∧ ∀ e ∈ evs, e.IsReply
  finishes : ∀ K : KV n, KV.Finishes ((K.overlay nd).emits ps) (K.overlay nd')

theorem Node.SameStore.readers (h : nd.SameStore nd') (key : Key) :
    nd'.readers key = nd.readers key := by
  rw [Node.readers, Node.readers, h.storeWaiters]

theorem Replies.refl (nd : Node n) : Replies nd nd [] := by
  refine ⟨.refl nd, ⟨rfl, rfl, rfl⟩, id, fun _ => .inl rfl, ⟨[], by simp, by simp⟩, fun K => ?_⟩
  rw [KV.emits_nil]

theorem Replies.trans {ps ps' : List (Packet n)} (h : Replies nd nd₁ ps)
    (h' : Replies nd₁ nd' ps') : Replies nd nd' (ps ++ ps') := by
  obtain ⟨evs, htrace, hevs⟩ := h.trace
  obtain ⟨evs', htrace', hevs'⟩ := h'.trace
  refine ⟨h.tables.trans h'.tables, ?_, h'.client ∘ h.client, h.waits.trans h'.waits,
    ⟨evs ++ evs', ?_, ?_⟩, fun K => ?_⟩
  · exact ⟨h'.store.store.trans h.store.store, h'.store.storeVersion.trans h.store.storeVersion,
      h'.store.storeWaiters.trans h.store.storeWaiters⟩
  · rw [htrace', htrace, append_assoc]
  · intro e he
    rcases mem_append.mp he with he | he
    · exact hevs e he
    · exact hevs' e he
  · rw [KV.emits_append]
    exact ((h.finishes K).emits ps').trans (h'.finishes K)

/-- What a rank does with a reply to itself. -/
theorem processDone_effect (h : processDone nd id payload = .ok nd') :
    nd.SameTables nd' ∧ nd.SameStore nd' ∧ (nd.ClientOnly → nd'.ClientOnly) ∧
      nd.Finishes nd' ∧ nd'.trace = nd.trace ∧ ∃ fields, readDone payload = .ok fields ∧
        ∀ K : KV n, K.overlay nd' = (K.overlay nd).finish (nd.rank, id) fields := by
  have hstore := sameStore_processDone h
  rw [processDone] at h
  obtain ⟨fields, hread, h⟩ := except_bind_eq_ok.mp h
  cases hw : nd.waits.lookup id with
  | none =>
    rw [hw] at h
    cases h
    refine ⟨.refl _, hstore, fun h => h, fun _ => .inl rfl, rfl, fields, hread, fun K => ?_⟩
    simp [KV.finish, KV.overlay, hw]
  | some w =>
    rw [hw] at h
    cases h
    refine ⟨⟨rfl, rfl, rfl⟩, hstore, fun h => { h with }, fun id' => ?_, rfl, fields, hread,
      fun K => ?_⟩
    · rcases eq_or_ne id' id with rfl | hid
      · exact .inr (AList.lookup_erase _ _)
      · exact .inl (AList.lookup_erase_ne hid)
    simp only [KV.finish, KV.overlay, if_true, hw]
    ext1
    · funext c
      obtain rfl | ⟨hc, hr, hid⟩ | ⟨hc, hr⟩ := pair_cases c nd.rank id
      · simp [modifyWait, AList.lookup_erase]
      · simp [modifyWait, hr, update_of_ne hc, AList.lookup_erase_ne hid]
      · simp [modifyWait, hr, update_of_ne hc]
    · simp [modifyWait]
    · rfl
    · rfl
    · rfl
    · rfl
    · rfl

variable {k : ℕ} {value data : Value} {w : Waiter n} {c : Client n}

/-- A reply goes to the network, or is taken at once. -/
theorem replies_sendMessageTo (h : nd.Routed G) {dest ds : Fin n}
    (hsend : sendMessageTo (calls (k + 1)) nd dest id ds (.done payload) = .ok nd') :
    Replies nd nd' [.reply (dest, id) payload] := by
  by_cases hne : dest = nd.rank
  · subst hne
    rw [sendMessageTo_self h] at hsend
    set msg : Message n :=
      { ttl := n, destinationRank := nd.rank, id := id, sourceRank := nd.rank,
        diagnosticSource := ds, broadcast := false, body := .done payload } with hmsg
    have hdone : processDone (nd.record (.process msg)) id payload = .ok nd' := by
      simpa [calls, processMessage, processBody, hmsg, pure, Except.pure] using hsend
    obtain ⟨ht, hs, hc, hw, htrace, fields, hread, hover⟩ := processDone_effect hdone
    refine ⟨⟨ht.rank, ht.firsthop, ht.edgePeers⟩, ⟨hs.store, hs.storeVersion, hs.storeWaiters⟩,
      fun hclient => hc { hclient with }, hw, ⟨[.process msg], htrace, ?_⟩, fun K => ?_⟩
    · intro e he
      obtain rfl := mem_singleton.mp he
      exact ⟨msg, payload, rfl, rfl⟩
    · rw [hover, KV.emits_singleton]
      exact .single (.mk hread)
  · obtain ⟨f, hf, -, -⟩ := h.hops.hop dest hne
    rw [sendMessageTo_eq h k hne hf] at hsend
    cases hsend
    refine ⟨nd.sameTables_post f _ ds, ⟨rfl, rfl, rfl⟩, fun hclient => ?_, fun _ => .inl rfl,
      ⟨[], ?_, ?_⟩, fun K => ?_⟩
    · exact hclient.post ⟨rfl, .inr (.inl ⟨payload, rfl⟩)⟩ f ds
    · simp [post]
    · simp
    · rw [KV.overlay_post]
      exact .refl

theorem replies_answerWaiter (h : nd.Routed G)
    (hr : answerWaiter (calls (k + 1)) data nd w = .ok nd') :
    Replies nd nd' [Reader.reply ⟨w.messageType, (w.sourceRank, w.id)⟩ data] := by
  rw [answerWaiter] at hr
  cases hkind : w.messageType with
  | get | wait =>
    rw [hkind] at hr
    exact replies_sendMessageTo h hr

theorem replies_answerWaiters (h : nd.Routed G) {ws : List (Waiter n)}
    (hr : ws.foldlM (answerWaiter (calls (k + 1)) data) nd = .ok nd') :
    Replies nd nd' (ws.map fun w => Reader.reply ⟨w.messageType, (w.sourceRank, w.id)⟩ data) := by
  induction ws generalizing nd with
  | nil =>
    cases hr
    exact .refl _
  | cons w ws ih =>
    obtain ⟨nd₁, hw, hr⟩ := except_bind_eq_ok.mp hr
    have hfirst := replies_answerWaiter h hw
    exact hfirst.trans (ih (h.of_sameTables hfirst.tables) hr)

/-! ## Requests -/

/-- The effect of a request at the owner of its key: some steps of the protocol, of which
the first uses the request. A set answers all readers of its key, and other requests
leave the readers waiting. -/
structure Serves (nd nd' : Node n) (c : Client n) (op : Op) (key : Key) : Prop where
  tables : nd.SameTables nd'
  client : nd'.ClientOnly
  waits : nd.Finishes nd'
  trace : ∃ evs, nd'.trace = nd.trace ++ evs ∧ ∀ e ∈ evs, e.IsReply
  kept : ∀ key', (∀ v, op = .set v → key' ≠ key) → nd.readers key' <+: nd'.readers key'
  emptied : ∀ v, op = .set v → nd'.readers key = []
  reach : ∀ K : KV n, ∃ log,
    KV.Reach ((K.overlay nd).emit (.request c op key)) ({ K with log := log }.overlay nd') ∧
      ∀ v, op = .set v → ∀ x ∈ nd.readers key,
        ((K.overlay nd).operation x.client x.kind.op key, x.kind.result v) ∈ log

theorem KV.overlay_store (K : KV n) {r : Fin n} (h : storeRank r key = nd.rank) :
    (K.overlay nd).store (place r key) = nd.store.lookup key := by
  simp [overlay, place, h]

/-- A request that is answered at once and leaves the store as it is. -/
theorem Replies.serves {res : Result} (h : Replies nd nd' [.reply c res.payload])
    (hclient : nd.ClientOnly) (hown : storeRank c.1 key = nd.rank) (hop : ∀ v, op ≠ .set v)
    (hres : register (nd.store.lookup key) op = some (res, nd.store.lookup key)) :
    Serves nd nd' c op key := by
  refine ⟨h.tables, h.client hclient, h.waits, h.trace, fun key' _ => ?_,
    fun v hv => absurd hv (hop v),
    fun K => ⟨K.log ++ [((K.overlay nd).operation c op key, res)], ?_,
      fun v hv => absurd hv (hop v)⟩⟩
  · rw [h.store.readers]
  · rw [← K.overlay_store hown] at hres
    have hcommit : (K.overlay nd).commit c op key res ((K.overlay nd).store (place c.1 key)) =
        ({ K with log := K.log ++ [((K.overlay nd).operation c op key, res)] } : KV n).overlay
          nd := by
      rw [KV.commit, update_eq_self]
      rfl
    have hstep := KV.Step.commit (c := c) hres
    rw [hcommit] at hstep
    have hfin := h.finishes { K with log := K.log ++ [((K.overlay nd).operation c op key, res)] }
    rw [KV.emits_singleton] at hfin
    exact .head hstep hfin.reach

/-- The state of the owner after a value is set and its readers are taken out. -/
def Node.put (nd : Node n) (key : Key) (value : Value) : Node n :=
  { nd with
    store := nd.store.insert key value
    storeVersion := nd.storeVersion + 1
    storeWaiters := nd.storeWaiters.erase key }

theorem Node.readers_put (key key' : Key) (value : Value) :
    (nd.put key value).readers key' = if key' = key then [] else nd.readers key' := by
  by_cases hk : key' = key
  · subst hk
    simp [readers, put]
  · simp [readers, put, hk, AList.lookup_erase_ne hk]

theorem Node.ClientOnly.put (h : nd.ClientOnly) (key : Key) (value : Value) :
    (nd.put key value).ClientOnly := by
  refine { h with blocked := fun key' hne => ?_ }
  rw [readers_put] at hne
  by_cases hk : key' = key
  · rw [if_pos hk] at hne
    exact absurd rfl hne
  · rw [if_neg hk] at hne
    show (nd.store.insert key value).lookup key' = none
    rw [AList.lookup_insert_ne hk]
    exact h.blocked key' hne

/-- The protocol's view of a set: it takes effect, and then all readers do. -/
theorem KV.reach_put (K : KV n) (value : Value) (hown : storeRank c.1 key = nd.rank) :
    ∃ log, Reach ((K.overlay nd).emit (.request c (.set value) key))
        (({ K with log := log }.overlay (nd.put key value)).emits
          ((nd.readers key).map (fun x : Reader n => x.reply value) ++ [Packet.reply c []])) ∧
      ∀ x ∈ nd.readers key,
        ((K.overlay nd).operation x.client x.kind.op key, x.kind.result value) ∈ log := by
  set A := K.overlay nd with hA
  have hplace : ∀ r, place r key = (nd.rank, key) := fun r => by rw [← hown]; rfl
  have hstep : Step (A.emit (.request c (.set value) key))
      ((A.commit c (.set value) key .done (some value)).emit (.reply c [])) := .commit rfl
  set B := (A.commit c (.set value) key .done (some value)).emit (.reply c []) with hB
  have hwait : B.waiting (nd.rank, key) = nd.readers key := by
    simp [hB, hA, emit, commit, overlay]
  have hstore : B.store (nd.rank, key) = some value := by
    simp [hB, emit, commit, hplace]
  have hwake := wakeAll_reach hwait hstore fun x _ => (hplace x.client.1).symm
  refine ⟨(B.wakeAll (nd.rank, key) value (nd.readers key)).log, ?_, ?_⟩
  · refine .head hstep (Eq.subst (motive := Reach B) ?_ hwake)
    ext1
    · rfl
    · rfl
    · rfl
    · simp only [wakeAll, emits, hB, emit, commit, hA, overlay, put,
        ← Multiset.coe_add, Multiset.coe_singleton, add_assoc, Multiset.singleton_add]
    · funext p
      simp only [wakeAll, emits, hB, emit, commit, hA, overlay, put, hplace]
      obtain rfl | ⟨hp, hr, hk⟩ | ⟨hp, hr⟩ := pair_cases p nd.rank key
      · simp
      · simp [update_of_ne hp, AList.lookup_insert_ne hk]
      · simp [update_of_ne hp, hr]
    · funext p
      have hread := nd.readers_put key p.2 value
      simp only [wakeAll, emits, hB, emit, commit, hA, overlay, hread]
      show _ = if p.1 = nd.rank then _ else _
      obtain rfl | ⟨hp, hr, hk⟩ | ⟨hp, hr⟩ := pair_cases p nd.rank key
      · simp
      · simp [update_of_ne hp, hr, hk]
      · simp [update_of_ne hp, hr]
    · rfl
  · intro x hx
    refine mem_append_right _ (mem_map.mpr ⟨x, hx, ?_⟩)
    rfl

/-- After `internalStoreSetValue` the replies to all readers have been sent. -/
theorem replies_internalStoreSetValue (h : nd.Routed G)
    (hr : internalStoreSetValue (calls (k + 1)) nd key value = .ok nd') :
    ∃ nd₁, Replies nd₁ nd' ((nd.readers key).map fun x => x.reply value) ∧
      nd.SameTables nd₁ ∧ nd₁.trace = nd.trace ∧ nd₁.waits = nd.waits ∧
      (nd.ClientOnly → nd₁.ClientOnly) ∧
      (∀ key', nd₁.readers key' = (nd.put key value).readers key') ∧
      ∀ K : KV n, K.overlay nd₁ = K.overlay (nd.put key value) := by
  rw [internalStoreSetValue] at hr
  simp only at hr
  split at hr
  · next hnone =>
    set nd₁ : Node n :=
      { nd with store := nd.store.insert key value, storeVersion := nd.storeVersion + 1 }
      with hnd₁
    have hreaders : ∀ key', nd₁.readers key' = (nd.put key value).readers key' := by
      intro key'
      rw [readers_put]
      by_cases hk : key' = key
      · subst hk
        simp [readers, hnd₁, hnone]
      · rw [if_neg hk]
        rfl
    obtain rfl := Except.ok.inj hr
    refine ⟨nd₁, ?_, ⟨rfl, rfl, rfl⟩, rfl, rfl, fun hclient => ?_, hreaders, fun K => ?_⟩
    · simpa [readers, hnone] using Replies.refl nd₁
    · have hput := hclient.put key value
      exact { hput with blocked := fun key' hne => hput.blocked key' (by rwa [hreaders] at hne) }
    · ext1
      · rfl
      · rfl
      · rfl
      · rfl
      · rfl
      · funext p
        simp only [KV.overlay, hreaders]
        rfl
      · rfl
  · next vec hvec =>
    change (vec.foldlM (answerWaiter (calls (k + 1)) value) (nd.put key value) >>= fun nd₂ =>
      if nd₂.storeVersion = nd.storeVersion + 1 then pure nd₂ else throw .storeMoved) = _ at hr
    obtain ⟨nd₂, hfold, hr⟩ := except_bind_eq_ok.mp hr
    have htables : nd.SameTables (nd.put key value) := ⟨rfl, rfl, rfl⟩
    have hreplies := replies_answerWaiters (h.of_sameTables htables) hfold
    have hlist : vec.map (fun w => Reader.reply ⟨w.messageType, (w.sourceRank, w.id)⟩ value) =
        (nd.readers key).map fun x => x.reply value := by
      simp [readers, hvec]
    rw [hlist] at hreplies
    split at hr
    · cases hr
      exact ⟨_, hreplies, ⟨rfl, rfl, rfl⟩, rfl, rfl, fun hc => hc.put key value, fun _ => rfl,
        fun _ => rfl⟩
    · cases hr

theorem serves_set (h : nd.Good G) (hlt : ∀ u v, G.dist u v < n)
    (hbody : msg.body = .set key value) (hclient : nd.ClientOnly)
    (hown : storeRank msg.sourceRank key = nd.rank)
    (hr : processBody (calls (k + 1)) nd msg = .ok nd') :
    Serves nd nd' (msg.sourceRank, msg.id) (.set value) key := by
  rw [processBody, hbody] at hr
  obtain ⟨nd₂, hset, -⟩ := keeps_internalStoreSetValue h hlt k key value
  simp only [hset, ok_bind] at hr
  obtain ⟨nd₁, hrep, ht, htrace, hwaits, hc, hreaders, hover⟩ :=
    replies_internalStoreSetValue h.routed hset
  have hrouted := (h.routed.of_sameTables ht).of_sameTables hrep.tables
  have hall := hrep.trans (replies_sendMessageTo hrouted hr)
  obtain ⟨evs, hevs, hreply⟩ := hall.trace
  have hfinal : ∀ key', nd'.readers key' = if key' = key then [] else nd.readers key' := by
    intro key'
    rw [hall.store.readers, hreaders, readers_put]
  refine ⟨ht.trans hall.tables, hall.client (hc hclient), ?_,
    ⟨evs, by rw [hevs, htrace], hreply⟩, ?_, ?_, fun K => ?_⟩
  · intro id
    rw [← hwaits]
    exact hall.waits id
  · intro key' hne
    rw [hfinal, if_neg (hne value rfl)]
  · intro v _
    rw [hfinal, if_pos rfl]
  · obtain ⟨log, hreach, hlog⟩ := K.reach_put (c := (msg.sourceRank, msg.id)) value hown
    refine ⟨log, hreach.trans ?_, fun v hv => by cases hv; exact hlog⟩
    have hfin := hall.finishes { K with log := log }
    rw [hover] at hfin
    exact hfin.reach

theorem serves_internalStoreGetValue (h : nd.Routed G) (hclient : nd.ClientOnly)
    (hown : storeRank w.sourceRank key = nd.rank)
    (hr : internalStoreGetValue (calls (k + 1)) nd key w = .ok nd') :
    Serves nd nd' (w.sourceRank, w.id) w.messageType.op key := by
  have hop : ∀ v, w.messageType.op ≠ .set v := fun v => by cases w.messageType <;> nofun
  rw [internalStoreGetValue] at hr
  split at hr
  · next data hdata =>
    refine (replies_answerWaiter h hr).serves hclient hown hop ?_
    rw [hdata]
    exact register_read w.messageType data
  · next hnone =>
    cases hr
    set nd₁ : Node n := { nd with
      storeWaiters := nd.storeWaiters.insert key ((nd.storeWaiters.lookup key).getD [] ++ [w]) }
      with hnd₁
    have hreaders : ∀ key', nd₁.readers key' = nd.readers key' ++
        if key' = key then [⟨w.messageType, (w.sourceRank, w.id)⟩] else [] := by
      intro key'
      by_cases hk : key' = key
      · subst hk
        simp [readers, hnd₁]
      · simp [readers, hnd₁, AList.lookup_insert_ne hk, hk]
    refine ⟨⟨rfl, rfl, rfl⟩, ?_, fun _ => .inl rfl, ⟨[], by simp [hnd₁], by simp⟩, fun key' _ => ?_,
      fun v hv => absurd hv (hop v), fun K => ⟨K.log, ?_, fun v hv => absurd hv (hop v)⟩⟩
    · refine { hclient with blocked := fun key' hne => ?_ }
      rw [hreaders] at hne
      by_cases hk : key' = key
      · rw [hk]
        exact hnone
      · rw [if_neg hk, append_nil] at hne
        exact hclient.blocked key' hne
    · rw [hreaders]
      exact prefix_append _ _
    · have hplace : place w.sourceRank key = (nd.rank, key) := by rw [← hown]; rfl
      have hblock : KV.Step ((K.overlay nd).emit
          (.request (w.sourceRank, w.id) w.messageType.op key)) _ := .block
      refine .single (Eq.subst (motive := KV.Step _) ?_ hblock)
      rw [hplace]
      ext1
      · rfl
      · rfl
      · rfl
      · rfl
      · rfl
      · funext p
        simp only [KV.setWaiting, KV.overlay, hreaders]
        obtain rfl | ⟨hp, hr, hk⟩ | ⟨hp, hr⟩ := pair_cases p nd.rank key
        · simp [hnd₁]
        · simp [update_of_ne hp, hr, hk, hnd₁]
        · simp [update_of_ne hp, hr, hnd₁]
      · rfl

/-- A request that has arrived at the owner of its key. -/
theorem serves_processBody (h : nd.Good G) (hlt : ∀ u v, G.dist u v < n)
    (hbody : msg.body = op.body n key) (hclient : nd.ClientOnly)
    (hown : storeRank msg.sourceRank key = nd.rank)
    (hr : processBody (calls (k + 1)) nd msg = .ok nd') :
    Serves nd nd' (msg.sourceRank, msg.id) op key := by
  cases op with
  | set value => exact serves_set h hlt hbody hclient hown hr
  | get | wait =>
    rw [processBody, hbody] at hr
    exact serves_internalStoreGetValue h.routed hclient hown hr
  | check =>
    rw [processBody, hbody] at hr
    simp only [Op.body] at hr
    have hpay : [if (nd.store.lookup key).isSome then (1 : UInt8) else 0] =
        (Result.found (nd.store.lookup key).isSome).payload := by
      cases nd.store.lookup key <;> rfl
    rw [hpay] at hr
    refine (replies_sendMessageTo h.routed hr).serves hclient hown (fun v hv => by cases hv) ?_
    cases nd.store.lookup key <;> rfl

end Store
