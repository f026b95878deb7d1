import Moodist.Store.Broadcast
import Moodist.Store.Requests

/-!
# The store follows the key-value protocol

Every step of the system, in a run without shutdown, is some steps of the protocol
`Store.KV`: messages that are passed on are none, and a request that arrives at the owner of
its key is all that its handler does.
-/

namespace Store

open Foundation List Function KV

variable {n : ℕ} {u v : Fin n} {rest : List (Message n)}

namespace System

def kv (s : System n) (ops : Fin n → List (Op × Key)) (log : List (Operation n × Result)) :
    KV n where
  waits c := (s.nodes c.1).waits.lookup c.2
  objects r := (s.nodes r).waitObjects
  ops := ops
  network := ∑ u, ∑ v, ((s.links u v).filterMap Message.packet? : Multiset (Packet n))
  store p := (s.nodes p.1).store.lookup p.2
  waiting p := (s.nodes p.1).readers p.2
  log := log

variable {s : System n} {ops : Fin n → List (Op × Key)} {log : List (Operation n × Result)}

/-- The messages in an outbox, by edge. -/
theorem sum_sentTo (outbox : List (Fin n × Message n)) :
    (∑ v, (((outbox.filter fun p => p.1 = v).map Prod.snd).filterMap Message.packet? :
      Multiset (Packet n))) = (outbox.filterMap fun p => p.2.packet? : Multiset (Packet n)) := by
  induction outbox with
  | nil => simp
  | cons p outbox ih =>
    have hsplit : ∀ v, ((((p :: outbox).filter fun q => q.1 = v).map Prod.snd).filterMap
        Message.packet? : Multiset (Packet n)) =
        (if p.1 = v then (p.2.packet?.toList : Multiset (Packet n)) else 0) +
          (((outbox.filter fun q => q.1 = v).map Prod.snd).filterMap Message.packet? :
            Multiset (Packet n)) := by
      intro v
      by_cases hv : p.1 = v
      · cases hp : p.2.packet? <;> simp [hv, hp]
      · simp [hv]
    simp only [hsplit, Finset.sum_add_distrib, ih, Finset.sum_ite_eq, Finset.mem_univ, if_true]
    cases hp : p.2.packet? <;> simp [hp]

variable {r : Fin n} {nd : Node n}

/-- After a handler, its rank is laid over the state of the protocol. -/
theorem kv_install (hr : nd.rank = r) :
    (s.install r nd).kv ops log = (s.kv ops log).overlay nd := by
  subst hr
  ext1
  · funext c
    by_cases hc : c.1 = nd.rank <;> simp [kv, install, overlay, hc]
  · funext x
    by_cases hx : x = nd.rank
    · subst hx
      simp [kv, install, overlay]
    · simp [kv, install, overlay, hx]
  · rfl
  · have hlinks : ∀ u v, ((s.install nd.rank nd).links u v).filterMap Message.packet? =
        (s.links u v).filterMap Message.packet? ++
          if u = nd.rank then (nd.sentTo v).filterMap Message.packet? else [] := by
      intro u v
      by_cases hu : u = nd.rank
      · subst hu
        simp [install, filterMap_append]
      · simp [install, hu]
    have hsent : (∑ u, ∑ v, ((if u = nd.rank then (nd.sentTo v).filterMap Message.packet?
        else [] : List (Packet n)) : Multiset (Packet n))) =
        (nd.outbox.filterMap fun p => p.2.packet? : Multiset (Packet n)) := by
      rw [Finset.sum_eq_single nd.rank]
      · simp only [if_true]
        exact sum_sentTo nd.outbox
      · intro u _ hu
        simp [hu]
      · simp
    simp only [kv, hlinks, ← Multiset.coe_add, Finset.sum_add_distrib, overlay]
    rw [hsent, add_comm]
  · funext p
    by_cases hp : p.1 = nd.rank <;> simp [kv, install, overlay, hp]
  · funext p
    by_cases hp : p.1 = nd.rank
    · simp [kv, install, overlay, hp, Node.readers]
    · simp [kv, install, overlay, hp]
  · rfl

/-- Between handlers, a rank is what it is. -/
theorem overlay_kv (hr : (s.nodes r).rank = r) (hout : (s.nodes r).outbox = []) :
    (s.kv ops log).overlay (s.nodes r) = s.kv ops log := by
  ext1
  · funext c
    by_cases hc : c.1 = r
    · simp [kv, overlay, hr, hc]
    · simp [kv, overlay, hr, hc]
  · simp [kv, overlay, hr]
  · rfl
  · simp [kv, overlay, hout]
  · funext p
    by_cases hp : p.1 = r
    · simp [kv, overlay, hr, hp]
    · simp [kv, overlay, hr, hp]
  · funext p
    by_cases hp : p.1 = r
    · simp [kv, overlay, hr, hp]
    · simp [kv, overlay, hr, hp]
  · rfl

/-- A message that is taken off a link is taken off the network. -/
theorem kv_pop (ops : Fin n → List (Op × Key)) (log : List (Operation n × Result)) {msg : Message n}
    (h : s.links u v = msg :: rest) :
    s.kv ops log = ((s.pop u v).kv ops log).emits msg.packet?.toList := by
  ext1
  · rfl
  · rfl
  · rfl
  · have hlinks : ∀ x w, (s.links x w).filterMap Message.packet? =
        (if x = u then if w = v then msg.packet?.toList else [] else []) ++
          ((s.pop u v).links x w).filterMap Message.packet? := by
      intro x w
      by_cases hx : x = u
      · subst hx
        by_cases hw : w = v
        · subst hw
          cases hp : msg.packet? <;> simp [pop, h, hp]
        · simp [pop, hw]
      · simp [pop, hx]
    have hmsg : (∑ x, ∑ w, ((if x = u then if w = v then msg.packet?.toList else [] else [] :
        List (Packet n)) : Multiset (Packet n))) = (msg.packet?.toList : Multiset (Packet n)) := by
      rw [Finset.sum_eq_single u, Finset.sum_eq_single v]
      · simp
      · intro w _ hw
        simp [hw]
      · simp
      · intro x _ hx
        simp [hx]
      · simp
    simp only [kv, hlinks, ← Multiset.coe_add, Finset.sum_add_distrib, emits]
    rw [hmsg]
  · rfl
  · rfl
  · rfl

/-- A system that has seen no shutdown. -/
structure ClientOnly (s : System n) : Prop where
  links : ∀ u v, ∀ m ∈ s.links u v, m.IsClient
  nodes : ∀ r, (s.nodes r).ClientOnly

/-- After a handler on one rank the system has still seen no shutdown. -/
theorem ClientOnly.install (h : s.ClientOnly) (s₁ : System n) (hnodes : s₁.nodes = s.nodes)
    (hlinks : ∀ u v, ∀ m ∈ s₁.links u v, m ∈ s.links u v) (hnd : nd.ClientOnly) :
    (s₁.install r nd).ClientOnly := by
  refine ⟨fun u v m hm => ?_, fun x => ?_⟩
  · by_cases hu : u = r
    · subst hu
      simp only [System.install, update_self, mem_append] at hm
      rcases hm with hm | hm
      · exact h.links u v m (hlinks u v m hm)
      · simp only [Node.sentTo, mem_map, mem_filter] at hm
        obtain ⟨p, ⟨hp, -⟩, rfl⟩ := hm
        exact hnd.outbox p hp
    · simp only [System.install, update_of_ne hu] at hm
      exact h.links u v m (hlinks u v m hm)
  · by_cases hx : x = r
    · subst hx
      simp only [System.install, update_self]
      exact { hnd with outbox := by simp }
    · simp only [System.install, update_of_ne hx, hnodes]
      exact h.nodes x

end System

/-- The steps of a run without shutdown. The id of a new operation is not that of one in
flight. -/
def Action.IsClient (s : System n) : Action n → Prop
  | .deliver _ _ => True
  | .connect _ _ => True
  | .operation r id _ _ => (s.nodes r).waits.lookup id = none
  | .broadcast _ _ => False
  | .closing _ _ _ _ => False

def Action.ops (a : Action n) (ops : Fin n → List (Op × Key)) : Fin n → List (Op × Key) :=
  match a with
  | .operation r _ op key => update ops r (ops r ++ [(op, key)])
  | _ => ops

/-- Among these events, a set of `key` is processed. -/
def Sets (evs : List (Event n)) (key : Key) (value : Value) : Prop :=
  ∃ msg, Event.process msg ∈ evs ∧ msg.body = .set key value

/-- What rank `v` records in a step. -/
def System.newEvents (s s' : System n) (v : Fin n) : List (Event n) :=
  (s'.nodes v).trace.drop (s.nodes v).trace.length

/-- An operation in flight keeps its object until it is finished, and a new one gets the
next object. -/
def Node.KeepsWaits (nd nd' : Node n) : Prop :=
  ∀ id w, nd'.waits.lookup id = some w → nd.waits.lookup id = some w ∨
    nd.waits.lookup id = none ∧ w = nd.waitObjects.length

theorem Node.Finishes.keepsWaits {nd nd' : Node n} (h : nd.Finishes nd') : nd.KeepsWaits nd' := by
  intro id w hw
  rcases h id with heq | hnone
  · exact .inl (heq.symm.trans hw)
  · exact absurd (hnone.symm.trans hw) nofun

/-- A step is some steps of the protocol. Readers wait until a set of their key is processed;
then all of them take effect. -/
structure System.Follows (s s' : System n) (ops ops' : Fin n → List (Op × Key))
    (log log' : List (Operation n × Result)) : Prop where
  reach : KV.Reach (s.kv ops log) (s'.kv ops' log')
  waits : ∀ r, (s.nodes r).KeepsWaits (s'.nodes r)
  kept : ∀ v key, (∀ value, ¬ Sets (s.newEvents s' v) key value) →
    (s.nodes v).readers key <+: (s'.nodes v).readers key
  set : ∀ v key value, Sets (s.newEvents s' v) key value →
    (s'.nodes v).readers key = [] ∧ ∀ x ∈ (s.nodes v).readers key,
      ((s.kv ops log).operation x.client x.kind.op key, x.kind.result value) ∈ log'

namespace System

variable {s s₁ : System n} {ops ops' : Fin n → List (Op × Key)}
  {log log' : List (Operation n × Result)} {r : Fin n} {nd : Node n}

variable {evs : List (Event n)}

variable (hnodes : s₁.nodes = s.nodes)

include hnodes

theorem newEvents_install (htrace : nd.trace = (s.nodes r).trace ++ evs) (v : Fin n) :
    s.newEvents (s₁.install r nd) v = if v = r then evs else [] := by
  by_cases hv : v = r
  · subst hv
    simp [newEvents, install, htrace]
  · simp [newEvents, install, hnodes, hv]

theorem readers_install (v : Fin n) (key : Key) :
    ((s₁.install r nd).nodes v).readers key =
      if v = r then nd.readers key else (s.nodes v).readers key := by
  by_cases hv : v = r
  · subst hv
    simp [install, Node.readers]
  · simp [install, hnodes, hv]

theorem keepsWaits_install (h : (s.nodes r).KeepsWaits nd)
    (v : Fin n) : (s.nodes v).KeepsWaits ((s₁.install r nd).nodes v) := by
  by_cases hv : v = r
  · subst hv
    intro id w hw
    exact h id w (by simpa [install] using hw)
  · intro id w hw
    exact .inl (by simpa [install, hnodes, hv] using hw)

omit hnodes

theorem follows_quiet (evs : List (Event n)) (hnodes : s₁.nodes = s.nodes)
    (htrace : nd.trace = (s.nodes r).trace ++ evs) (hevs : ∀ key value, ¬ Sets evs key value)
    (hreaders : ∀ key, nd.readers key = (s.nodes r).readers key)
    (hwaits : (s.nodes r).KeepsWaits nd)
    (hreach : Reach (s.kv ops log) ((s₁.install r nd).kv ops' log')) :
    s.Follows (s₁.install r nd) ops ops' log log' := by
  refine ⟨hreach, keepsWaits_install hnodes hwaits, fun v key _ => ?_, fun v key value hset => ?_⟩
  · rw [readers_install hnodes]
    split_ifs with hv
    · rw [hv, hreaders]
    · exact prefix_rfl
  · rw [newEvents_install hnodes htrace] at hset
    split_ifs at hset
    · exact absurd hset (hevs key value)
    · obtain ⟨msg, hmem, -⟩ := hset
      cases hmem

theorem not_sets_of_isReply (h : ∀ e ∈ evs, e.IsReply) (key : Key) (value : Value) :
    ¬ Sets evs key value := by
  rintro ⟨msg, hmem, hbody⟩
  obtain ⟨msg', payload, heq, hbody'⟩ := h _ hmem
  cases heq
  rw [hbody] at hbody'
  cases hbody'

variable {msg : Message n} {op : Op} {key : Key}

/-- Processing a request is a set exactly if the request is one. -/
theorem sets_cons_iff (h : ∀ e ∈ evs, e.IsReply) (hbody : msg.body = op.body n key) (key' : Key)
    (value : Value) : Sets (.process msg :: evs) key' value ↔ op = .set value ∧ key' = key := by
  have hrest := not_sets_of_isReply h key' value
  constructor
  · rintro ⟨msg', hmem, hset⟩
    rcases mem_cons.mp hmem with heq | hmem
    · cases heq
      rw [hbody] at hset
      cases op <;> cases hset
      exact ⟨rfl, rfl⟩
    · exact absurd ⟨msg', hmem, hset⟩ hrest
  · rintro ⟨rfl, rfl⟩
    exact ⟨msg, by simp, hbody⟩

/-- A handler that serves a request. `nd₀` is its rank when the request is processed. -/
theorem follows_serves (nd₀ : Node n) (hnodes : s₁.nodes = s.nodes)
    (hbody : msg.body = op.body n key) (hrank : nd₀.rank = r)
    (htrace : nd₀.trace = (s.nodes r).trace ++ [.process msg])
    (hreaders : ∀ key', nd₀.readers key' = (s.nodes r).readers key')
    (hwaits : (s.nodes r).KeepsWaits nd₀)
    (hserves : Serves nd₀ nd (msg.sourceRank, msg.id) op key) (hreach : Reach (s.kv ops log)
      (((s₁.kv ops' log).overlay nd₀).emit (.request (msg.sourceRank, msg.id) op key))) (hoper : ∀
      x ∈ (s.nodes r).readers key, ((s₁.kv ops' log).overlay nd₀).waits x.client = (s.kv ops
      log).waits x.client) : ∃ log', s.Follows (s₁.install r nd) ops ops' log log' := by
  obtain ⟨evs, hevs, hreply⟩ := hserves.trace
  have htrace' : nd.trace = (s.nodes r).trace ++ (.process msg :: evs) := by
    rw [hevs, htrace, append_assoc]
    rfl
  obtain ⟨log', hreach', hlog'⟩ := hserves.reach (s₁.kv ops' log)
  refine ⟨log', hreach.trans ?_, keepsWaits_install hnodes fun id w hw => ?_, fun v key' hnot => ?_,
    fun v key' value hset => ?_⟩
  · rw [kv_install (hserves.tables.rank.trans hrank)]
    exact hreach'
  · rcases hserves.waits id with heq | hnone
    · exact hwaits id w (heq.symm.trans hw)
    · exact absurd (hnone.symm.trans hw) nofun
  · rw [newEvents_install hnodes htrace'] at hnot
    rw [readers_install hnodes]
    split_ifs with hv
    · rw [hv, ← hreaders]
      refine hserves.kept key' fun value hop hk => ?_
      have := hnot value
      rw [if_pos hv, sets_cons_iff hreply hbody] at this
      exact this ⟨hop, hk⟩
    · exact prefix_rfl
  · rw [newEvents_install hnodes htrace'] at hset
    split_ifs at hset with hv
    · subst hv
      obtain ⟨hop, rfl⟩ := (sets_cons_iff hreply hbody key' value).mp hset
      rw [readers_install hnodes, if_pos rfl]
      refine ⟨hserves.emptied value hop, fun x hx => ?_⟩
      have hmem := hlog' value hop x (by rwa [hreaders])
      rwa [operation, hoper x hx] at hmem
    · obtain ⟨msg', hmem, -⟩ := hset
      cases hmem

variable {c : Cluster n}

/-- A message arrives at a rank. -/
theorem follows_deliver (h : Inv c s) (hc : s.ClientOnly) (hlink : s.links u v = msg :: rest)
    (hr : receive (s.nodes v) msg u = .ok nd) (ops : Fin n → List (Op × Key))
    (log : List (Operation n × Result)) :
    nd.ClientOnly ∧ ∃ log', s.Follows ((s.pop u v).install v nd) ops ops log log' := by
  have ht := h.links u v msg (by simp [hlink])
  have httl := ht.ttl_ne_zero c.graph_dist_lt
  have hrank := (h.tables v).rank
  have hnodes : (s.pop u v).nodes = s.nodes := rfl
  obtain ⟨hb, hbody⟩ := hc.links u v msg (by simp [hlink])
  have hover : ((s.pop u v).kv ops log).overlay (s.nodes v) = (s.pop u v).kv ops log :=
    overlay_kv (s := s.pop u v) hrank (h.outbox v)
  have hpop := kv_pop ops log hlink
  rw [← hover] at hpop
  rw [receive, if_neg httl] at hr
  by_cases hdest : msg.destinationRank = v
  · set nd₀ := (s.nodes v).record (.process msg) with hnd₀
    have hrank₀ : nd₀.rank = v := hrank
    have hgood₀ : nd₀.Good c.graph := ((h.good v).record_process msg hb).good
    have hclient₀ : nd₀.ClientOnly := { hc.nodes v with }
    have hprocess : processBody handlers nd₀ msg = .ok nd := by
      simpa [processMessage, hdest, hrank, hb, pure, Except.pure] using hr
    rcases hbody with ⟨op, key, hop, hown⟩ | ⟨payload, hdone⟩ | ⟨addrs, haddrs⟩
    · -- a request
      have hserves := serves_processBody hgood₀ c.graph_dist_lt hop hclient₀
        (by rw [← hown, hdest]; exact hrank.symm) hprocess
      refine ⟨hserves.client, follows_serves nd₀ hnodes hop hrank₀ rfl (fun _ => rfl)
        (fun _ _ => .inl) hserves ?_ ?_⟩
      · rw [hpop, Message.packet?_of_body hop, Option.toList_some, emits_singleton]
        exact .refl
      · intro x _
        exact congrFun (congrArg waits hover) x.client
    · -- a reply
      rw [processBody, hdone] at hprocess
      obtain ⟨htab, hst, hcl, hw, htrace, fields, hread, hfin⟩ := processDone_effect hprocess
      refine ⟨hcl hclient₀, log, follows_quiet [.process msg] hnodes ?_ ?_ ?_ hw.keepsWaits ?_⟩
      · rw [htrace]
        rfl
      · refine not_sets_of_isReply fun e he => ?_
        obtain rfl := mem_singleton.mp he
        exact ⟨msg, payload, rfl, hdone⟩
      · exact hst.readers
      · have hpacket : msg.packet? = some (.reply (v, msg.id) payload) := by
          rw [Message.packet?, hdone, hdest]
        rw [kv_install (htab.rank.trans hrank), hfin, hpop, hpacket, Option.toList_some,
          emits_singleton, hrank₀]
        exact .single (.finish (.mk hread))
    · -- the addresses of another rank
      rw [processBody, haddrs] at hprocess
      have heq := Except.ok.inj hprocess
      have hrank' : nd.rank = v := by
        rw [← heq]
        exact hrank₀
      have hsame : ∀ K : KV n, K.overlay nd = K.overlay (s.nodes v) := by
        intro K
        rw [← heq]
        rfl
      refine ⟨by rw [← heq]; exact { hc.nodes v with }, log,
        follows_quiet [.process msg] hnodes (by rw [← heq]; rfl) ?_
          (fun _ => by rw [← heq]; rfl) (by rw [← heq]; exact fun _ _ => .inl) ?_⟩
      · rintro key value ⟨msg', hmem, hset⟩
        cases mem_singleton.mp hmem
        rw [haddrs] at hset
        cases hset
      · have hpacket : msg.packet? = none := by rw [Message.packet?, haddrs]
        rw [kv_install hrank', hsame, hpop, hpacket, Option.toList_none, emits_nil]
  · -- it is passed on
    have hne : msg.destinationRank ≠ (s.nodes v).rank := by rwa [hrank]
    obtain ⟨f, hf, -, -⟩ := (h.good v).firsthop hne
    rw [processMessage_forward (h.good v).routed 1 hne hf httl] at hr
    set msg' : Message n := { msg with ttl := msg.ttl - 1 } with hmsg'
    have hclient' : msg'.IsClient := ⟨hb, hbody⟩
    have hrank' : ((s.nodes v).post f msg' msg.diagnosticSource).rank = v := hrank
    have hpacket : msg'.packet? = msg.packet? := rfl
    cases hr
    refine ⟨(hc.nodes v).post hclient' f _, log,
      follows_quiet [] hnodes (by simp [Node.post]) ?_ (fun _ => rfl)
        (fun _ _ => .inl) ?_⟩
    · exact not_sets_of_isReply (by simp)
    · rw [kv_install hrank', overlay_post, hpop, hpacket]

/-- A connection is registered: there is no broadcast to replay. -/
theorem follows_connect (h : Inv c s) (hc : s.ClientOnly)
    {ranks : List (Fin n)} (hr : onConnect handlers (s.nodes u) v ranks = .ok nd)
    (ops : Fin n → List (Op × Key)) (log : List (Operation n × Result)) :
    nd.ClientOnly ∧ s.Follows (s.install u nd) ops ops log log := by
  have hrank := (h.tables u).rank
  have hpend := (hc.nodes u).pending
  have hnd : nd.ClientOnly ∧ nd.rank = u ∧ nd.trace = (s.nodes u).trace ∧
      nd.waits = (s.nodes u).waits ∧
      (∀ key, nd.readers key = (s.nodes u).readers key) ∧
      ∀ K : KV n, K.overlay nd = K.overlay (s.nodes u) := by
    rw [onConnect] at hr
    split at hr
    · rw [replayPendingBroadcasts] at hr
      simp only [Node.modifyEdge, update_self, hpend, foldlM_nil] at hr
      cases hr
      refine ⟨{ hc.nodes u with pending := fun e => ?_ }, hrank, rfl, rfl, fun _ => rfl,
        fun _ => rfl⟩
      rcases eq_or_ne e v with rfl | he
      · simp
      · simpa [update_of_ne he] using hpend e
    · cases hr
      exact ⟨hc.nodes u, hrank, rfl, rfl, fun _ => rfl, fun _ => rfl⟩
  obtain ⟨hclient, hrank', htrace, hwaits, hreaders, hsame⟩ := hnd
  refine ⟨hclient, follows_quiet [] rfl (by simp [htrace])
    (not_sets_of_isReply (by simp)) hreaders (fun _ _ hw => .inl (by rwa [hwaits] at hw)) ?_⟩
  rw [kv_install hrank', hsame, overlay_kv hrank (h.outbox u)]

theorem overlay_enroll (ops : Fin n → List (Op × Key)) (log : List (Operation n × Result))
    (hr : (s.nodes r).rank = r) (hout : (s.nodes r).outbox = [])
    (id : UInt32) (op : Op) (key : Key) :
    (s.kv (update ops r (ops r ++ [(op, key)])) log).overlay
        { s.nodes r with
          waitObjects := (s.nodes r).waitObjects ++ [Wait.fresh]
          waits := (s.nodes r).waits.insert id (s.nodes r).waitObjects.length } =
      (s.kv ops log).enroll (r, id) op key := by
  ext1
  · funext c
    rw [waits_enroll]
    simp only [overlay, hr]
    by_cases hc : c.1 = r
    · by_cases hid : c.2 = id
      · obtain rfl : c = (r, id) := Prod.ext hc hid
        simp [kv]
      · have hne : c ≠ (r, id) := fun he => hid (congrArg Prod.snd he)
        simp [kv, hc, hne, AList.lookup_insert_ne hid]
    · have hne : c ≠ (r, id) := fun he => hc (congrArg Prod.fst he)
      simp [kv, hc, hne]
  · funext x
    rw [objects_enroll]
    simp only [overlay, hr]
    by_cases hx : x = r
    · subst hx
      simp [kv]
    · simp [kv, hx]
  · rfl
  · simp [overlay, enroll, kv, hout]
  · funext p
    by_cases hp : p.1 = r <;> simp [kv, overlay, enroll, hr, hp]
  · funext p
    by_cases hp : p.1 = r <;> simp [kv, overlay, enroll, hr, hp, Node.readers]
  · rfl

theorem follows_operation (h : Inv c s) (hc : s.ClientOnly) (hK : (s.kv ops log).Inv none)
    {id : UInt32} {w : ℕ} (hfree : (s.nodes r).waits.lookup id = none)
    (hr : doWaitOp (s.nodes r) id op key = .ok (nd, w)) : nd.ClientOnly ∧ ∃ log',
      s.Follows (s.install r nd) ops (update ops r (ops r ++ [(op, key)])) log log' := by
  have hrank := (h.tables r).rank
  set nd₁ : Node n :=
    { s.nodes r with
      waitObjects := (s.nodes r).waitObjects ++ [Wait.fresh]
      waits := (s.nodes r).waits.insert id (s.nodes r).waitObjects.length } with hnd₁
  have hrank₁ : nd₁.rank = r := hrank
  have hclient₁ : nd₁.ClientOnly := { hc.nodes r with }
  have hwaits₁ : (s.nodes r).KeepsWaits nd₁ := by
    intro id' w' hw'
    rcases eq_or_ne id' id with rfl | hne
    · refine .inr ⟨hfree, ?_⟩
      simpa [hnd₁, eq_comm] using hw'
    · exact .inl (by simpa [hnd₁, AList.lookup_insert_ne hne] using hw')
  have hgood₁ : nd₁.Good c.graph :=
    ((h.good r).quiet_of_state (⟨rfl, rfl, rfl⟩ : (s.nodes r).SameTables nd₁) rfl rfl rfl).good
  have hsend : sendMessageTo handlers nd₁ (storeRank r key) id r (op.body n key) = .ok nd := by
    rw [doWaitOp] at hr
    simp only at hr
    split at hr
    · cases hr
    · have hrunning : ¬ (s.nodes r).exited = true := by simp [(hc.nodes r).running]
      rw [if_neg hrunning] at hr
      change (sendMessageTo handlers nd₁ (storeRank (s.nodes r).rank key) id (s.nodes r).rank
        (op.body n key) >>= fun nd => pure (nd, (s.nodes r).waitObjects.length)) = _ at hr
      rw [hrank] at hr
      obtain ⟨nd₂, hs, hr⟩ := except_bind_eq_ok.mp hr
      cases hr
      exact hs
  have hover := overlay_enroll ops log hrank (h.outbox r) id op key
  rw [← hnd₁] at hover
  have hinvoke : Step (s.kv ops log) (((s.kv ops log).enroll (r, id) op key).emit
      (.request (r, id) op key)) := .invoke op key hfree
  rw [← hover] at hinvoke
  set msg : Message n :=
    { ttl := n, destinationRank := storeRank r key, id := id, sourceRank := r,
      diagnosticSource := r, broadcast := false, body := op.body n key } with hmsg
  have hpacket : msg.packet? = some (.request (r, id) op key) := Message.packet?_of_body rfl
  by_cases hown : storeRank r key = r
  · -- this rank owns the key: the request is processed inside the call
    set nd₀ := nd₁.record (.process msg) with hnd₀
    have hself : storeRank r key = nd₁.rank := hown.trans hrank₁.symm
    rw [hself, sendMessageTo_self hgood₁.routed] at hsend
    have hprocess : processBody (calls 1) nd₀ msg = .ok nd := by
      simpa [calls, processMessage, hmsg, hnd₀, hrank₁, hown, pure, Except.pure] using hsend
    have hbody : msg.body = op.body n key := rfl
    have hserves := serves_processBody (hgood₁.record_process msg rfl).good c.graph_dist_lt hbody
      { hclient₁ with } hself hprocess
    refine ⟨hserves.client, follows_serves nd₀ rfl hbody hrank₁ rfl (fun _ => rfl)
      hwaits₁ hserves (.single hinvoke) ?_⟩
    intro x hx
    obtain ⟨-, o, ho, -⟩ := hK.readers (r, key) x hx
    have hne : x.client ≠ (r, id) := by
      intro he
      have hobj := hfree.symm.trans (he ▸ ho.object)
      cases hobj
    show ((s.kv _ log).overlay nd₁).waits x.client = _
    rw [hover, waits_enroll, if_neg hne]
  · -- the request goes to the owner
    have hne : storeRank r key ≠ nd₁.rank := by rwa [hrank₁]
    obtain ⟨f, hf, -, -⟩ := hgood₁.firsthop hne
    rw [sendMessageTo_eq hgood₁.routed 1 hne hf, hrank₁] at hsend
    cases hsend
    have hclient : msg.IsClient := ⟨rfl, .inl ⟨op, key, rfl, rfl⟩⟩
    have hrank' : (nd₁.post f msg r).rank = r := hrank
    refine ⟨hclient₁.post hclient f r, log, follows_quiet [] rfl (by simp [Node.post, hnd₁])
      (not_sets_of_isReply (by simp)) (fun _ => rfl) hwaits₁ ?_⟩
    rw [kv_install hrank', overlay_post, hpacket, Option.toList_some, emits_singleton]
    exact .single hinvoke

/-- Every step of a run without shutdown follows the protocol. -/
theorem follows_step {s s' : System n} {a : Action n} (h : Inv c s) (hc : s.ClientOnly)
    (hK : (s.kv ops log).Inv none) (ha : a.IsClient s) (hstep : s.step a = .ok s') :
    s'.ClientOnly ∧ ∃ log', s.Follows s' ops (a.ops ops) log log' := by
  cases a with
  | deliver u v =>
    rw [step] at hstep
    cases hlink : s.links u v with
    | nil =>
      rw [hlink] at hstep
      cases hstep
      refine ⟨hc, log, .refl, fun _ _ _ => .inl, fun _ _ _ => prefix_rfl,
        fun v key value hset => ?_⟩
      obtain ⟨msg, hmem, -⟩ := hset
      simp [newEvents] at hmem
    | cons msg rest =>
      rw [hlink, List.head?_cons] at hstep
      simp only at hstep
      obtain ⟨nd, hr, hstep⟩ := except_bind_eq_ok.mp hstep
      cases hstep
      obtain ⟨hnd, hfollows⟩ := follows_deliver h hc hlink hr ops log
      exact ⟨hc.install (s.pop u v) rfl (s.mem_links_pop u v) hnd, hfollows⟩
  | connect u v =>
    obtain ⟨nd, hr, hstep⟩ := except_bind_eq_ok.mp hstep
    cases hstep
    obtain ⟨hnd, hfollows⟩ := follows_connect h hc hr ops log
    exact ⟨hc.install s rfl (fun _ _ _ hm => hm) hnd, log, hfollows⟩
  | operation r id op key =>
    obtain ⟨res, hr, hstep⟩ := except_bind_eq_ok.mp hstep
    cases hstep
    obtain ⟨hnd, hfollows⟩ := follows_operation (w := res.2) h hc hK ha hr
    exact ⟨hc.install s rfl (fun _ _ _ hm => hm) hnd, hfollows⟩
  | broadcast r a | closing r shuttingDown exited exitSourceRank => exact absurd ha id

end System

end Store
