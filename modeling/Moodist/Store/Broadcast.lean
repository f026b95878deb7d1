import Moodist.Foundation.Relay
import Moodist.Store.Effects

/-!
# Broadcasts reach every rank exactly once

The spanning tree of a broadcast is never built. A rank passes a broadcast on to the neighbours that
have announced that they reach its source through this rank, so the parent of a rank, for a source,
is its own first hop towards the source.
-/

namespace Store

open Foundation List Function Store.System Node Relay View

variable {n : ℕ}

/-! ## The tables of a cluster -/

namespace Cluster

variable (c : Cluster n)

instance : DecidableRel c.graph.Adj :=
  inferInstanceAs (DecidableRel (meshGraph c.lists).Adj)

theorem firstHops (r : Fin n) : FirstHops c.graph r (c.paths r).firsthop :=
  (findPaths_ok c.meshEdges_eq (c.findPaths_eq r)).2

theorem graph_dist_lt (u v : Fin n) : c.graph.dist u v < n := dist_lt c.meshEdges_eq u v

theorem hasTables (r : Fin n) : (c.nodes r).HasTables r (c.paths r) :=
  create_hasTables (c.create_eq r)

/-- The rank from which `v` takes the broadcasts of `s`: its first hop towards `s`. -/
def parent (s v : Fin n) : Fin n := ((c.paths v).firsthop s).getD v

theorem firsthop_eq (s v : Fin n) : (c.paths v).firsthop s = some (c.parent s v) := by
  by_cases hv : s = v
  · subst hv
    rw [parent, (c.firstHops s).self]
    rfl
  · obtain ⟨f, hf, -, -⟩ := (c.firstHops v).hop s hv
    rw [parent, hf]
    rfl

theorem parents : Parents c.graph c.parent fun s v => c.graph.dist v s := by
  have hhop : ∀ s v, v ≠ s → c.graph.Adj v (c.parent s v) ∧
      c.graph.dist (c.parent s v) s + 1 = c.graph.dist v s := by
    intro s v hv
    obtain ⟨f, hf, hadj, hdist⟩ := (c.firstHops v).hop s hv.symm
    rw [c.firsthop_eq, Option.some.injEq] at hf
    rw [hf]
    exact ⟨hadj, hdist⟩
  refine ⟨fun s v hv => (hhop s v hv).1.symm, fun s v hv => ?_, fun s v hadj => ?_, fun s => ?_⟩
  · have := (hhop s v hv).2
    omega
  · have := (c.firstHops v).firsthop_adj hadj.symm
    rwa [c.firsthop_eq, Option.some.injEq] at this
  · have := (c.firstHops s).self
    rwa [c.firsthop_eq, Option.some.injEq] at this

end Cluster

/-! ## The system as a relay -/

def System.relay (s : System n) : Relay (Fin n) (Body n) where
  calls r := (s.nodes r).view.calls
  processed v source := payloads source (s.nodes v).view.processed
  link u v := (s.links u v).filterMap Message.payload?
  pending u v := (s.nodes u).view.pending v
  connected u v := (s.nodes u).view.connected v

/-- A relay in which `r` has the view `v`, and what it sent is on the links. -/
def absorb (R : Relay (Fin n) (Body n)) (r : Fin n) (v : View n) : Relay (Fin n) (Body n) where
  calls := update R.calls r v.calls
  processed := update R.processed r fun source => payloads source v.processed
  link := update R.link r fun w => R.link r w ++ v.sent w
  pending := update R.pending r v.pending
  connected := update R.connected r v.connected

theorem System.relay_install (s : System n) (r : Fin n) (nd : Node n) :
    (s.install r nd).relay = absorb s.relay r nd.view := by
  ext1 <;> funext x <;> rcases eq_or_ne x r with rfl | hx
  all_goals simp_all [relay, install, absorb, view]

variable {nd : Node n}

theorem Node.view_sent_of_outbox (h : nd.outbox = []) (e : Fin n) : nd.view.sent e = [] := by
  simp [view, sentTo, h]

variable {s : System n} {r : Fin n} {edges : List (Fin n)}

theorem System.absorb_view (h : (s.nodes r).outbox = []) :
    absorb s.relay r (s.nodes r).view = s.relay := by
  have hsent := view_sent_of_outbox h
  ext1 <;> simp [absorb, relay, hsent]

theorem absorb_start {G : SimpleGraph (Fin n)} [DecidableRel G.Adj] (R : Relay (Fin n) (Body n))
    (v : View n) (hedges : ∀ e, e ∈ edges ↔ G.Adj r e) (body : Body n) :
    absorb R r (v.start r edges (some body)) = (absorb R r v).call G r body := by
  ext1
  · simp [absorb, start, sendAll, call]
  · rfl
  · funext x w
    by_cases hx : x = r
    · subst hx
      by_cases hw : G.Adj x w <;>
        simp [absorb, start, sendAll, call, hedges, hw]
    · simp [absorb, call, hx]
  · rfl
  · rfl

/-- What `u` knows of the broadcasts that its neighbour `v` takes from it. -/
structure Announced (c : Cluster n) (u v : Fin n) (view : View n) : Prop where
  sound : ∀ source, view.forwardFor v source = true → c.parent source v = u
  complete : view.connected v = true →
    ∀ source, c.parent source v = u → view.forwardFor v source = true

variable {u v : Fin n}

/-- The announcement of `v` is what `u` learns when they connect. -/
theorem Cluster.announced_connect (c : Cluster n) {view : View n} (h : Announced c u v view)
    (source : Fin n) :
    (decide ((c.paths v).firsthop source = some u) || view.forwardFor v source) =
      decide (c.parent source v = u) := by
  cases hfor : view.forwardFor v source with
  | false => simp [c.firsthop_eq]
  | true => simp [h.sound source hfor]

theorem System.absorb_connect (c : Cluster n) (hout : (s.nodes u).outbox = [])
    (h : Announced c u v (s.nodes u).view) : absorb s.relay u
        ((s.nodes u).view.connect v (getBroadcastForwardRanks (c.paths v).firsthop u)) =
      s.relay.connect c.parent u v := by
  have hsent := view_sent_of_outbox hout
  have hann := c.announced_connect h
  ext1
  · simp [absorb, View.connect, Relay.connect, relay]
  · simp [absorb, View.connect, Relay.connect, relay]
  · funext x w
    by_cases hx : x = u
    · subst hx
      by_cases hw : w = v
      · subst hw
        simp [absorb, View.connect, Relay.connect, relay, hsent, hann]
      · simp [absorb, View.connect, Relay.connect, hw, hsent]
    · simp [absorb, Relay.connect, hx]
  · funext x w
    by_cases hx : x = u
    · subst hx
      by_cases hw : w = v <;> simp [absorb, View.connect, Relay.connect, relay, hw]
    · simp [absorb, Relay.connect, hx]
  · funext x w
    by_cases hx : x = u
    · subst hx
      by_cases hw : w = v <;> simp [absorb, View.connect, Relay.connect, relay, hw]
    · simp [absorb, Relay.connect, hx]

variable {msg : Message n} {rest : List (Message n)}

theorem System.absorb_forward (c : Cluster n) {source : Fin n} {body : Body n} (huv : u ≠ v)
    (hout : (s.nodes v).outbox = []) (hedges : ∀ e, e ∈ (s.nodes v).edgePeers ↔ c.graph.Adj v e)
    (h : ∀ w, Announced c v w (s.nodes v).view) (hlink : s.links u v = msg :: rest)
    (hpay : msg.payload? = some (source, body)) : absorb (s.pop u v).relay v
        ({ (s.nodes v).view with
            processed := (s.nodes v).view.processed ++ [(source, body)] }.forward
          (s.nodes v).edgePeers u (source, body)) =
      s.relay.deliver c.graph c.parent u v source body := by
  have hsent := view_sent_of_outbox hout
  have hpop : (s.pop u v).relay.link u v = (s.relay.link u v).tail := by
    simp [relay, pop, hlink, hpay]
  have hpop' : ∀ x w, ¬ (x = u ∧ w = v) → (s.pop u v).relay.link x w = s.relay.link x w := by
    intro x w hne
    by_cases hx : x = u
    · subst hx
      have hw : w ≠ v := fun hw => hne ⟨rfl, hw⟩
      simp [relay, pop, update_of_ne hw]
    · simp [relay, pop, update_of_ne hx]
  -- only `v` and the link that was read change
  ext1
  · simp [absorb, forward, deliver, relay, pop]
  · funext x
    by_cases hx : x = v
    · subst hx
      funext source'
      by_cases hs : source' = source
      · subst hs
        simp [absorb, forward, deliver, relay, payloads_cons_self]
      · simp [absorb, forward, deliver, relay, update_of_ne hs, payloads_cons_ne (Ne.symm hs)]
    · simp [absorb, deliver, relay, pop, update_of_ne hx]
  · funext x w
    by_cases hx : x = v
    · subst hx
      have hxu : ¬ (x = u ∧ w = x) := fun hc => huv hc.1.symm
      have hfor : (s.nodes x).view.connected w = true →
          ((s.nodes x).view.forwardFor w source = true ↔ c.parent source w = x) := fun hconn =>
        ⟨(h w).sound source, (h w).complete hconn source⟩
      have hconn : s.relay.connected x w = (s.nodes x).view.connected w := rfl
      simp only [absorb, forward, deliver, update_self, hpop' x w hxu,
        if_neg hxu, hsent, hedges, nil_append, hconn]
      split_ifs <;> simp_all
    · by_cases hc : x = u ∧ w = v
      · obtain ⟨rfl, rfl⟩ := hc
        simp [absorb, deliver, update_of_ne hx, hpop]
      · simp [absorb, deliver, hpop' x w hc, hc, hx]
  · funext x w
    by_cases hx : x = v
    · subst hx
      simp [absorb, forward, deliver, relay, hedges, and_left_comm]
    · simp [absorb, deliver, relay, pop, hx]
  · funext x
    by_cases hx : x = v
    · subst hx
      simp [absorb, forward, deliver, relay]
    · simp [absorb, deliver, relay, pop, update_of_ne hx]

/-! ## The invariant of the system -/

/-- The invariant: no message at hand can make a handler fail, every rank knows what its
neighbours announced, and the broadcasts flow as in a relay. -/
structure System.Inv (c : Cluster n) (s : System n) : Prop where
  tables : ∀ r, (s.nodes r).HasTables r (c.paths r)
  good : ∀ r, (s.nodes r).Good c.graph
  outbox : ∀ r, (s.nodes r).outbox = []
  links : ∀ u v, ∀ m ∈ s.links u v, m.InTransit c.graph u v
  announced : ∀ u v, Announced c u v (s.nodes u).view
  relay : Relay.Inv c.graph c.parent s.relay

theorem Cluster.nodes_eq (c : Cluster n) (r : Fin n) : c.nodes r =
    { rank := r, firsthop := (c.paths r).firsthop, edgePeers := (c.paths r).edges r,
      myUdpAddresses := c.myUdpAddresses r } := by
  have h := c.create_eq r
  rw [create] at h
  split at h
  · exact (Except.ok.inj h).symm
  · cases h

theorem Cluster.inv_init (c : Cluster n) : Inv c c.init := by
  have hnode := c.nodes_eq
  have hrelay : c.init.relay = Relay.init := by
    ext1 <;> simp [relay, Relay.init, init, hnode, view]
  refine ⟨c.hasTables, ?_, ?_, by simp [init], ?_, ?_⟩
  · intro r
    refine ⟨(c.hasTables r).routed c.meshEdges_eq (c.findPaths_eq r), ?_, ?_⟩
    · simp [init, hnode]
    · simp [init, hnode]
  · simp [init, hnode]
  · intro u v
    exact ⟨by simp [init, hnode, view], by simp [init, hnode, view]⟩
  · rw [hrelay]
    exact Relay.inv_init

variable {c : Cluster n} {s₁ : System n}

/-- After a handler on rank `r` the invariant holds again, if its effect on the relay and on
what `r` knows is right. -/
theorem System.Inv.install (h : System.Inv c s) (hnodes : s₁.nodes = s.nodes)
    (hlinks : ∀ u v, ∀ m ∈ s₁.links u v, m ∈ s.links u v) (hgood : nd.Good c.graph)
    (hs : (s.nodes r).SameTables nd) (hann : ∀ v, Announced c r v nd.view)
    (hrelay : Relay.Inv c.graph c.parent (absorb s₁.relay r nd.view)) :
    System.Inv c (s₁.install r nd) := by
  have hrank : nd.rank = r := by rw [hs.rank, (h.tables r).rank]
  refine ⟨?_, ?_, ?_, ?_, ?_, ?_⟩
  · intro x
    by_cases hx : x = r
    · subst hx
      have ht := h.tables x
      simp only [System.install, update_self]
      exact ⟨hrank, hs.firsthop.trans ht.firsthop, hs.edgePeers.trans ht.edgePeers⟩
    · simp only [System.install, update_of_ne hx, hnodes]
      exact h.tables x
  · intro x
    by_cases hx : x = r
    · subst hx
      simp only [System.install, update_self]
      exact ⟨hgood.routed.of_sameTables ⟨rfl, rfl, rfl⟩, by simp, hgood.pending⟩
    · simp only [System.install, update_of_ne hx, hnodes]
      exact h.good x
  · intro x
    by_cases hx : x = r
    · subst hx
      simp [System.install]
    · simp only [System.install, update_of_ne hx, hnodes]
      exact h.outbox x
  · intro u v m hm
    by_cases hu : u = r
    · subst hu
      simp only [System.install, update_self, mem_append] at hm
      rcases hm with hm | hm
      · exact h.links u v m (hlinks u v m hm)
      · simp only [sentTo, mem_map, mem_filter, decide_eq_true_eq] at hm
        obtain ⟨p, ⟨hp, rfl⟩, rfl⟩ := hm
        have := hgood.outbox p hp
        rwa [hrank] at this
    · simp only [System.install, update_of_ne hu] at hm
      exact h.links u v m (hlinks u v m hm)
  · intro u v
    by_cases hu : u = r
    · subst hu
      simp only [System.install, update_self]
      exact ⟨(hann v).sound, (hann v).complete⟩
    · simp only [System.install, update_of_ne hu, hnodes]
      exact h.announced u v
  · rw [relay_install]
    exact hrelay

/-- What `r` has started and processed only grows. -/
structure View.Grows (v v' : View n) : Prop where
  calls : v.calls <+: v'.calls
  processed : v.processed <+: v'.processed
  connected : ∀ e, v.connected e = true → v'.connected e = true

/-- The state after a step of rank `r`: a handler left `nd`, and some messages may have been
taken off the links before. -/
structure System.Steps (s s' : System n) (r : Fin n) : Prop where
  grows : (s.nodes r).view.Grows (s'.nodes r).view
  others : ∀ x, x ≠ r → s'.nodes x = s.nodes x

theorem System.steps_install (hnodes : s₁.nodes = s.nodes)
    (h : (s.nodes r).view.Grows nd.view) : s.Steps (s₁.install r nd) r := by
  refine ⟨?_, fun x hx => ?_⟩
  · simp only [install, update_self]
    exact ⟨h.calls, h.processed, h.connected⟩
  · rw [install, ← hnodes]
    exact update_of_ne hx _ _

theorem View.grows_start (v : View n) (r : Fin n) (edges : List (Fin n))
    (body : Option (Body n)) : v.Grows (v.start r edges body) := by
  cases body with
  | none => exact ⟨prefix_rfl, prefix_rfl, fun _ h => h⟩
  | some body => exact ⟨prefix_append _ _, prefix_rfl, fun _ h => h⟩

theorem Announced.congr {view view' : View n} (h : Announced c u v view)
    (hfor : view'.forwardFor = view.forwardFor) (hconn : view'.connected = view.connected) :
    Announced c u v view' :=
  ⟨fun source hs => h.sound source (hfor ▸ hs), fun hc source hs => by
    rw [hfor]
    exact h.complete (hconn ▸ hc) source hs⟩

theorem View.start_forwardFor (v : View n) (r : Fin n) (edges : List (Fin n))
    (body : Option (Body n)) :
    (v.start r edges body).forwardFor = v.forwardFor ∧
      (v.start r edges body).connected = v.connected := by
  cases body <;> exact ⟨rfl, rfl⟩

theorem View.start_processed (v : View n) (r : Fin n) (edges : List (Fin n))
    (body : Option (Body n)) : (v.start r edges body).processed = v.processed := by
  cases body <;> rfl

theorem Cluster.inv_absorb_start (c : Cluster n) {R : Relay (Fin n) (Body n)} {v : View n}
    (h : Inv c.graph c.parent (absorb R r v))
    (hedges : ∀ e, e ∈ edges ↔ c.graph.Adj r e) (body : Option (Body n)) :
    Inv c.graph c.parent (absorb R r (v.start r edges body)) := by
  cases body with
  | none => exact h
  | some body =>
    rw [absorb_start R v hedges]
    exact h.call c.parents r body

section

variable (h : System.Inv c s)

include h

theorem System.Inv.edgePeers (r e : Fin n) : e ∈ (s.nodes r).edgePeers ↔ c.graph.Adj r e := by
  rw [(h.good r).routed.peers, (h.tables r).rank]

/-- A handler that is quiet but for a broadcast it starts keeps the invariant. -/
theorem System.Inv.install_start (hnodes : s₁.nodes = s.nodes)
    (hlinks : ∀ u v, ∀ m ∈ s₁.links u v, m ∈ s.links u v) (hrelay : s₁.relay = s.relay)
    (body : Option (Body n)) {x : Except Fault (Node n)} (hx : Shows c.graph (s.nodes r) ((s.nodes
      r).view.start (s.nodes r).rank (s.nodes r).edgePeers body) x) :
    ∃ nd, x = .ok nd ∧ Inv c (s₁.install r nd) ∧ s.Steps (s₁.install r nd) r := by
  obtain ⟨nd, rfl, hgood, hs, hview⟩ := hx
  rw [(h.tables r).rank] at hview
  refine ⟨nd, rfl, h.install hnodes hlinks hgood hs (fun v => ?_) ?_,
    steps_install hnodes (hview ▸ grows_start ..)⟩
  · have hfor := start_forwardFor (s.nodes r).view r (s.nodes r).edgePeers body
    exact (h.announced r v).congr (by rw [hview, hfor.1]) (by rw [hview, hfor.2])
  · rw [hview]
    refine c.inv_absorb_start ?_ (h.edgePeers r) body
    rw [hrelay, absorb_view (h.outbox r)]
    exact h.relay

theorem System.Inv.deliver_unicast (hlink : s.links u v = msg :: rest)
    (hb : msg.broadcast = false) :
    ∃ nd, receive (s.nodes v) msg u = .ok nd ∧ System.Inv c ((s.pop u v).install v nd) ∧
      s.Steps ((s.pop u v).install v nd) v := by
  have ht := h.links u v msg (by simp [hlink])
  have httl := ht.ttl_ne_zero c.graph_dist_lt
  have hrank := (h.tables v).rank
  have hrelay : (s.pop u v).relay = s.relay := by
    ext1
    · rfl
    · rfl
    · funext x w
      by_cases hx : x = u
      · subst hx
        by_cases hw : w = v
        · subst hw
          simp [System.relay, System.pop, hlink, Message.payload?, hb]
        · simp [System.relay, System.pop, update_of_ne hw]
      · simp [System.relay, System.pop, update_of_ne hx]
    · rfl
    · rfl
  have hnodes : (s.pop u v).nodes = s.nodes := rfl
  rw [receive, if_neg httl]
  by_cases hdest : msg.destinationRank = v
  · -- the message has arrived
    have hq := (h.good v).record_process msg hb
    have hbody := processBody_view hq.good c.graph_dist_lt 1 ht.readable
    rw [hq.view, hq.tables.rank, hq.tables.edgePeers] at hbody
    have hshows := hbody.trans hq.tables
    refine h.install_start hnodes (s.mem_links_pop u v) hrelay ((s.nodes v).started msg.body) ?_
    simpa [processMessage, hdest, hrank, hb, started, record, pure, Except.pure] using hshows
  · -- it is passed on to the first hop
    have hne : msg.destinationRank ≠ (s.nodes v).rank := by rwa [hrank]
    obtain ⟨f, hf, hadj, hdist⟩ := (h.good v).firsthop hne
    have huni := ht.unicast hb
    have hnext : { msg with ttl := msg.ttl - 1 }.InTransit c.graph (s.nodes v).rank f := by
      refine ⟨hadj, ht.readable, fun _ => ⟨hdist, ?_⟩, fun hb' => ?_⟩
      · rw [hrank]
        simp only
        omega
      · simp [hb] at hb'
    have hq := (h.good v).quiet_post hnext hb msg.diagnosticSource
    refine h.install_start hnodes (s.mem_links_pop u v) hrelay none ?_
    exact ⟨_, processMessage_forward (h.good v).routed 1 hne hf httl, hq.good, hq.tables, hq.view⟩

theorem System.Inv.deliver_broadcast (hlink : s.links u v = msg :: rest)
    (hb : msg.broadcast = true) :
    ∃ nd, receive (s.nodes v) msg u = .ok nd ∧ Inv c ((s.pop u v).install v nd) ∧
      s.Steps ((s.pop u v).install v nd) v ∧
      nd.view.processed = (s.nodes v).view.processed ++ [(msg.sourceRank, msg.body)] := by
  have ht := h.links u v msg (by simp [hlink])
  have httl := ht.ttl_ne_zero c.graph_dist_lt
  have hrank := (h.tables v).rank
  obtain ⟨hdest, hhops⟩ := ht.broadcast hb
  have hpay := Message.payload?_of_broadcast hb
  have hrlink : s.relay.link u v =
      (msg.sourceRank, msg.body) :: rest.filterMap Message.payload? := by
    simp [System.relay, hlink, hpay]
  -- `u` is the parent of `v`, so one more hop is spent
  obtain ⟨-, hvs, hpar⟩ := h.relay.link u v (msg.sourceRank, msg.body) (by simp [hrlink])
  have hdist : c.graph.dist u msg.sourceRank + 1 = c.graph.dist v msg.sourceRank := by
    obtain ⟨f, hf, -, hdist⟩ := (c.firstHops v).hop msg.sourceRank (Ne.symm hvs)
    rw [c.firsthop_eq, Option.some.injEq] at hf
    simp only at hpar
    rwa [← hf, hpar] at hdist
  set nd₁ := (s.nodes v).record (.process msg) with hnd₁
  have h₁ : nd₁.Good c.graph :=
    ⟨(h.good v).routed.of_sameTables ⟨rfl, rfl, rfl⟩, (h.good v).outbox, (h.good v).pending⟩
  have hs₁ : (s.nodes v).SameTables nd₁ := ⟨rfl, rfl, rfl⟩
  have hv₁ : nd₁.view = { (s.nodes v).view with
      processed := (s.nodes v).view.processed ++ [(msg.sourceRank, msg.body)] } := by
    simp [hnd₁, view, record, sentTo, Event.call?, Event.payload?, hpay]
  obtain ⟨nd₂, hforward, h₂, hs₂, hv₂⟩ := forwardBroadcast_view h₁ 1 u hb httl
    fun edge hadj => ⟨hadj, ht.readable, fun hb' => by simp [hb] at hb', fun _ => ⟨rfl, by
      rw [hs₁.rank, hrank]
      simp only
      omega⟩⟩
  obtain ⟨nd₃, hbody, h₃, hs₃, hv₃⟩ := processBody_view h₂ c.graph_dist_lt 1 ht.readable
  have hrank₂ : nd₂.rank = v := by rw [hs₂.rank, hs₁.rank, hrank]
  have hpeers₂ : nd₂.edgePeers = (s.nodes v).edgePeers := by rw [hs₂.edgePeers, hs₁.edgePeers]
  have hnodes : (s.pop u v).nodes = s.nodes := rfl
  have hproc : nd₃.view.processed =
      (s.nodes v).view.processed ++ [(msg.sourceRank, msg.body)] := by
    rw [hv₃, start_processed, hv₂, hv₁]
    rfl
  have hcalls : (s.nodes v).view.calls <+: nd₃.view.calls := by
    have := (grows_start nd₂.view nd₂.rank nd₂.edgePeers (nd₂.started msg.body)).calls
    rw [← hv₃, hv₂, hv₁] at this
    exact this
  have hfor := start_forwardFor nd₂.view nd₂.rank nd₂.edgePeers (nd₂.started msg.body)
  have hconn : nd₃.view.connected = (s.nodes v).view.connected := by
    rw [hv₃, hfor.2, hv₂, hv₁]
    rfl
  refine ⟨nd₃, ?_, ?_, steps_install hnodes ⟨hcalls, ?_, ?_⟩, hproc⟩
  · rw [receive, if_neg httl, processMessage]
    simp only [hdest, hrank, ne_eq, not_true_eq_false, if_false, hb, if_true]
    rw [← hnd₁, hforward]
    exact hbody
  · refine h.install hnodes (s.mem_links_pop u v) h₃ (hs₁.trans (hs₂.trans hs₃))
      (fun w => (h.announced v w).congr ?_ hconn) ?_
    · rw [hv₃, hfor.1, hv₂, hv₁]
      rfl
    · rw [hv₃, hrank₂, hpeers₂]
      refine c.inv_absorb_start ?_ (h.edgePeers v) _
      rw [hv₂, hv₁, hs₁.edgePeers]
      rw [absorb_forward c ht.adj.ne (h.outbox v) (h.edgePeers v) (h.announced v) hlink hpay]
      exact h.relay.deliver c.parents hrlink
  · rw [hproc]
    exact prefix_append _ _
  · intro e he
    rw [hconn]
    exact he

/-- A connection is registered at `u`. -/
theorem System.Inv.connect (u v : Fin n) : ∃ nd, onConnect handlers (s.nodes u) v
        (getBroadcastForwardRanks (s.nodes v).firsthop u) = .ok nd ∧
      Inv c (s.install u nd) ∧ s.Steps (s.install u nd) u := by
  by_cases hadj : c.graph.Adj u v
  · have hadj' : c.graph.Adj (s.nodes u).rank v := by rwa [(h.tables u).rank]
    rw [(h.tables v).firsthop]
    obtain ⟨nd, hok, hgood, hs, hview⟩ := onConnect_view (h.good u) 1 hadj'
      (getBroadcastForwardRanks (c.paths v).firsthop u)
    refine ⟨nd, hok, h.install rfl (fun _ _ _ hm => hm) hgood hs (fun w => ?_) ?_,
      steps_install rfl ⟨?_, ?_, fun e he => ?_⟩⟩
    · rw [hview]
      by_cases hw : w = v
      · subst hw
        have hann := c.announced_connect (h.announced u w)
        refine ⟨fun source hfor => ?_, fun _ source hpar => ?_⟩
        · simpa [View.connect, hann] using hfor
        · simpa [View.connect, hann] using hpar
      · refine ⟨fun source hfor => ?_, fun hconn source hpar => ?_⟩
        · exact (h.announced u w).sound source (by simpa [View.connect, update_of_ne hw] using hfor)
        · have := (h.announced u w).complete
            (by simpa [View.connect, update_of_ne hw] using hconn) source hpar
          simpa [View.connect, update_of_ne hw] using this
    · rw [hview, absorb_connect c (h.outbox u) (h.announced u v)]
      exact h.relay.connect c.parents hadj
    · rw [hview]
      exact prefix_rfl
    · rw [hview]
      exact prefix_rfl
    · rw [hview]
      by_cases hev : e = v
      · simp [View.connect, hev]
      · simpa [View.connect, update_of_ne hev] using he
  · refine h.install_start rfl (fun _ _ _ hm => hm) rfl none ?_
    rw [onConnect, if_neg (by rwa [h.edgePeers])]
    exact ⟨_, rfl, h.good u, .refl _, rfl⟩

end

def Action.rank : Action n → Fin n
  | .deliver _ v => v
  | .connect u _ => u
  | .operation r .. => r
  | .broadcast r _ => r
  | .closing r .. => r

theorem System.Steps.refl (s : System n) (r : Fin n) : s.Steps s r :=
  ⟨⟨prefix_rfl, prefix_rfl, fun _ h => h⟩, fun _ _ => rfl⟩

theorem System.Inv.step (h : System.Inv c s) (a : Action n) :
    ∃ s', s.step a = .ok s' ∧ System.Inv c s' ∧ s.Steps s' a.rank := by
  cases a with
  | deliver u v =>
    rw [System.step]
    cases hlink : s.links u v with
    | nil => exact ⟨s, rfl, h, .refl s v⟩
    | cons msg rest =>
      simp only [List.head?_cons]
      cases hb : msg.broadcast with
      | false =>
        obtain ⟨nd, hok, hinv, hsteps⟩ := h.deliver_unicast hlink hb
        exact ⟨_, by rw [hok]; rfl, hinv, hsteps⟩
      | true =>
        obtain ⟨nd, hok, hinv, hsteps, -⟩ := h.deliver_broadcast hlink hb
        exact ⟨_, by rw [hok]; rfl, hinv, hsteps⟩
  | connect u v =>
    obtain ⟨nd, hok, hinv, hsteps⟩ := h.connect u v
    exact ⟨_, by rw [System.step, hok]; rfl, hinv, hsteps⟩
  | operation r id op key =>
    obtain ⟨nd, w, hok, hq⟩ := quiet_doWaitOp (h.good r) c.graph_dist_lt id op key
    obtain ⟨nd', hnd', hinv, hsteps⟩ := h.install_start (r := r) rfl (fun _ _ _ hm => hm) rfl
      none ⟨nd, rfl, hq.good, hq.tables, hq.view⟩
    cases hnd'
    exact ⟨_, by rw [System.step, hok]; rfl, hinv, hsteps⟩
  | broadcast r a =>
    have hread : a.body.Readable := by cases a <;> exact fun _ hb => by cases hb
    obtain ⟨nd, hok, hinv, hsteps⟩ := h.install_start (r := r) rfl (fun _ _ _ hm => hm) rfl
      (some a.body) (broadcastMessage_view (h.good r) 1 a.body hread)
    exact ⟨_, by rw [System.step, hok]; rfl, hinv, hsteps⟩
  | closing r shuttingDown exited exitSourceRank =>
    have hq : Quiet c.graph (s.nodes r) { s.nodes r with
        shuttingDown := shuttingDown, exited := exited, exitSourceRank := exitSourceRank } :=
      (h.good r).quiet_of_state ⟨rfl, rfl, rfl⟩ rfl rfl rfl
    obtain ⟨nd, hnd, hinv, hsteps⟩ := h.install_start (r := r) rfl (fun _ _ _ hm => hm) rfl
      none ⟨_, rfl, hq.good, hq.tables, hq.view⟩
    cases hnd
    exact ⟨_, rfl, hinv, hsteps⟩

theorem System.Inv.run (h : Inv c s) (actions : List (Action n)) :
    ∃ s', s.run actions = .ok s' ∧ Inv c s' := by
  induction actions generalizing s with
  | nil => exact ⟨s, rfl, h⟩
  | cons a actions ih =>
    obtain ⟨s₁, hstep, h₁, -⟩ := h.step a
    obtain ⟨s₂, hrun, h₂⟩ := ih h₁
    refine ⟨s₂, ?_, h₂⟩
    rw [run, foldlM_cons, hstep]
    exact hrun

end Store
