import Moodist.Foundation.Fifo
import Moodist.Store.Broadcast
import Moodist.Store.Topology

/-!
# Broadcasts are delivered

What holds of the broadcasts in every run: each rank has processed a first part of what a source has
broadcast, in order, and nothing of its own.
-/

namespace Store

open Foundation List

variable {n : ℕ}

/-- The bodies of the `broadcastMessage` calls of a rank. -/
def Node.broadcastCalls (nd : Node n) : List (Body n) := nd.trace.filterMap Event.call?

/-- The bodies of the broadcasts of `source` that a rank has processed. -/
def Node.processedFrom (nd : Node n) (source : Fin n) : List (Body n) :=
  payloads source (nd.trace.filterMap Event.payload?)

/-- An infinite run of a cluster. -/
structure Execution (c : Cluster n) where
  state : ℕ → System n
  action : ℕ → Action n
  start : state 0 = c.init
  next : ∀ t, (state t).step (action t) = .ok (state (t + 1))

namespace Execution

variable {c : Cluster n} (ex : Execution c)

def Fair : Prop :=
  ∀ u v t, (ex.state t).links u v ≠ [] → ∃ t' ≥ t, ex.action t' = .deliver u v

theorem inv (t : ℕ) : System.Inv c (ex.state t) := by
  induction t with
  | zero =>
    rw [ex.start]
    exact c.inv_init
  | succ t ih =>
    obtain ⟨s', hstep, hinv, -⟩ := ih.step (ex.action t)
    rw [ex.next t] at hstep
    cases hstep
    exact hinv

theorem steps (t : ℕ) : (ex.state t).Steps (ex.state (t + 1)) (ex.action t).rank := by
  obtain ⟨s', hstep, -, hsteps⟩ := (ex.inv t).step (ex.action t)
  rw [ex.next t] at hstep
  cases hstep
  exact hsteps

theorem grows_succ (t : ℕ) (r : Fin n) :
    ((ex.state t).nodes r).view.Grows ((ex.state (t + 1)).nodes r).view := by
  by_cases hr : r = (ex.action t).rank
  · rw [hr]
    exact (ex.steps t).grows
  · rw [(ex.steps t).others r hr]
    exact ⟨prefix_rfl, prefix_rfl, fun _ h => h⟩

variable {t t' : ℕ}

theorem grows (h : t ≤ t') (r : Fin n) :
    ((ex.state t).nodes r).view.Grows ((ex.state t').nodes r).view := by
  induction t', h using Nat.le_induction with
  | base => exact ⟨prefix_rfl, prefix_rfl, fun _ h => h⟩
  | succ t' _ ih =>
    have hnext := ex.grows_succ t' r
    exact ⟨ih.calls.trans hnext.calls, ih.processed.trans hnext.processed,
      fun e he => hnext.connected e (ih.connected e he)⟩

theorem processed_mono (h : t ≤ t') (v source : Fin n) :
    ((ex.state t).relay.processed v source) <+: (ex.state t').relay.processed v source :=
  ((ex.grows h v).processed.filter _).map _

theorem seen_mono (h : t ≤ t') (source u : Fin n) :
    (ex.state t).relay.seen source u <+: (ex.state t').relay.seen source u := by
  rw [Relay.seen, Relay.seen]
  split
  · exact (ex.grows h source).calls
  · exact ex.processed_mono h u source

theorem fifoHistory (u v : Fin n) :
    FifoHistory (fun t => (ex.state t).links u v) fun t => ex.action t = .deliver u v :=
  ⟨fun t => (System.step_links (ex.next t) u v).1, fun t => (System.step_links (ex.next t) u v).2⟩

variable {source u v : Fin n}

theorem processed_deliver {body : Body n} {msg : Message n}
    (haction : ex.action t = .deliver u v) (hhead : ((ex.state t).links u v).head? = some msg)
    (hpay : msg.payload? = some (source, body)) : (ex.state (t + 1)).relay.processed v source =
      (ex.state t).relay.processed v source ++ [body] := by
  obtain ⟨rest, hlink⟩ : ∃ rest, (ex.state t).links u v = msg :: rest := by
    cases hl : (ex.state t).links u v with
    | nil => simp [hl] at hhead
    | cons m rest =>
      obtain rfl : m = msg := by simpa [hl] using hhead
      exact ⟨rest, rfl⟩
  have hb : msg.broadcast = true := by
    by_contra hb
    simp [Message.payload?, hb] at hpay
  obtain ⟨nd, hok, -, -, hproc⟩ := (ex.inv t).deliver_broadcast hlink hb
  have hstep := ex.next t
  rw [haction, System.step, hhead] at hstep
  simp only [hok, ok_bind] at hstep
  have hstate := Except.ok.inj hstep
  rw [Message.payload?_of_broadcast hb, Option.some.injEq, Prod.mk.injEq] at hpay
  obtain ⟨rfl, rfl⟩ := hpay
  rw [← hstate, System.relay_install]
  simp [absorb, hproc, payloads_cons_self, System.relay]

/-- A broadcast that is on its way to `v` is processed there. -/
theorem eventually_processed_of_link (hfair : ex.Fair)
    (hne : payloads source ((ex.state t).relay.link u v) ≠ []) :
    ∃ t' ≥ t, ((ex.state t).relay.processed v source).length <
      ((ex.state t').relay.processed v source).length := by
  obtain ⟨body, hbody⟩ := exists_mem_of_ne_nil _ hne
  simp only [payloads, System.relay, mem_map, mem_filter, mem_filterMap] at hbody
  obtain ⟨p, ⟨⟨msg, hmsg, hpay⟩, hsource⟩, -⟩ := hbody
  rw [decide_eq_true_eq] at hsource
  subst hsource
  obtain ⟨i, hi⟩ := mem_iff_getElem?.mp hmsg
  obtain ⟨t', hle, haction, hhead⟩ := (ex.fifoHistory u v).eventually_head (hfair u v) hi
  refine ⟨t' + 1, by omega, ?_⟩
  rw [ex.processed_deliver haction hhead hpay, length_append, length_singleton]
  have := (ex.processed_mono hle v p.1).length_le
  omega

/-- What the parent of `v` has had, `v` processes in the end. -/
theorem eventually_processed_of_seen (hfair : ex.Fair) (hv : v ≠ source)
    (hconn : (ex.state t).relay.connected (c.parent source v) v = true) (k : ℕ)
    (hk : k ≤ ((ex.state t).relay.seen source (c.parent source v)).length) :
    ∃ t' ≥ t, k ≤ ((ex.state t').relay.processed v source).length := by
  induction k with
  | zero => exact ⟨t, le_rfl, Nat.zero_le _⟩
  | succ k ih =>
    obtain ⟨t₁, hle₁, hk₁⟩ := ih (by omega)
    by_cases hdone : k + 1 ≤ ((ex.state t₁).relay.processed v source).length
    · exact ⟨t₁, hle₁, hdone⟩
    · -- the next one is on the link, since nothing is pending
      have hconn₁ := (ex.grows hle₁ (c.parent source v)).connected v hconn
      have hflow := (ex.inv t₁).relay.flow source v hv
      rw [(ex.inv t₁).relay.connected _ _ hconn₁, payloads_nil, append_nil] at hflow
      have hseen := ex.seen_mono hle₁ source (c.parent source v)
      have hlink : payloads source ((ex.state t₁).relay.link (c.parent source v) v) ≠ [] := by
        intro hnil
        rw [hnil, append_nil] at hflow
        rw [hflow] at hseen
        have := hseen.length_le
        omega
      obtain ⟨t₂, hle₂, hlt⟩ := ex.eventually_processed_of_link hfair hlink
      exact ⟨t₂, by omega, by omega⟩

/-- Every broadcast is processed everywhere in the end. -/
theorem eventually_processed (hfair : ex.Fair)
    (hconn : ∀ u v, c.graph.Adj u v → ∃ t, ((ex.state t).nodes u).view.connected v = true)
    (hv : v ≠ source) (t : ℕ) :
    ∃ t' ≥ t, (ex.state t).relay.calls source <+: (ex.state t').relay.processed v source := by
  induction hd : c.graph.dist v source using Nat.strong_induction_on generalizing v t with
  | _ d ih =>
    have hp := c.parents
    -- the parent has had all of it by some time
    obtain ⟨t₁, hle₁, hseen⟩ : ∃ t₁ ≥ t, (ex.state t).relay.calls source <+:
        (ex.state t₁).relay.seen source (c.parent source v) := by
      by_cases hroot : c.parent source v = source
      · exact ⟨t, le_rfl, by rw [Relay.seen, if_pos hroot]⟩
      · obtain ⟨t₁, hle₁, hpre⟩ := ih _ (hd ▸ hp.depth_lt source v hv) hroot t rfl
        exact ⟨t₁, hle₁, by rwa [Relay.seen, if_neg hroot]⟩
    obtain ⟨t₂, hconn₂⟩ := hconn _ _ (hp.adj source v hv)
    set t₃ := max t₁ t₂ with ht₃
    have hconn₃ := (ex.grows (le_max_right t₁ t₂) (c.parent source v)).connected v hconn₂
    have hseen₃ := hseen.trans (ex.seen_mono (le_max_left t₁ t₂) source (c.parent source v))
    obtain ⟨t', hle, hlen⟩ := ex.eventually_processed_of_seen hfair hv hconn₃ _ hseen₃.length_le
    have hle' : t ≤ t' := by omega
    refine ⟨t', hle', ?_⟩
    exact prefix_of_prefix_length_le (ex.grows hle' source).calls
      ((ex.inv t').relay.isPrefix hp source v) hlen

end Execution

/-- For every world size, store key and shuffle, and for every run: no check fails, the
broadcasts of a source that a rank has processed are a first part of those it has
started, in order, and no rank processes its own. Once all edges have connected and the
links hold no broadcast, every other rank has processed them all; and in a run whose
links keep delivering this comes about for each of them. -/
theorem broadcastMessage_exactly_once (c : Cluster n) :
    (∀ actions : List (Action n), ∃ s, c.init.run actions = .ok s ∧
      (∀ source v, (s.nodes v).processedFrom source <+: (s.nodes source).broadcastCalls) ∧
      (∀ source, (s.nodes source).processedFrom source = []) ∧
      ((∀ u v, c.graph.Adj u v → ((s.nodes u).edgeInfo v).everConnected = true) →
        (∀ u v, ∀ m ∈ s.links u v, m.broadcast = false) →
        ∀ source v, v ≠ source →
          (s.nodes v).processedFrom source = (s.nodes source).broadcastCalls)) ∧
    (∀ ex : Execution c, ex.Fair →
      (∀ u v, c.graph.Adj u v →
        ∃ t, (((ex.state t).nodes u).edgeInfo v).everConnected = true) →
      ∀ source v, v ≠ source → ∀ t, ∃ t' ≥ t,
        ((ex.state t).nodes source).broadcastCalls <+:
          ((ex.state t').nodes v).processedFrom source) := by
  refine ⟨fun actions => ?_, fun ex hfair hconn source v hv t => ?_⟩
  · obtain ⟨s, hrun, hinv⟩ := c.inv_init.run actions
    refine ⟨s, hrun, hinv.relay.isPrefix c.parents, hinv.relay.self, ?_⟩
    intro hconn hlinks source v hv
    refine hinv.relay.complete c.parents hconn (fun u w => ?_) hv
    rw [System.relay, filterMap_eq_nil_iff]
    intro m hm
    rw [Message.payload?, if_neg (by simp [hlinks u w m hm])]
  · exact ex.eventually_processed hfair hconn hv t

/-! ## A cluster of six ranks -/

def listsSix : Fin 6 → List (Fin 6) := (meshEdges seedSix).toOption.getD fun _ => []

def pathsSix (r : Fin 6) : Paths 6 :=
  (findPaths seedSix r fun _ => .refl _).toOption.getD ⟨listsSix, fun _ => none⟩

def clusterSix : Cluster 6 where
  seed := seedSix
  shuffle := fun _ _ => .refl _
  myUdpAddresses := fun _ => []
  lists := listsSix
  paths := pathsSix
  nodes := fun r =>
    { rank := r, firsthop := (pathsSix r).firsthop, edgePeers := (pathsSix r).edges r }
  meshEdges_eq := rfl
  findPaths_eq := fun r => by fin_cases r <;> rfl
  create_eq := fun r => by fin_cases r <;> rfl

/-- The run of a cluster with these steps. -/
def Cluster.execution (c : Cluster n) (action : ℕ → Action n) : Execution c where
  state t := (c.init.run ((range t).map action)).toOption.getD c.init
  action := action
  start := rfl
  next t := by
    obtain ⟨s, hrun, hinv⟩ := c.inv_init.run ((range t).map action)
    obtain ⟨s', hstep, -⟩ := hinv.step (action t)
    have hrun' : c.init.run ((range (t + 1)).map action) = .ok s' := by
      rw [System.run] at hrun ⊢
      rw [range_succ, map_append, foldlM_append, hrun]
      change s.step (action t) >>= pure = _
      rw [hstep]
      rfl
    rw [hrun, hrun']
    exact hstep

theorem mod_six_lt (k : ℕ) : k % 6 < 6 := Nat.mod_lt k (by decide)

def rankSix (k : ℕ) : Fin 6 := ⟨k % 6, mod_six_lt k⟩

/-- All ranks connect, rank 0 broadcasts, and the links deliver in turn. -/
def broadcastSix (t : ℕ) : Action 6 :=
  let u := rankSix (t / 6)
  let v := rankSix t
  if t < 36 then .connect u v else if t = 36 then .broadcast (rankSix 0) .exitAck else .deliver u v

/-- After two rounds of the links the broadcast has come to all. -/
def arrivedSix (s : System 6) : Bool :=
  decide ((s.nodes (rankSix 0)).broadcastCalls = [.exitAck]) &&
    decide (∀ u, ∀ v ∈ listsSix u, ((s.nodes u).edgeInfo v).everConnected = true) &&
    decide (∀ u v, ∀ m ∈ s.links u v, m.broadcast = false)

theorem fair_broadcastSix : (clusterSix.execution broadcastSix).Fair := by
  intro u v t _
  refine ⟨36 * (t + 2) + 6 * u + v, by omega, ?_⟩
  have hu : rankSix ((36 * (t + 2) + 6 * u + v) / 6) = u :=
    Fin.ext (show _ % 6 = u.val by omega)
  have hv : rankSix (36 * (t + 2) + 6 * u + v) = v := Fin.ext (show _ % 6 = v.val by omega)
  show broadcastSix _ = _
  rw [broadcastSix, if_neg (by omega), if_neg (by omega), hu, hv]

theorem broadcastMessage_exactly_once_six :
    (∃ s, clusterSix.init.run ((range 109).map broadcastSix) = .ok s ∧
      ∀ v, v ≠ 0 → (s.nodes v).processedFrom 0 = [.exitAck]) ∧
    ∀ v, v ≠ 0 → ∃ t' ≥ 37,
      [.exitAck] <+: (((clusterSix.execution broadcastSix).state t').nodes v).processedFrom 0 := by
  obtain ⟨hruns, hfair⟩ := broadcastMessage_exactly_once clusterSix
  have hadj : ∀ {u v}, clusterSix.graph.Adj u v → v ∈ listsSix u :=
    (meshEdges_isMesh clusterSix.meshEdges_eq).1.adj_iff.mp
  constructor
  · obtain ⟨s, hrun, -, -, hcomplete⟩ := hruns ((range 109).map broadcastSix)
    have harrived : (clusterSix.init.run ((range 109).map broadcastSix)).toOption.map arrivedSix =
        some true := by
      decide +kernel
    rw [hrun] at harrived
    obtain ⟨⟨hcalls, hconn⟩, hlinks⟩ : (_ ∧ _) ∧ _ := by
      simpa only [arrivedSix, Bool.and_eq_true, decide_eq_true_eq] using Option.some.inj harrived
    refine ⟨s, hrun, fun v hv => ?_⟩
    exact (hcomplete (fun u v huv => hconn u v (hadj huv)) hlinks 0 v hv).trans hcalls
  · have hcalls : (((clusterSix.execution broadcastSix).state 37).nodes 0).broadcastCalls =
        [.exitAck] := by
      decide +kernel
    have hconn : ∀ u, ∀ v ∈ listsSix u,
        ((((clusterSix.execution broadcastSix).state 36).nodes u).edgeInfo v).everConnected
          = true := by
      decide +kernel
    intro v hv
    rw [← hcalls]
    exact hfair (clusterSix.execution broadcastSix) fair_broadcastSix
      (fun u v huv => ⟨36, hconn u v (hadj huv)⟩) 0 v hv 37

end Store
