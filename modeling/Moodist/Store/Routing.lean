import Moodist.Store.Sending

/-!
# Point-to-point routing

Every rank forwards a message by its own table, and the tables come from independent
searches with different ties. Each hop is one step closer to the destination in the common
graph, so the route is a shortest path whatever the ties.
-/

namespace Store

open Foundation

variable {n : ℕ} {paths : Paths n} {rank : Fin n} {nd : Node n}

/-- `nd` is a state of rank `r`, whose constructor found the tables `paths`. -/
structure Node.HasTables (nd : Node n) (r : Fin n) (paths : Paths n) : Prop where
  rank : nd.rank = r
  firsthop : nd.firsthop = paths.firsthop
  edgePeers : nd.edgePeers = paths.edges r

theorem Node.HasTables.routed
    (h : nd.HasTables rank paths) {seed : Seed n} {shuffle : Fin n → Shuffle (Fin n)}
    {lists : Fin n → List (Fin n)} (hl : meshEdges seed = .ok lists)
    (hp : findPaths seed rank shuffle = .ok paths) : nd.Routed (meshGraph lists) := by
  obtain ⟨hperm, hhops⟩ := findPaths_ok hl hp
  obtain ⟨hmesh, -⟩ := meshEdges_isMesh hl
  refine ⟨?_, ?_, ?_⟩
  · rw [h.rank, h.firsthop]
    exact hhops
  · intro e
    rw [h.edgePeers, h.rank, (hperm rank).mem_iff, hmesh.adj_iff]
  · rw [h.edgePeers, (hperm rank).nodup_iff]
    exact hmesh.nodup rank

theorem Node.create_hasTables {addrs : List String}
    (h : Node.create rank paths addrs = .ok nd) : nd.HasTables rank paths := by
  rw [Node.create] at h
  split at h
  · cases h
    exact ⟨rfl, rfl, rfl⟩
  · cases h

/-- The message `msg` arrives at `r`, and `route` are the ranks it visits from there on. At
each but the last, every state of the rank hands it to the next without a failed check;
at the last, every state of the rank processes it as its own. -/
inductive Journey (paths : Fin n → Paths n) : Fin n → Message n → List (Fin n) → Prop where
  | arrive {r : Fin n} {msg : Message n} (hdest : msg.destinationRank = r)
      (hlocal : ∀ (nd : Node n) (edgeRank : Fin n), nd.HasTables r (paths r) →
        receive nd msg edgeRank = processBody handlers (nd.record (.process msg)) msg) :
      Journey paths r msg [r]
  | hop {r next : Fin n} {msg : Message n} {route : List (Fin n)}
      (hdest : msg.destinationRank ≠ r)
      (hforward : ∀ (nd : Node n) (edgeRank : Fin n), nd.HasTables r (paths r) →
        receive nd msg edgeRank =
          .ok (nd.post next { msg with ttl := msg.ttl - 1 } msg.diagnosticSource))
      (hrest : Journey paths next { msg with ttl := msg.ttl - 1 } route) :
      Journey paths r msg (r :: route)

section

variable {seed : Seed n} {shuffle : Fin n → Fin n → Shuffle (Fin n)}
  {lists : Fin n → List (Fin n)} {paths : Fin n → Paths n}

/-- A message whose hops suffice travels along ranks of decreasing distance. -/
theorem exists_journey (hl : meshEdges seed = .ok lists)
    (hp : ∀ r, findPaths seed r (shuffle r) = .ok (paths r)) (r : Fin n) (msg : Message n)
    (hb : msg.broadcast = false) {d : ℕ}
    (hd : (meshGraph lists).dist r msg.destinationRank = d) (httl : d < msg.ttl) :
    ∃ route, Journey paths r msg route ∧ route.length = d + 1 ∧ route.Nodup ∧
      route.getLast? = some msg.destinationRank ∧
      ∀ x ∈ route, (meshGraph lists).dist x msg.destinationRank ≤ d := by
  have hreceive : ∀ (nd : Node n) (edgeRank : Fin n),
      receive nd msg edgeRank = processMessage handlers nd msg edgeRank :=
    fun nd edgeRank => if_neg (by omega)
  -- on the distance to the destination, which each hop makes smaller
  induction d generalizing r msg with
  | zero =>
    have hdest : r = msg.destinationRank := (meshEdges_connected hl r _).dist_eq_zero_iff.mp hd
    refine ⟨[r], .arrive hdest.symm ?_, rfl, by simp, by simp [hdest], ?_⟩
    swap
    · intro x hx
      rw [List.mem_singleton.mp hx, hd]
    intro nd edgeRank hnd
    have hlocal : ¬ msg.destinationRank ≠ nd.rank := by simp [hnd.rank, hdest]
    simp [hreceive, processMessage, hlocal, hb, bind, Except.bind, pure, Except.pure]
  | succ d ih =>
    have hdest : msg.destinationRank ≠ r := by
      rintro heq
      rw [heq, SimpleGraph.dist_self] at hd
      omega
    obtain ⟨f, hf, -, hdist⟩ := (findPaths_ok hl (hp r)).2.hop _ hdest
    obtain ⟨route, hjourney, hlen, hnodup, hlast, hle⟩ :=
      ih f { msg with ttl := msg.ttl - 1 } hb (by simp only; omega) (by simp only; omega)
        fun nd edgeRank => if_neg (by simp only; omega)
    refine ⟨r :: route, .hop hdest ?_ hjourney, by simp [hlen], ?_, ?_, ?_⟩
    · intro nd edgeRank hnd
      have hrouted := hnd.routed hl (hp r)
      rw [hreceive]
      exact processMessage_forward hrouted 1 (by rwa [hnd.rank]) (by rwa [hnd.firsthop]) (by omega)
    · -- later ranks are closer to the destination than `r`
      refine List.nodup_cons.mpr ⟨fun hr => ?_, hnodup⟩
      have := hle r hr
      simp only at this
      omega
    · rw [List.getLast?_cons, hlast]
      rfl
    · intro x hx
      rcases List.mem_cons.mp hx with rfl | hx
      · omega
      · have := hle x hx
        simp only at this
        omega

theorem dist_lt (hl : meshEdges seed = .ok lists) (u v : Fin n) :
    (meshGraph lists).dist u v < n := by
  obtain ⟨p, hpath, hlen⟩ := (meshEdges_connected hl u v).exists_path_of_dist
  have := hpath.length_lt
  rwa [hlen, Fintype.card_fin] at this

/-- For every world size, every seed of the mesh and every shuffle on every rank: a message
that rank `a` creates for rank `b` is processed at once if `b` is `a`, and is otherwise
handed to the first of a list of ranks that ends in `b`. The list has as many ranks as
the distance from `a` to `b`, none of them twice and none of them `a`. Every rank of it
but the last passes the message on, and only the last one processes it. -/
theorem sendMessageTo_route (hl : meshEdges seed = .ok lists)
    (hp : ∀ r, findPaths seed r (shuffle r) = .ok (paths r)) (a b : Fin n) (id : UInt32)
    (diagnosticSource : Fin n) (body : Body n) :
    let msg : Message n :=
      { ttl := n, destinationRank := b, id := id, sourceRank := a,
        diagnosticSource := diagnosticSource, broadcast := false, body := body }
    (a = b → ∀ (nd : Node n) (k : ℕ), nd.HasTables a (paths a) →
      sendMessageTo (calls (k + 1)) nd b id diagnosticSource body =
        processBody (calls k) (nd.record (.process msg)) msg) ∧
    (a ≠ b → ∃ next route,
      (∀ (nd : Node n) (k : ℕ), nd.HasTables a (paths a) →
        sendMessageTo (calls (k + 1)) nd b id diagnosticSource body =
          .ok (nd.post next msg diagnosticSource)) ∧
      Journey paths next msg route ∧
      route.length = (meshGraph lists).dist a b ∧
      (a :: route).Nodup ∧
      route.getLast? = some b) := by
  intro msg
  refine ⟨?_, ?_⟩
  · rintro rfl nd k hnd
    obtain rfl := hnd.rank
    rw [sendMessageTo_self (hnd.routed hl (hp _))]
    simp [calls, processMessage, msg, bind, Except.bind, pure, Except.pure]
  · intro hne
    obtain ⟨f, hf, -, hdist⟩ := (findPaths_ok hl (hp a)).2.hop b hne.symm
    have hlt := dist_lt hl a b
    obtain ⟨route, hjourney, hlen, hnodup, hlast, hle⟩ :=
      exists_journey hl hp f msg rfl rfl (by simp only [msg]; omega)
    refine ⟨f, route, ?_, hjourney, ?_, ?_, hlast⟩
    · intro nd k hnd
      rw [sendMessageTo_eq (hnd.routed hl (hp a)) k (by rw [hnd.rank]; exact hne.symm)
        (by rwa [hnd.firsthop]), hnd.rank]
    · rw [hlen]
      exact hdist
    · refine List.nodup_cons.mpr ⟨fun ha => ?_, hnodup⟩
      have := hle a ha
      simp only [msg] at this
      omega

/-- A seed for six ranks: the shuffle changes nothing, and what is drawn then leaves a shortcut from
each rank to the second one before it. -/
def seedSix : Seed 6 := ⟨1, [2, 4, 3, 5]⟩

theorem sendMessageTo_route_six :
    ∃ lists paths, meshEdges seedSix = .ok lists ∧
      (∀ r, findPaths seedSix r (fun _ => .refl _) = .ok (paths r)) ∧
      ∃ next route,
        Journey paths next
          { ttl := 6, destinationRank := 3, id := 7, sourceRank := 0, diagnosticSource := 0,
            broadcast := false, body := .get [] } route ∧
        route.length = (meshGraph lists).dist 0 3 ∧ (0 :: route).Nodup ∧
        route.getLast? = some 3 := by
  obtain ⟨lists, hl⟩ : ∃ lists, meshEdges seedSix = .ok lists := ⟨_, rfl⟩
  choose paths hp _ using fun r => findPaths_spec hl r fun _ => Shuffle.refl (Fin 6)
  obtain ⟨next, route, -, hroute⟩ := (sendMessageTo_route hl hp 0 3 7 0 (.get [])).2 (by decide)
  exact ⟨lists, paths, hl, hp, next, route, hroute⟩

end

end Store
