import Moodist.Foundation.Reader
import Moodist.Foundation.Search

/-!
# The store's mesh and its routing tables

Every rank of the store computes the same mesh of TCP edges: a ring, and with more than
four ranks one shortcut per rank, drawn by a generator that is seeded with the store key.
Each rank then shuffles its own copy of the edge lists and finds, by a breadth-first search
from itself, the neighbour through which it reaches every other rank.

The random choices are parameters. `Seed` is what the shared generator yields and `Shuffle`
is one outcome of a rank's own generator.
-/

namespace Store

open Foundation List Function

variable {n : ℕ}

/-- A name for the instance, which the definitions that test membership share. -/
instance decidableMemRanks (r : Fin n) (ranks : List (Fin n)) : Decidable (r ∈ ranks) :=
  List.instDecidableMemOfLawfulBEq r ranks

/-- What stops a handler: a failed `CHECK`, or a limit of the model. -/
inductive Fault where
  /-- `addedge`: the edge is listed at one end only. -/
  | edgeListed
  /-- `findPaths`: a neighbour of this rank is visited twice. -/
  | revisited
  /-- `findPaths`: a rank was not reached. -/
  | unreached
  /-- The generator yields no more numbers. -/
  | drawsExhausted
  /-- The constructor: more than `maxEdgePeers` neighbours. -/
  | tooManyPeers
  /-- `processMessage`, `forwardBroadcast` and `onreadtcp`: the message has no hops left. -/
  | ttlZero
  /-- `processMessage` and `doWaitOp`: there is no first hop to the destination. -/
  | noFirstHop
  /-- `getEdge`: the rank is not a neighbour. -/
  | noEdge
  /-- `internalStoreSetValue`: the stored value has moved. -/
  | storeMoved
  /-- A `SerializationError`: the message is too short. -/
  | endOfData
  /-- The handlers call each other more deeply than the model allows for. -/
  | callDepth
  deriving DecidableEq, Repr

/-! ## The edge lists -/

/-- `addedge` of `findPaths`. -/
def addEdge (edges : Fin n → List (Fin n)) (i e : Fin n) :
    Except Fault (Fin n → List (Fin n)) :=
  if i = e then .ok edges
  else if e ∈ edges i then .ok edges
  else
    let edges := update edges i (edges i ++ [e])
    if i ∈ edges e then .error .edgeListed
    else .ok (update edges e (edges e ++ [i]))

/-- `addedge` for each pair in turn. -/
def addEdges (edges : Fin n → List (Fin n)) (pairs : List (Fin n × Fin n)) :
    Except Fault (Fin n → List (Fin n)) :=
  pairs.foldlM (fun edges p => addEdge edges p.1 p.2) edges

/-- `(i + 1) % worldSize`. -/
def ringNext (i : Fin n) : Fin n :=
  ⟨(i.val + 1) % n, Nat.mod_lt _ i.pos⟩

def neighbors (a b : Fin n) : Bool :=
  let x := if b.val < a.val then a.val - b.val else b.val - a.val
  x == 1 || x == n - 1

/-- What the generator seeded with the store key yields: the shuffled ranks, and the
numbers that are drawn after them. -/
structure Seed (n : ℕ) where
  connections : Equiv.Perm (Fin n)
  draws : List (Fin n)

/-- `std::swap(connections[i], connections[x])`. -/
def swapConnections (connections : Fin n → Fin n) (i x : Fin n) : Fin n → Fin n :=
  update (update connections i (connections x)) x (connections i)

/-- The condition of the inner loop that draws again for `i`. -/
def unsuitable (connections : Fin n → Fin n) (i : Fin n) : Bool :=
  connections i == i || neighbors i (connections i) || connections (connections i) == i

/-- The inner loop for rank `i`. It ends with the numbers that are left. -/
def redraw (i : Fin n) (connections : Fin n → Fin n) :
    List (Fin n) → Except Fault ((Fin n → Fin n) × List (Fin n))
  | [] => if unsuitable connections i then .error .drawsExhausted else .ok (connections, [])
  | x :: draws =>
    if unsuitable connections i then
      redraw i (if neighbors x (connections i) then connections
        else swapConnections connections i x) draws
    else .ok (connections, x :: draws)

def shortcuts (seed : Seed n) : Except Fault (Fin n → Fin n) := do
  let r ← (finRange n).foldlM (fun c i => redraw i c.1 c.2)
    ((seed.connections : Fin n → Fin n), seed.draws)
  pure r.1

def meshEdges (seed : Seed n) : Except Fault (Fin n → List (Fin n)) := do
  let edges ← addEdges (fun _ => []) ((finRange n).map fun i => (i, ringNext i))
  if 4 < n then
    let connections ← shortcuts seed
    addEdges edges ((finRange n).map fun i => (i, connections i))
  else pure edges

/-! ## The routing table of one rank -/

/-- One outcome of `std::ranges::shuffle`. -/
structure Shuffle (α : Type*) where
  apply : List α → List α
  perm : ∀ l, (apply l).Perm l

def Shuffle.refl (α : Type*) : Shuffle α := ⟨id, fun _ => .refl _⟩

/-- What `findPaths` leaves in `edges` and `firsthop`. A first hop that is still
`worldSize` is `none`. -/
structure Paths (n : ℕ) where
  edges : Fin n → List (Fin n)
  firsthop : Fin n → Option (Fin n)

def openNeighbors (s : Search (Fin n)) (first : List (Fin n)) :
    Except Fault (Search (Fin n)) :=
  first.foldlM
    (fun s v => if s.visited v then .error .revisited else .ok (s.discover ⟨v, v, 1⟩)) s

/-- `StoreImpl::findPaths` on `rank`, which shuffles the list of rank `i` by `shuffle i`. -/
def findPaths (seed : Seed n) (rank : Fin n) (shuffle : Fin n → Shuffle (Fin n)) :
    Except Fault (Paths n) := do
  let lists ← meshEdges seed
  let edges := fun i => (shuffle i).apply (lists i)
  let s ← openNeighbors (.root rank) (edges rank)
  let s := s.run edges n
  if (finRange n).all s.visited then pure ⟨edges, s.firsthop⟩
  else throw .unreached

/-- `StoreImpl::getBroadcastForwardRanks`: the ranks whose first hop is `edge`. -/
def getBroadcastForwardRanks (firsthop : Fin n → Option (Fin n)) (edge : Fin n) :
    List (Fin n) :=
  (finRange n).filter fun r => firsthop r == some edge

@[simp] theorem mem_getBroadcastForwardRanks {firsthop : Fin n → Option (Fin n)}
    {edge r : Fin n} : r ∈ getBroadcastForwardRanks firsthop edge ↔ firsthop r = some edge := by
  simp [getBroadcastForwardRanks]

/-! ## The mesh is a connected graph -/

/-- Edge lists of an undirected graph without loops and repetitions. -/
structure IsMesh (edges : Fin n → List (Fin n)) : Prop where
  symm : ∀ u v, v ∈ edges u → u ∈ edges v
  irrefl : ∀ u, u ∉ edges u
  nodup : ∀ u, (edges u).Nodup

def meshGraph (edges : Fin n → List (Fin n)) : SimpleGraph (Fin n) :=
  SimpleGraph.fromRel fun u v => v ∈ edges u

instance (edges : Fin n → List (Fin n)) : DecidableRel (meshGraph edges).Adj :=
  fun u v => inferInstanceAs (Decidable (u ≠ v ∧ (v ∈ edges u ∨ u ∈ edges v)))

variable {edges : Fin n → List (Fin n)}

theorem IsMesh.adj_iff (h : IsMesh edges) {u v : Fin n} :
    (meshGraph edges).Adj u v ↔ v ∈ edges u := by
  rw [meshGraph, SimpleGraph.fromRel_adj]
  constructor
  · rintro ⟨_, hv | hu⟩
    · exact hv
    · exact h.symm v u hu
  · intro hv
    refine ⟨?_, .inl hv⟩
    rintro rfl
    exact h.irrefl u hv

theorem isMesh_nil : IsMesh (fun _ : Fin n => []) :=
  ⟨by simp, by simp, by simp⟩

theorem IsMesh.addEdge (h : IsMesh edges) (i e : Fin n) :
    ∃ edges', addEdge edges i e = .ok edges' ∧ IsMesh edges' ∧
      (∀ u, edges u ⊆ edges' u) ∧ (i ≠ e → e ∈ edges' i) := by
  rw [Store.addEdge]
  by_cases hie : i = e
  · exact ⟨edges, if_pos hie, h, fun _ => Subset.refl _, fun hne => absurd hie hne⟩
  by_cases he : e ∈ edges i
  · exact ⟨edges, by rw [if_neg hie, if_pos he], h, fun _ => Subset.refl _, fun _ => he⟩
  have hi : i ∉ edges e := fun hi => he (h.symm e i hi)
  have hei : e ≠ i := fun h => hie h.symm
  refine ⟨_, by simp [hie, he, hi, hei]; rfl, ⟨?_, ?_, ?_⟩, ?_, ?_⟩
  · intro u v hv
    have hsymm := h.symm u v
    simp only [update_apply] at hv ⊢
    grind
  · intro u hu
    have hirrefl := h.irrefl u
    simp only [update_apply] at hu
    grind
  · intro u
    have hnodup := h.nodup u
    simp only [update_apply]
    split_ifs with h₁ h₂
    · subst h₁
      rw [nodup_append]
      simpa [hnodup] using fun a ha => ne_of_mem_of_not_mem ha hi
    · subst h₂
      rw [nodup_append]
      simpa [hnodup] using fun a ha => ne_of_mem_of_not_mem ha he
    · exact hnodup
  · intro u
    simp only [update_apply]
    split_ifs with h₁ h₂
    · subst h₁
      exact subset_append_left _ _
    · subst h₂
      exact subset_append_left _ _
    · exact Subset.refl _
  · intro _
    simp [hie]

theorem IsMesh.addEdges (h : IsMesh edges) (pairs : List (Fin n × Fin n)) :
    ∃ edges', addEdges edges pairs = .ok edges' ∧ IsMesh edges' ∧
      (∀ u, edges u ⊆ edges' u) ∧ ∀ p ∈ pairs, p.1 ≠ p.2 → p.2 ∈ edges' p.1 := by
  induction pairs generalizing edges with
  | nil => exact ⟨edges, rfl, h, fun _ => Subset.refl _, by simp⟩
  | cons p pairs ih =>
    obtain ⟨edges₁, h₁, hmesh₁, hsub₁, hp⟩ := h.addEdge p.1 p.2
    obtain ⟨edges₂, h₂, hmesh₂, hsub₂, hpairs⟩ := ih hmesh₁
    refine ⟨edges₂, ?_, hmesh₂, fun u => Subset.trans (hsub₁ u) (hsub₂ u), ?_⟩
    · rw [addEdges, foldlM_cons, h₁]
      exact h₂
    · intro q hq hne
      rcases mem_cons.mp hq with rfl | hq
      · exact hsub₂ _ (hp hne)
      · exact hpairs q hq hne

variable {seed : Seed n} {lists : Fin n → List (Fin n)}

/-- The mesh is built without a failed check, and it contains the ring. -/
theorem meshEdges_isMesh (h : meshEdges seed = .ok edges) :
    IsMesh edges ∧ ∀ i, i ≠ ringNext i → ringNext i ∈ edges i := by
  obtain ⟨ring, hring, hmesh, -, hpairs⟩ :=
    isMesh_nil.addEdges ((finRange n).map fun i => (i, ringNext i))
  have hnext : ∀ i, i ≠ ringNext i → ringNext i ∈ ring i := by
    intro i hi
    exact hpairs (i, ringNext i) (mem_map.mpr ⟨i, mem_finRange i, rfl⟩) hi
  rw [meshEdges, hring] at h
  change (if 4 < n then _ else _) = _ at h
  split at h
  · obtain ⟨connections, -, h⟩ := except_bind_eq_ok.mp h
    obtain ⟨edges', hadd, hmesh', hsub, -⟩ :=
      hmesh.addEdges ((finRange n).map fun i => (i, connections i))
    obtain rfl : edges' = edges := Except.ok.inj (hadd.symm.trans h)
    exact ⟨hmesh', fun i hi => hsub i (hnext i hi)⟩
  · cases h
    exact ⟨hmesh, hnext⟩

theorem meshEdges_connected (h : meshEdges seed = .ok edges) (u v : Fin n) :
    (meshGraph edges).Reachable u v := by
  obtain ⟨hmesh, hring⟩ := meshEdges_isMesh h
  -- walk along the ring from rank 0
  have hpos : 0 < n := u.pos
  have hzero : ∀ k (hk : k < n), (meshGraph edges).Reachable ⟨0, hpos⟩ ⟨k, hk⟩ := by
    intro k
    induction k with
    | zero => exact fun _ => .refl _
    | succ k ih =>
      intro hk
      have hnext : ringNext (⟨k, by omega⟩ : Fin n) = ⟨k + 1, hk⟩ := by
        simp [ringNext, Nat.mod_eq_of_lt hk]
      have hadj : (meshGraph edges).Adj ⟨k, by omega⟩ ⟨k + 1, hk⟩ := by
        rw [hmesh.adj_iff, ← hnext]
        apply hring
        rw [hnext]
        simp
      exact (ih (by omega)).trans hadj.reachable
  exact (hzero u u.isLt).symm.trans (hzero v v.isLt)

/-! ## The routing tables are right -/

/-- A table of first hops for `rank`: each is a neighbour that is one step closer. -/
structure FirstHops (G : SimpleGraph (Fin n)) (rank : Fin n)
    (firsthop : Fin n → Option (Fin n)) : Prop where
  self : firsthop rank = some rank
  hop : ∀ v, v ≠ rank → ∃ f, firsthop v = some f ∧ G.Adj rank f ∧ G.dist f v + 1 = G.dist rank v

theorem openNeighbors_eq {s : Search (Fin n)} {first : List (Fin n)} (hnodup : first.Nodup)
    (hs : ∀ v ∈ first, s.visited v ≠ true) :
    openNeighbors s first = .ok (first.foldl (fun s v => s.discover ⟨v, v, 1⟩) s) := by
  induction first generalizing s with
  | nil => rfl
  | cons v first ih =>
    obtain ⟨hv, hnodup⟩ := nodup_cons.mp hnodup
    rw [openNeighbors, foldlM_cons, if_neg (hs v (by simp))]
    refine ih hnodup fun w hw => ?_
    have hne : w ≠ v := by
      rintro rfl
      exact hv hw
    simpa [Search.discover, update_of_ne hne] using hs w (by simp [hw])

/-- Whatever the shuffles, the search ends, no check fails, and the table is right. -/
theorem findPaths_spec (h : meshEdges seed = .ok lists)
    (rank : Fin n) (shuffle : Fin n → Shuffle (Fin n)) :
    ∃ paths, findPaths seed rank shuffle = .ok paths ∧
      (∀ i, (paths.edges i).Perm (lists i)) ∧
      FirstHops (meshGraph lists) rank paths.firsthop := by
  obtain ⟨hmesh, -⟩ := meshEdges_isMesh h
  set edges := fun i => (shuffle i).apply (lists i) with hedges
  have hperm : ∀ i, (edges i).Perm (lists i) := fun i => (shuffle i).perm (lists i)
  have hnbrs : ∀ u v, v ∈ edges u ↔ (meshGraph lists).Adj u v := by
    intro u v
    rw [hmesh.adj_iff, (hperm u).mem_iff]
  have hne : ∀ v ∈ edges rank, v ≠ rank := fun v hv => ((hnbrs rank v).mp hv).ne'
  have hnodup : (edges rank).Nodup := (hperm rank).nodup_iff.mpr (hmesh.nodup rank)
  have hopen : openNeighbors (.root rank) (edges rank) = .ok (.start rank (edges rank)) := by
    apply openNeighbors_eq hnodup
    intro v hv
    simp [Search.root, update_of_ne (hne v hv)]
  -- `n` iterations are enough to empty the queue
  have hfuel : Search.remaining Finset.univ (.start rank (edges rank)) ≤ n := by
    have := Search.remaining_start (Finset.mem_univ rank) (fun v _ => Finset.mem_univ v) hne hnodup
    rw [Finset.card_univ, Fintype.card_fin] at this
    omega
  have hempty : (Search.run edges n (.start rank (edges rank))).queue = [] :=
    Search.run_queue_eq_nil (fun _ v _ => Finset.mem_univ v) n _ hfuel
  obtain ⟨label, hinv⟩ := (Search.inv_start (hnbrs rank)).run hnbrs n
  rw [hempty] at hinv
  have hall : (finRange n).all (Search.run edges n (.start rank (edges rank))).visited
      = true := by
    rw [all_eq_true]
    intro v _
    by_cases hv : v = rank
    · rw [hv]
      exact hinv.root.1
    · exact (hinv.firsthop_dist (meshEdges_connected h rank v) hv).1
  refine ⟨⟨edges, (Search.run edges n (.start rank (edges rank))).firsthop⟩, ?_, hperm,
    hinv.root_hop, fun v hv => (hinv.firsthop_dist (meshEdges_connected h rank v) hv).2⟩
  rw [findPaths, h]
  change (do let s ← openNeighbors (.root rank) (edges rank); _) = _
  rw [hopen]
  exact if_pos hall

theorem findPaths_ok (h : meshEdges seed = .ok lists)
    {rank : Fin n} {shuffle : Fin n → Shuffle (Fin n)} {paths : Paths n}
    (hp : findPaths seed rank shuffle = .ok paths) : (∀ i, (paths.edges i).Perm (lists i)) ∧
      FirstHops (meshGraph lists) rank paths.firsthop := by
  obtain ⟨paths', hp', hspec⟩ := findPaths_spec h rank shuffle
  rw [hp] at hp'
  cases hp'
  exact hspec

end Store
