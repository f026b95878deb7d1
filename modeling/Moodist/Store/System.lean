import Moodist.Store.Routing

/-!
# The store as a system

All ranks of a store and the links between them. A link carries the messages that one rank has
handed to the queue of an edge, each once and in order; `Store.Link` shows that the TCP connections
of an edge provide this.
-/

namespace Store

open Foundation Function

variable {n : ℕ}

/-- The ranks of one store: what the generators yielded, and the tables and the initial
states that the constructors computed from it. -/
structure Cluster (n : ℕ) where
  seed : Seed n
  shuffle : Fin n → Fin n → Shuffle (Fin n)
  myUdpAddresses : Fin n → List String
  lists : Fin n → List (Fin n)
  paths : Fin n → Paths n
  nodes : Fin n → Node n
  meshEdges_eq : meshEdges seed = .ok lists
  findPaths_eq : ∀ r, findPaths seed r (shuffle r) = .ok (paths r)
  create_eq : ∀ r, Node.create r (paths r) (myUdpAddresses r) = .ok (nodes r)

def Cluster.graph (c : Cluster n) : SimpleGraph (Fin n) := meshGraph c.lists

/-- The state of all ranks, and for each ordered pair of ranks the messages that the first
has sent and the second has not yet processed. -/
structure System (n : ℕ) where
  nodes : Fin n → Node n
  links : Fin n → Fin n → List (Message n)

/-- What `broadcastMessage` is called with when a store closes. -/
inductive Announcement (n : ℕ) where
  | shutdown (originRank : Fin n)
  | exit (originRank : Fin n)
  | exitAck
  deriving DecidableEq

def Announcement.body : Announcement n → Body n
  | .shutdown origin => .shutdown origin
  | .exit origin => .exit origin
  | .exitAck => .exitAck

/-- The steps of the system. -/
inductive Action (n : ℕ) where
  /-- `v` processes the next message of the link from `u`. -/
  | deliver (u v : Fin n)
  /-- A connection between `u` and `v` is registered at `u`. -/
  | connect (u v : Fin n)
  /-- A client thread on `r` calls `set`, `get`, `check` or `wait`. -/
  | operation (r : Fin n) (id : UInt32) (op : Op) (key : Key)
  /-- The shutdown of `r` broadcasts a message. -/
  | broadcast (r : Fin n) (a : Announcement n)
  /-- The shutdown of `r` writes its state. -/
  | closing (r : Fin n) (shuttingDown exited : Bool) (exitSourceRank : Option (Fin n))

namespace Node

def sentTo (nd : Node n) (edge : Fin n) : List (Message n) :=
  (nd.outbox.filter fun p => p.1 = edge).map Prod.snd

end Node

namespace System

/-- Put back the state of rank `r` after a handler, and its outbox on the links. -/
def install (s : System n) (r : Fin n) (nd : Node n) : System n where
  nodes := update s.nodes r { nd with outbox := [] }
  links := update s.links r fun v => s.links r v ++ nd.sentTo v

def pop (s : System n) (u v : Fin n) : System n :=
  { s with links := update s.links u (update (s.links u) v (s.links u v).tail) }

theorem mem_links_pop (s : System n) (u v x w : Fin n) (m : Message n)
    (hm : m ∈ (s.pop u v).links x w) : m ∈ s.links x w := by
  by_cases hx : x = u
  · subst hx
    by_cases hw : w = v
    · subst hw
      simp only [pop, update_self] at hm
      exact List.mem_of_mem_tail hm
    · simpa [pop, update_of_ne hw] using hm
  · simpa [pop, update_of_ne hx] using hm

def step (s : System n) : Action n → Except Fault (System n)
  | .deliver u v =>
    match (s.links u v).head? with
    | none => .ok s
    | some msg => do
      let nd ← receive (s.nodes v) msg u
      pure ((s.pop u v).install v nd)
  | .connect u v => do
    let nd ← onConnect handlers (s.nodes u) v
      (getBroadcastForwardRanks (s.nodes v).firsthop u)
    pure (s.install u nd)
  | .operation r id op key => do
    let nd ← doWaitOp (s.nodes r) id op key
    pure (s.install r nd.1)
  | .broadcast r a => do
    let nd ← broadcastMessage handlers (s.nodes r) a.body
    pure (s.install r nd)
  | .closing r shuttingDown exited exitSourceRank =>
    .ok (s.install r
      { s.nodes r with
        shuttingDown := shuttingDown, exited := exited, exitSourceRank := exitSourceRank })

theorem install_links (s : System n) (r : Fin n) (nd : Node n) (u v : Fin n) :
    ∃ extra, (s.install r nd).links u v = s.links u v ++ extra := by
  by_cases hu : u = r
  · subst hu
    exact ⟨nd.sentTo v, by simp [install]⟩
  · exact ⟨[], by simp [install, update_of_ne hu]⟩

/-- A step takes at most the head off a link, and appends. -/
theorem step_links {s s' : System n} {a : Action n} (h : s.step a = .ok s') (u v : Fin n) :
    (a = .deliver u v → ∃ extra, s'.links u v = (s.links u v).tail ++ extra) ∧
      (a ≠ .deliver u v → ∃ extra, s'.links u v = s.links u v ++ extra) := by
  have hmap : ∀ {α : Type} (x : Except Fault α) (f : α → System n),
      (do let y ← x; pure (f y)) = .ok s' → ∃ y, s' = f y := by
    intro α x f hx
    cases x with
    | error e => cases hx
    | ok y => exact ⟨y, (Except.ok.inj hx).symm⟩
  cases a with
  | deliver x w =>
    rw [step] at h
    cases hlink : s.links x w with
    | nil =>
      rw [hlink] at h
      cases h
      refine ⟨fun he => ⟨[], ?_⟩, fun _ => ⟨[], by simp⟩⟩
      cases he
      simp [hlink]
    | cons msg rest =>
      rw [hlink, List.head?_cons] at h
      obtain ⟨nd, rfl⟩ := hmap _ _ h
      obtain ⟨extra, hextra⟩ := (s.pop x w).install_links w nd u v
      rw [hextra]
      refine ⟨fun he => ⟨extra, ?_⟩, fun hne => ⟨extra, ?_⟩⟩
      · cases he
        simp [pop]
      · by_cases hu : u = x
        · subst hu
          have hv : v ≠ w := by
            rintro rfl
            exact hne rfl
          simp [pop, update_of_ne hv]
        · simp [pop, update_of_ne hu]
  | connect x w =>
    obtain ⟨nd, rfl⟩ := hmap _ _ h
    exact ⟨nofun, fun _ => s.install_links x nd u v⟩
  | operation r id op key =>
    obtain ⟨nd, rfl⟩ := hmap _ _ h
    exact ⟨nofun, fun _ => s.install_links r nd.1 u v⟩
  | broadcast r a =>
    obtain ⟨nd, rfl⟩ := hmap _ _ h
    exact ⟨nofun, fun _ => s.install_links r nd u v⟩
  | closing r shuttingDown exited exitSourceRank =>
    cases h
    exact ⟨nofun, fun _ => s.install_links r _ u v⟩

def run (s : System n) (actions : List (Action n)) : Except Fault (System n) :=
  actions.foldlM step s

end System

def Cluster.init (c : Cluster n) : System n := ⟨c.nodes, fun _ _ => []⟩

end Store
