import Mathlib

/-!
# Breadth-first search for first hops

A breadth-first search from a root that remembers, for each vertex it discovers, the root's
neighbour through which it was reached. The neighbours may be listed in any order. The search is run
with fuel, and as much as there are vertices is enough (`run_queue_eq_nil`). When the queue is
empty, every vertex that can be reached has a first hop on a shortest path to it
(`Inv.firsthop_dist`). -/

namespace Foundation

open List Function

variable {α : Type*} [DecidableEq α]

/-- A discovered vertex, the first hop towards it and its distance from the root. -/
structure Node (α : Type*) where
  i : α
  first : α
  distance : ℕ
  deriving DecidableEq, Repr

/-- The state of the search. -/
structure Search (α : Type*) where
  queue : List (Node α)
  visited : α → Bool
  firsthop : α → Option α

open Search

namespace Search

def discover (s : Search α) (n : Node α) : Search α where
  queue := s.queue ++ [n]
  visited := update s.visited n.i true
  firsthop := update s.firsthop n.i (some n.first)

/-- Look at neighbour `v` of the node `x`. -/
def visit (x : Node α) (s : Search α) (v : α) : Search α :=
  if s.visited v then s else s.discover ⟨v, x.first, x.distance + 1⟩

/-- Look at all neighbours of the node `x`. -/
def expand (nbrs : α → List α) (s : Search α) (x : Node α) : Search α :=
  (nbrs x.i).foldl (visit x) s

/-- At most `fuel` iterations of the search loop. -/
def run (nbrs : α → List α) : ℕ → Search α → Search α
  | 0, s => s
  | fuel + 1, s =>
    match s.queue with
    | [] => s
    | x :: queue => run nbrs fuel (expand nbrs { s with queue := queue } x)

/-- There is a walk of exactly `n` edges from `u` to `v`. -/
def WalkOfLength (G : SimpleGraph α) (u v : α) (n : ℕ) : Prop :=
  ∃ p : G.Walk u v, p.length = n

/-- The loop invariant, for the distances `label` of the visited vertices. `frontier` is
the queue, preceded by the node that is being expanded if there is one. -/
structure Inv (G : SimpleGraph α) (r : α) (label : α → ℕ) (frontier : List (Node α))
    (s : Search α) : Prop where
  root : s.visited r = true ∧ label r = 0
  root_hop : s.firsthop r = some r
  hop : ∀ v, s.visited v = true → v ≠ r →
    ∃ f, s.firsthop v = some f ∧ G.Adj r f ∧ ∃ k, WalkOfLength G f v k ∧ label v = k + 1
  node : ∀ n ∈ frontier, s.visited n.i = true ∧ n.i ≠ r ∧ s.firsthop n.i = some n.first ∧
    n.distance = label n.i
  sorted : frontier.Pairwise fun a b => a.distance ≤ b.distance
  level : ∀ n ∈ frontier, ∀ v, s.visited v = true → label v ≤ n.distance + 1
  closed : ∀ u, s.visited u = true → (∀ n ∈ frontier, n.i ≠ u) → ∀ w, G.Adj u w →
    s.visited w = true ∧ label w ≤ label u + 1

variable {G : SimpleGraph α} {r : α} {label : α → ℕ} {s : Search α}

theorem visit_visited (x : Node α) (s : Search α) (v : α) : (visit x s v).visited v = true := by
  rw [visit]
  split
  · assumption
  · simp [discover]

variable {x : Node α} {v u : α}

theorem visited_visit (h : s.visited u = true) :
    (visit x s v).visited u = true := by
  rw [visit]
  split
  · exact h
  · simp only [discover, update_apply]
    split
    · rfl
    · exact h

variable (h : Inv G r label (x :: s.queue) s) {vs : List α}

include h

/-- Discovering a fresh neighbour of the node under expansion keeps the invariant. -/
theorem Inv.discover (hadj : G.Adj x.i v)
    (hv : s.visited v ≠ true) : Inv G r (update label v (x.distance + 1))
      (x :: (s.discover ⟨v, x.first, x.distance + 1⟩).queue)
      (s.discover ⟨v, x.first, x.distance + 1⟩) := by
  obtain ⟨hxv, hxr, hxfirst, hxdist⟩ := h.node x (by simp)
  have hne : ∀ u, s.visited u = true → u ≠ v := by
    rintro u hu rfl
    exact hv hu
  have hlevel := h.level x (by simp)
  have hr := hne r h.root.1
  refine ⟨?_, ?_, ?_, ?_, ?_, ?_, ?_⟩
  · simp [Search.discover, update_of_ne hr, h.root]
  · simp [Search.discover, update_of_ne hr, h.root_hop]
  · intro u hu hur
    by_cases huv : u = v
    · -- the new vertex is one step behind `x`, through the same first hop
      subst huv
      obtain ⟨f, hf, hfadj, k, ⟨p, hp⟩, hk⟩ := h.hop x.i hxv hxr
      obtain rfl : x.first = f := by simpa [hxfirst] using hf
      simp only [Search.discover, update_self]
      refine ⟨x.first, rfl, hfadj, k + 1, ⟨p.concat hadj, ?_⟩, ?_⟩
      · rw [SimpleGraph.Walk.length_concat, hp]
      · rw [hxdist, hk]
    · have hus : s.visited u = true := by
        simpa [Search.discover, update_of_ne huv] using hu
      simpa [Search.discover, update_of_ne huv] using h.hop u hus hur
  · intro n hn
    have hcases : n ∈ x :: s.queue ∨ n = ⟨v, x.first, x.distance + 1⟩ := by
      simpa [Search.discover, or_assoc] using hn
    rcases hcases with hn | rfl
    · obtain ⟨h₁, h₂, h₃, h₄⟩ := h.node n hn
      have hnv := hne n.i h₁
      simp [Search.discover, update_of_ne hnv, h₁, h₂, h₃, h₄]
    · simp only [Search.discover, update_self, true_and, and_true]
      rintro rfl
      exact hv h.root.1
  · -- everything queued is at most one level behind `x`, where the new node is
    simp only [Search.discover, pairwise_cons, pairwise_append, mem_append, mem_singleton]
    have hsorted := pairwise_cons.mp h.sorted
    refine ⟨?_, hsorted.2, ?_, ?_⟩
    · rintro n (hn | rfl)
      · exact hsorted.1 n hn
      · simp
    · simp
    · rintro a ha b rfl
      obtain ⟨hav, _, _, hadist⟩ := h.node a (by simp [ha])
      have := hlevel a.i hav
      simp only
      omega
  · intro n hn u hu
    have hn' : x.distance ≤ n.distance := by
      have hcases : n = x ∨ n ∈ s.queue ∨ n = ⟨v, x.first, x.distance + 1⟩ := by
        simpa [Search.discover] using hn
      rcases hcases with rfl | hn | rfl
      · exact le_rfl
      · exact (pairwise_cons.mp h.sorted).1 n hn
      · simp
    by_cases huv : u = v
    · subst huv
      simp only [update_self]
      omega
    · rw [update_of_ne huv]
      have hus : s.visited u = true := by
        simpa [Search.discover, update_of_ne huv] using hu
      have := hlevel u hus
      omega
  · intro u hu hnot w hw
    have huv : u ≠ v := by
      rintro rfl
      exact hnot ⟨u, x.first, x.distance + 1⟩ (by simp [Search.discover]) rfl
    have hus : s.visited u = true := by
      simpa [Search.discover, update_of_ne huv] using hu
    obtain ⟨hwv, hle⟩ := h.closed u hus
      (fun n hn => hnot n (by
        rcases mem_cons.mp hn with rfl | hn
        · simp
        · simp [Search.discover, hn])) w hw
    have hwne := hne w hwv
    rw [update_of_ne huv, update_of_ne hwne]
    exact ⟨by simp [Search.discover, update_of_ne hwne, hwv], hle⟩

theorem Inv.visit (hadj : G.Adj x.i v) :
    ∃ label', Inv G r label' (x :: (Search.visit x s v).queue) (Search.visit x s v) := by
  by_cases hv : s.visited v = true
  · refine ⟨label, ?_⟩
    rw [Search.visit, if_pos hv]
    exact h
  · refine ⟨update label v (x.distance + 1), ?_⟩
    rw [Search.visit, if_neg hv]
    exact h.discover hadj hv

theorem Inv.foldl_visit (hadj : ∀ v ∈ vs, G.Adj x.i v) :
    ∃ label', Inv G r label' (x :: (vs.foldl (Search.visit x) s).queue)
      (vs.foldl (Search.visit x) s) ∧
      (∀ v ∈ vs, (vs.foldl (Search.visit x) s).visited v = true) ∧
      ∀ u, s.visited u = true → (vs.foldl (Search.visit x) s).visited u = true := by
  induction vs generalizing s label with
  | nil => exact ⟨label, h, by simp, fun _ hu => hu⟩
  | cons v vs ih =>
    obtain ⟨label₁, h₁⟩ := h.visit (hadj v (by simp))
    obtain ⟨label₂, h₂, hvs, hmono⟩ := ih h₁ fun w hw => hadj w (by simp [hw])
    refine ⟨label₂, h₂, ?_, fun u hu => hmono u (visited_visit hu)⟩
    intro w hw
    rcases mem_cons.mp hw with rfl | hw
    · exact hmono w (visit_visited x s w)
    · exact hvs w hw

omit h

variable {nbrs : α → List α}

variable (hnbrs : ∀ u v, v ∈ nbrs u ↔ G.Adj u v)

include hnbrs

theorem Inv.expand {queue : List (Node α)} (h : Inv G r label (x :: queue) s) :
    ∃ label', Inv G r label' (expand nbrs { s with queue := queue } x).queue
      (expand nbrs { s with queue := queue } x) := by
  have hstart : Inv G r label (x :: { s with queue := queue }.queue)
      { s with queue := queue } := ⟨h.root, h.root_hop, h.hop, h.node, h.sorted, h.level, h.closed⟩
  obtain ⟨label', hinv, hall, hmono⟩ := hstart.foldl_visit fun v hv => (hnbrs x.i v).mp hv
  refine ⟨label', ⟨hinv.root, hinv.root_hop, hinv.hop, fun n hn =>
    hinv.node n (mem_cons_of_mem x hn), (pairwise_cons.mp hinv.sorted).2,
    fun n hn => hinv.level n (mem_cons_of_mem x hn), ?_⟩⟩
  intro u hu hnot w hw
  by_cases hux : u = x.i
  · -- the expanded node: its neighbours have all been looked at
    subst hux
    obtain ⟨_, _, _, hdist⟩ := hinv.node x (by simp)
    have hwv := hall w ((hnbrs x.i w).mpr hw)
    refine ⟨hwv, ?_⟩
    rw [← hdist]
    exact hinv.level x (by simp) w hwv
  · refine hinv.closed u hu (fun n hn => ?_) w hw
    rcases mem_cons.mp hn with rfl | hn
    · exact fun he => hux he.symm
    · exact hnot n hn

theorem Inv.run (fuel : ℕ) (h : Inv G r label s.queue s) :
    ∃ label', Inv G r label' (run nbrs fuel s).queue (run nbrs fuel s) := by
  induction fuel generalizing s label with
  | zero => exact ⟨label, h⟩
  | succ fuel ih =>
    rw [run]
    split
    · exact ⟨label, h⟩
    · next x queue hq =>
      rw [hq] at h
      obtain ⟨label', h'⟩ := h.expand hnbrs
      exact ih h'

omit hnbrs

/-! ## The start of the search -/

def root (r : α) : Search α where
  queue := []
  visited := update (fun _ => false) r true
  firsthop := update (fun _ => none) r (some r)

def start (r : α) (first : List α) : Search α :=
  first.foldl (fun s v => s.discover ⟨v, v, 1⟩) (root r)

theorem foldl_discover_queue (first : List α) (s : Search α) :
    (first.foldl (fun s v => s.discover ⟨v, v, 1⟩) s).queue =
      s.queue ++ first.map fun v => ⟨v, v, 1⟩ := by
  induction first generalizing s with
  | nil => simp
  | cons v first ih =>
    rw [foldl_cons, ih]
    simp [discover]

theorem foldl_discover_visited (first : List α) (s : Search α) (u : α) :
    (first.foldl (fun s v => s.discover ⟨v, v, 1⟩) s).visited u =
      (decide (u ∈ first) || s.visited u) := by
  induction first generalizing s with
  | nil => simp
  | cons v first ih =>
    rw [foldl_cons, ih]
    by_cases huv : u = v <;> simp [discover, huv]

theorem foldl_discover_firsthop (first : List α) (s : Search α) (u : α) :
    (first.foldl (fun s v => s.discover ⟨v, v, 1⟩) s).firsthop u =
      if u ∈ first then some u else s.firsthop u := by
  induction first generalizing s with
  | nil => simp
  | cons v first ih =>
    rw [foldl_cons, ih]
    by_cases huv : u = v <;> simp [discover, huv]

theorem start_queue (r : α) (first : List α) :
    (start r first).queue = first.map fun v => ⟨v, v, 1⟩ := by
  simp [start, foldl_discover_queue, root]

theorem start_visited (r : α) (first : List α) (u : α) :
    (start r first).visited u = true ↔ u ∈ first ∨ u = r := by
  simp [start, foldl_discover_visited, root, update_apply]

variable {first : List α}

theorem start_firsthop {r : α} (hu : u ∈ first) : (start r first).firsthop u = some u := by
  simp [start, foldl_discover_firsthop, hu]

/-- The search starts in its invariant. -/
theorem inv_start (hfirst : ∀ v, v ∈ first ↔ G.Adj r v) :
    Inv G r (fun v => if v = r then 0 else 1) (start r first).queue (start r first) := by
  have hne : ∀ v ∈ first, v ≠ r := fun v hv => ((hfirst v).mp hv).ne'
  have hnode : ∀ n ∈ (start r first).queue, n.i ∈ first ∧ n = ⟨n.i, n.i, 1⟩ := by
    intro n hn
    rw [start_queue, mem_map] at hn
    obtain ⟨v, hv, rfl⟩ := hn
    exact ⟨hv, rfl⟩
  have hroot : (start r first).firsthop r = some r := by
    rw [start, foldl_discover_firsthop, if_neg fun hr => hne r hr rfl]
    simp [root]
  refine ⟨⟨(start_visited ..).mpr (.inr rfl), if_pos rfl⟩, hroot, ?_, ?_, ?_, ?_, ?_⟩
  · intro v hv hvr
    have hmem := ((start_visited ..).mp hv).resolve_right hvr
    rw [start_firsthop hmem, if_neg hvr]
    exact ⟨v, rfl, (hfirst v).mp hmem, 0, ⟨.nil, rfl⟩, rfl⟩
  · intro n hn
    obtain ⟨hmem, heq⟩ := hnode n hn
    rw [start_firsthop hmem, if_neg (hne _ hmem)]
    exact ⟨(start_visited ..).mpr (.inl hmem), hne _ hmem, by rw [heq], by rw [heq]⟩
  · rw [start_queue, pairwise_map]
    exact pairwise_of_forall fun _ _ => le_rfl
  · intro n _ v _
    split <;> omega
  · intro u hu hnot w hw
    rcases (start_visited ..).mp hu with hmem | rfl
    · refine absurd rfl (hnot ⟨u, u, 1⟩ ?_)
      rw [start_queue]
      exact mem_map.mpr ⟨u, hmem, rfl⟩
    · refine ⟨(start_visited ..).mpr (.inl ((hfirst w).mpr hw)), ?_⟩
      split <;> omega

/-! ## The end of the search -/

omit [DecidableEq α] in
/-- With an empty queue, the marks are closed under adjacency. -/
theorem Inv.walk (h : Inv G r label [] s) (p : G.Walk u v) (hu : s.visited u = true) :
    s.visited v = true ∧ label v ≤ label u + p.length := by
  induction p with
  | nil => exact ⟨hu, by simp⟩
  | cons hadj p ih =>
    obtain ⟨hw, hle⟩ := h.closed _ hu (by simp) _ hadj
    obtain ⟨hv, hle'⟩ := ih hw
    refine ⟨hv, ?_⟩
    rw [SimpleGraph.Walk.length_cons]
    omega

omit [DecidableEq α] in
/-- When the search has ended, the first hop towards a reachable vertex is a neighbour of
the root that is one step closer to it. -/
theorem Inv.firsthop_dist (h : Inv G r label [] s) (hv : G.Reachable r v) (hne : v ≠ r) :
    s.visited v = true ∧ ∃ f, s.firsthop v = some f ∧ G.Adj r f ∧
      G.dist f v + 1 = G.dist r v := by
  obtain ⟨p, hp⟩ := hv.exists_walk_length_eq_dist
  obtain ⟨hvisited, hle⟩ := h.walk p h.root.1
  obtain ⟨f, hf, hadj, k, ⟨q, hq⟩, hk⟩ := h.hop v hvisited hne
  have hupper : G.dist f v ≤ k := hq ▸ SimpleGraph.dist_le q
  -- a shorter way from the first hop would give a shorter way from the root
  obtain ⟨q', hq'⟩ := q.reachable.exists_walk_length_eq_dist
  have hlower : G.dist r v ≤ G.dist f v + 1 := by
    have := SimpleGraph.dist_le (SimpleGraph.Walk.cons hadj q')
    rwa [SimpleGraph.Walk.length_cons, hq'] at this
  have hroot := h.root.2
  exact ⟨hvisited, f, hf, hadj, by omega⟩

/-! ## Enough fuel -/

/-- The iterations the search may still need: the queue, and the vertices not found. -/
def remaining (V : Finset α) (s : Search α) : ℕ :=
  s.queue.length + (V.filter fun v => s.visited v ≠ true).card

variable {V : Finset α}

theorem remaining_discover {n : Node α} (hV : n.i ∈ V) (hn : s.visited n.i ≠ true) :
    remaining V (s.discover n) = remaining V s := by
  have herase : (V.filter fun v => (s.discover n).visited v ≠ true) =
      (V.filter fun v => s.visited v ≠ true).erase n.i := by
    ext v
    by_cases hv : v = n.i <;> simp [discover, hv, and_comm]
  have hmem : n.i ∈ V.filter fun v => s.visited v ≠ true := by simp [hV, hn]
  have hpos := Finset.card_pos.mpr ⟨_, hmem⟩
  rw [remaining, remaining, herase, Finset.card_erase_of_mem hmem]
  simp only [discover, length_append, length_singleton]
  omega

theorem remaining_foldl_visit (s : Search α) (hvs : ∀ v ∈ vs, v ∈ V) :
    remaining V (vs.foldl (visit x) s) = remaining V s := by
  induction vs generalizing s with
  | nil => rfl
  | cons v vs ih =>
    rw [foldl_cons, ih _ fun w hw => hvs w (by simp [hw]), visit]
    split
    · rfl
    · next h => exact remaining_discover (hvs v (by simp)) h

/-- The loop ends within `remaining` iterations. -/
theorem run_queue_eq_nil (hV : ∀ u, ∀ v ∈ nbrs u, v ∈ V) (fuel : ℕ) (s : Search α)
    (hs : remaining V s ≤ fuel) : (run nbrs fuel s).queue = [] := by
  induction fuel generalizing s with
  | zero =>
    have : s.queue.length = 0 := by
      rw [remaining] at hs
      omega
    exact length_eq_zero_iff.mp this
  | succ fuel ih =>
    rw [run]
    split
    · next hq => exact hq
    · next x queue hq =>
      apply ih
      rw [expand, remaining_foldl_visit _ (hV x.i)]
      have hlen : s.queue.length = queue.length + 1 := by rw [hq]; rfl
      simp only [remaining] at hs ⊢
      omega

theorem remaining_start {r : α} (hr : r ∈ V) (hV : ∀ v ∈ first, v ∈ V) (hne : ∀ v ∈ first, v ≠ r)
    (hnodup : first.Nodup) : remaining V (start r first) + 1 = V.card := by
  have hlen : (start r first).queue.length = first.toFinset.card := by
    rw [start_queue, length_map, toFinset_card_of_nodup hnodup]
  have hfilter : (V.filter fun v => (start r first).visited v ≠ true) =
      (V.erase r) \ first.toFinset := by
    ext v
    simp only [Finset.mem_filter, ne_eq, start_visited, Finset.mem_sdiff, Finset.mem_erase,
      mem_toFinset]
    tauto
  have hsub : first.toFinset ⊆ V.erase r := by
    intro v hv
    rw [mem_toFinset] at hv
    exact Finset.mem_erase.mpr ⟨hne v hv, hV v hv⟩
  have hle := Finset.card_le_card hsub
  have hpos := Finset.card_pos.mpr ⟨r, hr⟩
  rw [remaining, hlen, hfilter, Finset.card_sdiff_of_subset hsub, Finset.card_erase_of_mem hr]
  rw [Finset.card_erase_of_mem hr] at hle
  omega

end Search

end Foundation
