import Moodist.Store.Routing

/-!
# The topology of the store's mesh

The shortcuts are a permutation of the ranks that is repaired by swaps. A swap can spoil an
entry that was suitable before, but what is left is still a permutation, and so a rank is the
end of at most one shortcut and the start of at most one.
-/

namespace Store

open Foundation Function List

variable {n : ℕ} {c c' : Fin n → Fin n} {draws draws' : List (Fin n)} {i x u v : Fin n}
  {edges edges' lists : Fin n → List (Fin n)} {seed : Seed n}

/-! ## The shortcuts are a permutation -/

theorem swapConnections_injective (hc : Injective c) : Injective (swapConnections c i x) := by
  have hswap : swapConnections c i x = c ∘ Equiv.swap i x := by
    funext j
    simp only [swapConnections, update_apply, comp_apply, Equiv.swap_apply_def]
    split_ifs with hx hi hi
    · rw [hx.symm.trans hi]
    · rfl
    · rfl
    · rfl
  rw [hswap]
  exact hc.comp (Equiv.swap i x).injective

theorem redraw_injective (hc : Injective c) (h : redraw i c draws = .ok (c', draws')) :
    Injective c' := by
  induction draws generalizing c with
  | nil =>
    rw [redraw] at h
    split at h
    · cases h
    · cases h
      exact hc
  | cons x draws ih =>
    rw [redraw] at h
    split at h
    · refine ih ?_ h
      split
      · exact hc
      · exact swapConnections_injective hc
    · cases h
      exact hc

theorem foldlM_redraw_injective {ranks : List (Fin n)} (hc : Injective c)
    (h : ranks.foldlM (fun c i => redraw i c.1 c.2) (c, draws) = .ok (c', draws')) :
    Injective c' := by
  induction ranks generalizing c draws with
  | nil =>
    cases h
    exact hc
  | cons i ranks ih =>
    obtain ⟨r, hr, h⟩ := except_bind_eq_ok.mp h
    exact ih (redraw_injective hc hr) h

theorem shortcuts_injective (h : shortcuts seed = .ok c) : Injective c := by
  obtain ⟨r, hr, h⟩ := except_bind_eq_ok.mp h
  cases h
  exact foldlM_redraw_injective seed.connections.injective hr

theorem ringNext_injective : Injective (ringNext : Fin n → Fin n) := by
  intro i j h
  have hmod : i.val + 1 ≡ j.val + 1 [MOD n] := congrArg Fin.val h
  exact Fin.ext ((Nat.ModEq.add_right_cancel' 1 hmod).eq_of_lt_of_lt i.isLt j.isLt)

/-! ## The neighbours of a rank -/

theorem mem_addEdge (h : addEdge edges i x = .ok edges') (hv : v ∈ edges' u) :
    v ∈ edges u ∨ (i = u ∧ x = v) ∨ (i = v ∧ x = u) := by
  unfold addEdge at h
  dsimp only at h
  split_ifs at h
  · cases h
    exact .inl hv
  · cases h
    exact .inl hv
  · cases h
    simp only [update_apply] at hv
    grind

theorem mem_addEdges (h : addEdges edges ((finRange n).map fun i => (i, c i)) = .ok edges')
    (hv : v ∈ edges' u) : v ∈ edges u ∨ c u = v ∨ c v = u := by
  rw [addEdges, foldlM_map] at h
  generalize finRange n = ranks at h
  induction ranks generalizing edges with
  | nil =>
    cases h
    exact .inl hv
  | cons i ranks ih =>
    obtain ⟨edges₁, ha, h⟩ := except_bind_eq_ok.mp h
    rcases ih h with hv | hv
    · rcases mem_addEdge ha hv with hv | ⟨rfl, hx⟩ | ⟨rfl, hx⟩
      · exact .inl hv
      · exact .inr (.inl hx)
      · exact .inr (.inr hx)
    · exact .inr hv

/-- Two ranks are neighbours by the ring or by a shortcut. -/
theorem mem_meshEdges (h : meshEdges seed = .ok lists) :
    ∃ c : Fin n → Fin n, Injective c ∧ ∀ u v, v ∈ lists u →
      (ringNext u = v ∨ ringNext v = u) ∨ c u = v ∨ c v = u := by
  obtain ⟨ring, hring, -⟩ := isMesh_nil.addEdges ((finRange n).map fun i => (i, ringNext i))
  have hmem : ∀ u v, v ∈ ring u → ringNext u = v ∨ ringNext v = u := by
    intro u v hv
    exact (mem_addEdges hring hv).resolve_left not_mem_nil
  rw [meshEdges, hring] at h
  change (if 4 < n then _ else _) = _ at h
  split at h
  · obtain ⟨c, hc, h⟩ := except_bind_eq_ok.mp h
    exact ⟨c, shortcuts_injective hc, fun u v hv => (mem_addEdges h hv).imp_left (hmem u v)⟩
  · cases h
    exact ⟨ringNext, ringNext_injective, fun u v hv => .inl (hmem u v hv)⟩

theorem length_meshEdges_le (h : meshEdges seed = .ok lists) (u : Fin n) :
    (lists u).length ≤ maxEdgePeers := by
  obtain ⟨c, hc, hmem⟩ := mem_meshEdges h
  obtain ⟨a, ha⟩ := (Finite.injective_iff_surjective.mp ringNext_injective) u
  obtain ⟨b, hb⟩ := (Finite.injective_iff_surjective.mp hc) u
  have hsub : lists u ⊆ [ringNext u, a, c u, b] := by
    intro v hv
    rcases hmem u v hv with (hv | hv) | hv | hv
    · simp [hv]
    · simp [ringNext_injective (hv.trans ha.symm)]
    · simp [hv]
    · simp [hc (hv.trans hb.symm)]
  exact (((meshEdges_isMesh h).1.nodup u).subperm hsub).length_le

theorem meshEdges_ok (hends : 4 < n → ∃ c, shortcuts seed = .ok c) :
    ∃ lists, meshEdges seed = .ok lists := by
  obtain ⟨ring, hring, hmesh, -⟩ := isMesh_nil.addEdges ((finRange n).map fun i => (i, ringNext i))
  rw [meshEdges, hring]
  change ∃ lists, (if 4 < n then _ else _) = _
  split
  next hn =>
    obtain ⟨c, hc⟩ := hends hn
    obtain ⟨lists, hlists, -⟩ := hmesh.addEdges ((finRange n).map fun i => (i, c i))
    rw [hc]
    exact ⟨lists, hlists⟩
  next => exact ⟨ring, rfl⟩

/-! ## What a rank keeps -/

theorem IsMesh.of_perm (h : IsMesh lists) (hperm : ∀ i, (edges i).Perm (lists i)) :
    IsMesh edges where
  symm u v hv := (hperm v).mem_iff.mpr (h.symm u v ((hperm u).mem_iff.mp hv))
  irrefl u hu := h.irrefl u ((hperm u).mem_iff.mp hu)
  nodup u := (hperm u).nodup_iff.mpr (h.nodup u)

/-- Whenever the shortcuts are found, every rank gets the same mesh, and no check fails. -/
theorem mesh_topology (seed : Seed n) (hends : 4 < n → ∃ c, shortcuts seed = .ok c) :
    ∃ mesh : Fin n → Finset (Fin n),
      ∀ (rank : Fin n) (shuffle : Fin n → Shuffle (Fin n)) (addresses : List String),
        ∃ paths nd, findPaths seed rank shuffle = .ok paths ∧ IsMesh paths.edges ∧
          (meshGraph paths.edges).Connected ∧
          (∀ i, (paths.edges i).length ≤ maxEdgePeers ∧ (paths.edges i).toFinset = mesh i) ∧
          Node.create rank paths addresses = .ok nd := by
  obtain ⟨lists, hl⟩ := meshEdges_ok hends
  refine ⟨fun i => (lists i).toFinset, fun rank shuffle addresses => ?_⟩
  obtain ⟨paths, hpaths, hperm, -⟩ := findPaths_spec hl rank shuffle
  have hdeg : ∀ i, (paths.edges i).length ≤ maxEdgePeers := by
    intro i
    rw [(hperm i).length_eq]
    exact length_meshEdges_le hl i
  have hgraph : meshGraph paths.edges = meshGraph lists := by
    ext u v
    simp only [meshGraph, SimpleGraph.fromRel_adj, (hperm _).mem_iff]
  refine ⟨paths, _, hpaths, (meshEdges_isMesh hl).1.of_perm hperm, ?_,
    fun i => ⟨hdeg i, toFinset_eq_of_perm _ _ (hperm i)⟩, if_pos (hdeg rank)⟩
  rw [hgraph]
  exact { preconnected := meshEdges_connected hl, nonempty := ⟨rank⟩ }

theorem mesh_topology_six :
    ∃ mesh : Fin 6 → Finset (Fin 6), (∀ i, mesh i = {i + 1, i + 5, i + 2, i + 4}) ∧
      ∀ rank, ∃ paths nd, findPaths seedSix rank (fun _ => .refl _) = .ok paths ∧
        (∀ i, (paths.edges i).toFinset = mesh i) ∧ Node.create rank paths [] = .ok nd := by
  obtain ⟨mesh, h⟩ := mesh_topology seedSix fun _ => ⟨_, rfl⟩
  have hmesh : ∀ i, mesh i = {i + 1, i + 5, i + 2, i + 4} := by
    obtain ⟨paths, nd, hpaths, -, -, hmesh, -⟩ := h 0 (fun _ => .refl _) []
    have heq : ((findPaths seedSix 0 fun _ => .refl _).toOption.map fun paths =>
        decide (∀ i : Fin 6, (paths.edges i).toFinset = {i + 1, i + 5, i + 2, i + 4})) =
        some true := by
      decide +kernel
    rw [hpaths] at heq
    intro i
    rw [← (hmesh i).2]
    exact of_decide_eq_true (Option.some.inj heq) i
  refine ⟨mesh, hmesh, fun rank => ?_⟩
  obtain ⟨paths, nd, hpaths, -, -, hmesh, hnd⟩ := h rank (fun _ => .refl _) []
  exact ⟨paths, nd, hpaths, fun i => (hmesh i).2, hnd⟩

end Store
