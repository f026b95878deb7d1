import Mathlib

/-!
# Relayed broadcasts

A broadcast over the edges of a graph. A source sends its payloads to all its neighbours, and each
vertex passes on what it gets along the tree of the source. Every vertex has got a prefix of what a
source has sent (`Inv.isPrefix`), and all of it when nothing is under way (`Inv.complete`).
-/

namespace Foundation

open List Function

variable {V B : Type*} [DecidableEq V] {l : List (V × B)}

/-- The state of a relayed broadcast. `link u v` is what `u` has sent to `v`, and
`pending u v` what it keeps for `v` until `connected u v`. -/
@[ext] structure Relay (V B : Type*) where
  calls : V → List B
  processed : V → V → List B
  link : V → V → List (V × B)
  pending : V → V → List (V × B)
  connected : V → V → Bool

def payloads (s : V) (l : List (V × B)) : List B :=
  (l.filter fun p => p.1 = s).map Prod.snd

@[simp] theorem payloads_nil (s : V) : payloads s ([] : List (V × B)) = [] := rfl

@[simp] theorem payloads_append (s : V) (l₁ l₂ : List (V × B)) :
    payloads s (l₁ ++ l₂) = payloads s l₁ ++ payloads s l₂ := by
  simp [payloads]

theorem payloads_cons_self (s : V) (b : B) (l : List (V × B)) :
    payloads s ((s, b) :: l) = b :: payloads s l := by
  simp [payloads]

theorem payloads_cons_ne {s s' : V} (h : s' ≠ s) (b : B) (l : List (V × B)) :
    payloads s ((s', b) :: l) = payloads s l := by
  simp [payloads, h]

theorem payloads_eq_nil {s : V} (h : ∀ p ∈ l, p.1 ≠ s) : payloads s l = [] := by
  simpa [payloads] using h

/-- A filter that keeps the entries of `s` does not change its payloads. -/
theorem payloads_filter {s : V} {q : V → Bool} (h : q s = true) :
    payloads s (l.filter fun p => q p.1) = payloads s l := by
  rw [payloads, filter_filter, payloads]
  congr 2
  funext p
  by_cases hp : p.1 = s <;> simp [hp, h]

/-- What the theory assumes of the parents: `parent s v` is a neighbour of `v` that is closer
to `s`, and it is `s` itself if `v` is `s` or a neighbour of `s`. -/
structure Parents (G : SimpleGraph V) (parent : V → V → V) (depth : V → V → ℕ) : Prop where
  adj : ∀ s v, v ≠ s → G.Adj (parent s v) v
  depth_lt : ∀ s v, v ≠ s → depth s (parent s v) < depth s v
  of_adj : ∀ s v, G.Adj s v → parent s v = s
  self : ∀ s, parent s s = s

namespace Relay

variable {G : SimpleGraph V} [DecidableRel G.Adj] {parent : V → V → V} {depth : V → V → ℕ}

def init : Relay V B :=
  ⟨fun _ => [], fun _ _ => [], fun _ _ => [], fun _ _ => [], fun _ _ => false⟩

/-- Source `s` broadcasts `b`. -/
def call (G : SimpleGraph V) [DecidableRel G.Adj] (R : Relay V B) (s : V) (b : B) :
    Relay V B :=
  { R with
    calls := update R.calls s (R.calls s ++ [b])
    link := fun u v => if u = s ∧ G.Adj s v then R.link u v ++ [(s, b)] else R.link u v }

/-- `v` processes the payload `b` of `s`, which is the next on the link from `u`. -/
def deliver (G : SimpleGraph V) [DecidableRel G.Adj] (parent : V → V → V) (R : Relay V B)
    (u v s : V) (b : B) : Relay V B :=
  { R with
    processed := update R.processed v
      (update (R.processed v) s (R.processed v s ++ [b]))
    link := fun x w =>
      if x = u ∧ w = v then (R.link u v).tail
      else if x = v ∧ w ≠ u ∧ G.Adj v w ∧ R.connected v w = true ∧ parent s w = v then
        R.link x w ++ [(s, b)]
      else R.link x w
    pending := fun x w =>
      if x = v ∧ w ≠ u ∧ G.Adj v w ∧ R.connected v w = false then R.pending x w ++ [(s, b)]
      else R.pending x w }

/-- `u` gets to know `v`. -/
def connect (parent : V → V → V) (R : Relay V B) (u v : V) : Relay V B :=
  { R with
    link := fun x w =>
      if x = u ∧ w = v then R.link u v ++ (R.pending u v).filter fun p => parent p.1 v = u
      else R.link x w
    pending := fun x w => if x = u ∧ w = v then [] else R.pending x w
    connected := fun x w => if x = u ∧ w = v then true else R.connected x w }

/-- What `u` has had of the payloads of `s` to pass on. -/
def seen (R : Relay V B) (s u : V) : List B :=
  if u = s then R.calls s else R.processed u s

/-- The invariant: what a parent has had is what its child has processed, what is on its way
and what is pending, in this order. -/
structure Inv (G : SimpleGraph V) (parent : V → V → V) (R : Relay V B) : Prop where
  link : ∀ u v, ∀ p ∈ R.link u v, G.Adj u v ∧ v ≠ p.1 ∧ parent p.1 v = u
  pending : ∀ u v, ∀ p ∈ R.pending u v, p.1 ≠ u
  connected : ∀ u v, R.connected u v = true → R.pending u v = []
  self : ∀ s, R.processed s s = []
  flow : ∀ s v, v ≠ s → R.seen s (parent s v) =
    R.processed v s ++ payloads s (R.link (parent s v) v) ++
      payloads s (R.pending (parent s v) v)

omit [DecidableRel G.Adj] in
theorem inv_init : Inv G parent (init : Relay V B) := by
  refine ⟨by simp [init], by simp [init], by simp [init], by simp [init], ?_⟩
  intro s v _
  simp [init, seen]

variable {R : Relay V B}

theorem Inv.call (hp : Parents G parent depth) (h : Inv G parent R) (s : V) (b : B) :
    Inv G parent (R.call G s b) := by
  refine ⟨?_, h.pending, h.connected, h.self, ?_⟩
  · intro u v p hmem
    simp only [Relay.call] at hmem
    split at hmem
    · next hc =>
      rcases mem_append.mp hmem with hmem | hmem
      · exact h.link u v p hmem
      · obtain rfl := mem_singleton.mp hmem
        obtain rfl := hc.1
        exact ⟨hc.2, hc.2.ne', hp.of_adj u v hc.2⟩
    · exact h.link u v p hmem
  · intro s' v hv
    have hflow := h.flow s' v hv
    by_cases hs : parent s' v = s
    · -- the source of the call is the parent of `v` for `s'`
      have hadj : G.Adj s v := hs ▸ hp.adj s' v hv
      rw [hs] at hflow ⊢
      by_cases hss : s = s'
      · subst hss
        have hnil : payloads s (R.pending s v) = [] := payloads_eq_nil (h.pending s v)
        simp only [seen, if_true] at hflow
        rw [hnil, append_nil] at hflow
        simp [Relay.call, seen, hadj, hflow, hnil, payloads_cons_self]
      · simp only [seen, if_neg hss] at hflow
        simp [Relay.call, seen, hadj, hss, hflow, payloads_cons_ne hss]
    · have hseen : (R.call G s b).seen s' (parent s' v) = R.seen s' (parent s' v) := by
        rw [seen, seen]
        split
        · next heq => simp [Relay.call, update_of_ne (heq ▸ hs)]
        · rfl
      rw [hseen, hflow]
      simp [Relay.call, hs]

omit [DecidableRel G.Adj] in
theorem Inv.connect (hp : Parents G parent depth) (h : Inv G parent R) {u v : V}
    (hadj : G.Adj u v) : Inv G parent (R.connect parent u v) := by
  refine ⟨?_, ?_, ?_, h.self, ?_⟩
  · intro x w p hmem
    simp only [Relay.connect] at hmem
    split at hmem
    · next hc =>
      obtain ⟨rfl, rfl⟩ := hc
      rcases mem_append.mp hmem with hmem | hmem
      · exact h.link x w p hmem
      · obtain ⟨hpend, hpar⟩ := mem_filter.mp hmem
        rw [decide_eq_true_eq] at hpar
        refine ⟨hadj, ?_, hpar⟩
        -- a source is its own parent, and keeps nothing of its own pending
        intro heq
        rw [heq, hp.self] at hpar
        exact h.pending x w p hpend hpar
    · exact h.link x w p hmem
  · intro x w p hmem
    simp only [Relay.connect] at hmem
    split at hmem
    · cases hmem
    · exact h.pending x w p hmem
  · intro x w hconn
    simp only [Relay.connect] at hconn ⊢
    split at hconn
    · next hc => rw [if_pos hc]
    · next hc =>
      rw [if_neg hc]
      exact h.connected x w hconn
  · intro s w hw
    have hflow := h.flow s w hw
    change R.seen s (parent s w) = _
    rw [hflow]
    by_cases hc : parent s w = u ∧ w = v
    · obtain ⟨hpar, rfl⟩ := hc
      have hkeep : payloads s ((R.pending u w).filter fun p => parent p.1 w = u) =
          payloads s (R.pending u w) :=
        payloads_filter (q := fun s => parent s w = u) (by simpa using hpar)
      simp [Relay.connect, hpar, hkeep]
    · simp [Relay.connect, hc]

variable {b : B} {rest : List (V × B)} {u v s s' : V}

theorem payloads_deliver_link (hlink : R.link u v = (s, b) :: rest) (hss : s ≠ s')
    (x w : V) : payloads s' ((R.deliver G parent u v s b).link x w) = payloads s' (R.link x w) := by
  simp only [deliver]
  split
  · next hc =>
    obtain ⟨rfl, rfl⟩ := hc
    rw [hlink, tail_cons, payloads_cons_ne hss]
  · split
    · rw [payloads_append, payloads_cons_ne hss, payloads_nil, append_nil]
    · rfl

theorem payloads_deliver_pending (hss : s ≠ s') (x w : V) :
    payloads s' ((R.deliver G parent u v s b).pending x w) = payloads s' (R.pending x w) := by
  simp only [deliver]
  split
  · rw [payloads_append, payloads_cons_ne hss, payloads_nil, append_nil]
  · rfl

variable (hp : Parents G parent depth) (h : Inv G parent R)

include hp h

/-- What a delivery does to the source of the payload: `v` takes it from the link, and hands
it to its children or keeps it for them. -/
theorem Inv.flow_deliver (hlink : R.link u v = (s, b) :: rest) {w : V} (hw : w ≠ s) :
    (R.deliver G parent u v s b).seen s (parent s w) =
      (R.deliver G parent u v s b).processed w s ++
        payloads s ((R.deliver G parent u v s b).link (parent s w) w) ++
        payloads s ((R.deliver G parent u v s b).pending (parent s w) w) := by
  obtain ⟨huv, hvs, hpar⟩ := h.link u v (s, b) (by simp [hlink])
  simp only at hvs hpar
  have hflow := h.flow s w hw
  by_cases hchild : parent s w = v
  · have hadj : G.Adj v w := hchild ▸ hp.adj s w hw
    have hwv : w ≠ v := hadj.ne'
    -- `w` is not the parent of `v`, since parents lie closer to the source
    have hwu : w ≠ u := by
      rintro rfl
      have h₁ := hp.depth_lt s v hvs
      have h₂ := hp.depth_lt s w hw
      rw [hpar] at h₁
      rw [hchild] at h₂
      omega
    rw [hchild] at hflow ⊢
    simp only [seen, if_neg hvs] at hflow
    cases hconn : R.connected v w with
    | true =>
      have hnil := h.connected v w hconn
      simp [deliver, seen, hvs, hwu, hadj, hconn, hchild, hwv, hflow, hnil, payloads_cons_self]
    | false =>
      simp [deliver, seen, hvs, hwu, hadj, hconn, hwv, hflow, payloads_cons_self]
  · have hseen : (R.deliver G parent u v s b).seen s (parent s w) = R.seen s (parent s w) := by
      simp [seen, deliver, update_of_ne hchild]
    rw [hseen, hflow]
    by_cases hwv : w = v
    · subst hwv
      rw [hpar, hlink, payloads_cons_self]
      simp [deliver, hlink, huv.ne]
    · simp [deliver, hchild, hwv]

/-- Delivery of the next payload of a link. -/
theorem Inv.deliver
    (hlink : R.link u v = (s, b) :: rest) : Inv G parent (R.deliver G parent u v s b) := by
  obtain ⟨huv, hvs, hpar⟩ := h.link u v (s, b) (by simp [hlink])
  refine ⟨?_, ?_, ?_, ?_, ?_⟩
  · intro x w p hmem
    simp only [Relay.deliver] at hmem
    split at hmem
    · next hc =>
      obtain ⟨rfl, rfl⟩ := hc
      rw [hlink] at hmem
      exact h.link x w p (by simp [hlink, tail_cons ▸ hmem])
    · split at hmem
      · next hc =>
        -- the payload goes on to a child of `v` in the tree of its source
        obtain ⟨rfl, hwu, hadj, -, hparw⟩ := hc
        rcases mem_append.mp hmem with hmem | hmem
        · exact h.link x w p hmem
        · obtain rfl := mem_singleton.mp hmem
          refine ⟨hadj, ?_, hparw⟩
          rintro rfl
          rw [hp.self] at hparw
          exact hvs hparw.symm
      · exact h.link x w p hmem
  · intro x w p hmem
    simp only [Relay.deliver] at hmem
    split at hmem
    · next hc =>
      rcases mem_append.mp hmem with hmem | hmem
      · exact h.pending x w p hmem
      · obtain rfl := mem_singleton.mp hmem
        rw [hc.1]
        exact fun heq => hvs heq.symm
    · exact h.pending x w p hmem
  · intro x w hconn
    have hconn' : R.connected x w = true := hconn
    simp only [Relay.deliver]
    rw [if_neg, h.connected x w hconn']
    rintro ⟨rfl, -, -, hfalse⟩
    rw [hconn'] at hfalse
    cases hfalse
  · intro s'
    simp only [Relay.deliver, update_apply]
    split
    · next hs'v =>
      subst hs'v
      rw [update_of_ne hvs]
      exact h.self s'
    · exact h.self s'
  · intro s' w hw
    by_cases hss : s = s'
    · subst hss
      exact h.flow_deliver hp hlink hw
    · -- nothing changes for the other sources
      have hflow := h.flow s' w hw
      have hproc : ∀ x, (R.deliver G parent u v s b).processed x s' = R.processed x s' := by
        intro x
        simp only [Relay.deliver, update_apply]
        split
        · next hx => rw [hx, update_of_ne (Ne.symm hss)]
        · rfl
      have hseen : (R.deliver G parent u v s b).seen s' (parent s' w) =
          R.seen s' (parent s' w) := by
        rw [seen, seen, hproc]
        rfl
      rw [hseen, hproc, hflow, payloads_deliver_link hlink hss, payloads_deliver_pending hss]

omit hp h

omit [DecidableRel G.Adj] in
/-- A vertex has processed a first part of what the source has broadcast. -/
theorem Inv.isPrefix (hp : Parents G parent depth) (h : Inv G parent R) (s v : V) :
    R.processed v s <+: R.calls s := by
  induction hd : depth s v using Nat.strong_induction_on generalizing v with
  | _ d ih =>
    by_cases hv : v = s
    · rw [hv, h.self]
      exact nil_prefix
    · have hflow := h.flow s v hv
      have hseen : R.seen s (parent s v) <+: R.calls s := by
        rw [seen]
        split
        · exact prefix_refl _
        · exact ih _ (hd ▸ hp.depth_lt s v hv) _ rfl
      rw [hflow, append_assoc] at hseen
      exact (prefix_append _ _).trans hseen

omit [DecidableRel G.Adj] in
theorem Inv.complete {R : Relay V B} (hp : Parents G parent depth) (h : Inv G parent R)
    (hconn : ∀ u v, G.Adj u v → R.connected u v = true) (hlink : ∀ u v, R.link u v = [])
    {s v : V} (hv : v ≠ s) : R.processed v s = R.calls s := by
  induction hd : depth s v using Nat.strong_induction_on generalizing v with
  | _ d ih =>
    have hflow := h.flow s v hv
    rw [hlink, h.connected _ _ (hconn _ _ (hp.adj s v hv))] at hflow
    simp only [payloads_nil, append_nil] at hflow
    rw [← hflow, seen]
    split
    · rfl
    · next hne => exact ih _ (hd ▸ hp.depth_lt s v hv) hne rfl

end Relay

end Foundation
