import Moodist.Store.Node

/-!
# What the handlers send

On a rank whose tables are right, no inner call of a handler fails, and every send has a
closed form: the message goes to the queue of one edge, after the addresses of the rank
that asked for it if that edge has not had them.
-/

namespace Store

open Foundation

variable {n : ℕ} {G : SimpleGraph (Fin n)} {nd : Node n} {msg : Message n}

@[simp] theorem ok_bind {α β : Type} (a : α) (f : α → Except Fault β) :
    (Except.ok a >>= f) = f a := rfl

namespace Node

/-- The tables of this rank are those of the graph `G`. -/
structure Routed (nd : Node n) (G : SimpleGraph (Fin n)) : Prop where
  hops : FirstHops G nd.rank nd.firsthop
  peers : ∀ e, e ∈ nd.edgePeers ↔ G.Adj nd.rank e
  nodup : nd.edgePeers.Nodup

/-- `nd'` has the same tables as `nd`. -/
structure SameTables (nd nd' : Node n) : Prop where
  rank : nd'.rank = nd.rank
  firsthop : nd'.firsthop = nd.firsthop
  edgePeers : nd'.edgePeers = nd.edgePeers

theorem SameTables.refl (nd : Node n) : SameTables nd nd := ⟨rfl, rfl, rfl⟩

theorem SameTables.trans {nd₁ nd₂ nd₃ : Node n} (h : SameTables nd₁ nd₂)
    (h' : SameTables nd₂ nd₃) : SameTables nd₁ nd₃ :=
  ⟨h'.rank.trans h.rank, h'.firsthop.trans h.firsthop, h'.edgePeers.trans h.edgePeers⟩

theorem Routed.of_sameTables {nd' : Node n} (h : nd.Routed G) (hs : SameTables nd nd') :
    nd'.Routed G := by
  refine ⟨?_, ?_, ?_⟩
  · rw [hs.rank, hs.firsthop]
    exact h.hops
  · rw [hs.rank, hs.edgePeers]
    exact h.peers
  · rw [hs.edgePeers]
    exact h.nodup

/-- The message that tells `edge` the addresses of `diagnosticSource`, if it is due. -/
def diagnosticMessages (nd : Node n) (edge diagnosticSource : Fin n) :
    List (Fin n × Message n) :=
  if (nd.edgeInfo edge).sentDiagnosticSourceFor diagnosticSource ∨
      nd.diagnosticAddrs diagnosticSource = [] then []
  else
    [(edge,
      { ttl := n, destinationRank := edge, id := 0, sourceRank := nd.rank,
        diagnosticSource := diagnosticSource, broadcast := false,
        body := .diagnosticSource (nd.diagnosticAddrs diagnosticSource) })]

/-- The effect of `sendMessage` to a neighbour. -/
def post (nd : Node n) (edge : Fin n) (msg : Message n) (diagnosticSource : Fin n) : Node n :=
  { nd with
    edgeInfo := Function.update nd.edgeInfo edge
      { nd.edgeInfo edge with
        sentDiagnosticSourceFor :=
          Function.update (nd.edgeInfo edge).sentDiagnosticSourceFor diagnosticSource true }
    outbox := nd.outbox ++ (nd.diagnosticMessages edge diagnosticSource ++ [(edge, msg)]) }

theorem sameTables_post (nd : Node n) (edge : Fin n) (msg : Message n) (ds : Fin n) :
    SameTables nd (nd.post edge msg ds) := ⟨rfl, rfl, rfl⟩

end Node

theorem FirstHops.firsthop_adj {rank e : Fin n} {firsthop : Fin n → Option (Fin n)}
    (h : FirstHops G rank firsthop) (hadj : G.Adj rank e) : firsthop e = some e := by
  obtain ⟨f, hf, hfadj, hdist⟩ := h.hop e hadj.ne'
  rw [SimpleGraph.dist_eq_one_iff_adj.mpr hadj] at hdist
  have hreach : G.Reachable f e := hfadj.symm.reachable.trans hadj.reachable
  have : f = e := hreach.dist_eq_zero_iff.mp (by omega)
  rw [hf, this]

/-! ## Sends -/

theorem sendMessage_of_sent {calls : Calls n} {edge ds : Fin n}
    (hne : edge ≠ nd.rank) (hsent : (nd.edgeInfo edge).sentDiagnosticSourceFor ds = true) :
    sendMessage calls nd edge msg ds = .ok (nd.enqueue edge msg) := by
  simp [sendMessage, ensureDiagnosticSourceSent, hne, hsent, bind, Except.bind, pure, Except.pure]

variable (h : nd.Routed G)

include h

/-- A send to a neighbour succeeds. -/
theorem sendMessage_eq (k : ℕ) {edge : Fin n} (hadj : G.Adj nd.rank edge)
    (msg : Message n) (ds : Fin n) :
    sendMessage (calls (k + 1)) nd edge msg ds = .ok (nd.post edge msg ds) := by
  have hne : edge ≠ nd.rank := hadj.ne'
  by_cases hsent : (nd.edgeInfo edge).sentDiagnosticSourceFor ds = true
  · rw [sendMessage_of_sent hne hsent]
    have hself : Function.update (nd.edgeInfo edge).sentDiagnosticSourceFor ds true =
        (nd.edgeInfo edge).sentDiagnosticSourceFor := by
      rw [← hsent, Function.update_eq_self]
    simp [Node.post, Node.enqueue, Node.diagnosticMessages, hsent, hself]
  -- the addresses are due: they go to `edge` directly, by an inner send
  set nd₁ := nd.modifyEdge edge fun pi =>
    { pi with sentDiagnosticSourceFor := Function.update pi.sentDiagnosticSourceFor ds true }
    with hnd₁
  have haddrs : nd₁.diagnosticAddrs ds = nd.diagnosticAddrs ds := rfl
  have hensure : ensureDiagnosticSourceSent (calls (k + 1)) nd edge ds =
      .ok { nd₁ with outbox := nd.outbox ++ nd.diagnosticMessages edge ds } := by
    rw [ensureDiagnosticSourceSent, if_neg hne, if_neg hsent]
    change (if nd₁.diagnosticAddrs ds = [] then _ else _) = _
    rw [haddrs]
    by_cases hnil : nd.diagnosticAddrs ds = []
    · rw [if_pos hnil, Node.diagnosticMessages, if_pos (.inr hnil), List.append_nil]
      rfl
    · rw [if_neg hnil, Node.diagnosticMessages, if_neg (by simp [hsent, hnil])]
      change sendMessageTo (calls k) nd₁ edge 0 ds _ = _
      have hfirst : nd₁.firsthop edge = some edge := h.hops.firsthop_adj hadj
      have hsent₁ : (nd₁.edgeInfo edge).sentDiagnosticSourceFor ds = true := by
        simp [hnd₁, Node.modifyEdge]
      have hpeer : edge ∈ nd₁.edgePeers := (h.peers edge).mpr hadj
      have hne₁ : edge ≠ nd₁.rank := hne
      rw [sendMessageTo, hfirst]
      simp only
      rw [if_neg hne₁, if_pos hpeer, sendMessage_of_sent hne₁ hsent₁]
      rfl
  rw [sendMessage, if_neg hne, hensure]
  simp only [bind, Except.bind, pure, Except.pure, Node.enqueue, Node.post, hnd₁,
    Node.modifyEdge, List.append_assoc]

/-- A message to another rank goes to the first hop. -/
theorem sendMessageTo_eq (k : ℕ) {dest f : Fin n} (hne : dest ≠ nd.rank)
    (hf : nd.firsthop dest = some f) (id : UInt32) (ds : Fin n) (body : Body n) :
    sendMessageTo (calls (k + 1)) nd dest id ds body =
      .ok (nd.post f
        { ttl := n, destinationRank := dest, id := id, sourceRank := nd.rank,
          diagnosticSource := ds, broadcast := false, body := body } ds) := by
  obtain ⟨f', hf', hadj, -⟩ := h.hops.hop dest hne
  obtain rfl : f' = f := by simpa [hf] using hf'.symm
  rw [sendMessageTo, hf]
  simp only
  rw [if_neg hadj.ne', if_pos ((h.peers _).mpr hadj), sendMessage_eq h k hadj]

theorem sendMessageTo_self (c : Calls n) (id : UInt32) (ds : Fin n) (body : Body n) :
    sendMessageTo c nd nd.rank id ds body =
      c.processMessage nd
        { ttl := n, destinationRank := nd.rank, id := id, sourceRank := nd.rank,
          diagnosticSource := ds, broadcast := false, body := body } nd.rank := by
  simp only [sendMessageTo, h.hops.self, if_true]

/-- A message for another rank is passed on to the first hop, with one hop less left. -/
theorem processMessage_forward (k : ℕ) {edgeRank f : Fin n}
    (hne : msg.destinationRank ≠ nd.rank) (hf : nd.firsthop msg.destinationRank = some f)
    (httl : msg.ttl ≠ 0) :
    processMessage (calls (k + 1)) nd msg edgeRank =
      .ok (nd.post f { msg with ttl := msg.ttl - 1 } msg.diagnosticSource) := by
  obtain ⟨f', hf', hadj, -⟩ := h.hops.hop _ hne
  obtain rfl : f' = f := by simpa [hf] using hf'.symm
  rw [processMessage, if_pos hne, if_neg httl, hf]
  simp only
  rw [if_pos ((h.peers _).mpr hadj), sendMessage_eq h k hadj]

end Store
