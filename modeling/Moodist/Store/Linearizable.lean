import Moodist.Store.Delivery
import Moodist.Store.Simulation

/-!
# The key-value store is linearizable

Operations take effect when the owner of their key processes them, and readers that had to wait when
the first set of their key is processed.
-/

namespace Store

open Foundation Option

variable {n : ℕ}

/-- What `Wait::wait` returns when it looks at the object: nothing as long as the thread has
to wait or gives up, an error, or success. -/
def Wait.wait (w : Wait) : Option (Except String Unit) :=
  if w.futex then some (if w.error then .error w.errorMessage else .ok ()) else none

def System.packets (s : System n) (c : Client n) : Multiset (Packet n) :=
  (∑ u, ∑ v, ((s.links u v).filterMap Message.packet? : Multiset (Packet n))).filter
    fun p => p.client = c

/-- The operation of a client has its answer `res`: it is on the way to the client, or the
client can return with it. `w` is the object of the operation. -/
def System.Answered (s : System n) (c : Client n) (w : ℕ) (op : Op) (res : Result) : Prop :=
  (s.packets c = {.reply c res.payload} ∧
      (s.nodes c.1).waitObjects[w]? = some Wait.fresh) ∨
    (s.packets c = 0 ∧ ∃ x, (s.nodes c.1).waitObjects[w]? = some x ∧ x.wait = some (.ok ()) ∧
      op.result (x.b, x.data) = res)

namespace Execution

variable {c : Cluster n} (ex : Execution c)

/-- A run without shutdown, in which the ids of the operations in flight are distinct. -/
def ClientOnly : Prop := ∀ t, (ex.action t).IsClient (ex.state t)

/-- In step `t` a thread calls this operation. -/
def Invokes (t : ℕ) (o : Operation n) : Prop :=
  (∃ id, ex.action t = .operation o.rank id o.op o.key) ∧
    o.object = ((ex.state t).nodes o.rank).waitObjects.length

/-- After `t` steps the thread that called this operation can return with the result `res`. -/
def Returns (t : ℕ) (o : Operation n) (res : Result) : Prop :=
  (∃ t₀ < t, ex.Invokes t₀ o) ∧
    ∃ w, ((ex.state t).nodes o.rank).waitObjects[o.object]? = some w ∧
      w.wait = some (.ok ()) ∧ o.op.result (w.b, w.data) = res

def observed (key : Key) : Observed (Operation n) Result where
  invokes t o := o.key = key ∧ ex.Invokes t o
  returns t o res := o.key = key ∧ ex.Returns t o res

/-- The operations that have been called, by the object they wait on. -/
def ops : ℕ → Fin n → List (Op × Key)
  | 0 => fun _ => []
  | t + 1 => (ex.action t).ops (ops t)

/-- The state of the protocol, with the log of the operations that have taken effect. -/
def kv (log : ℕ → List (Operation n × Result)) (t : ℕ) : KV n :=
  (ex.state t).kv (ex.ops t) (log t)

/-- A log of the operations, in the order in which they take effect. -/
structure IsLog (log : ℕ → List (Operation n × Result)) : Prop where
  start : log 0 = []
  client : ∀ t, (ex.state t).ClientOnly
  inv : ∀ t, (ex.kv log t).Inv none
  follows : ∀ t, (ex.state t).Follows (ex.state (t + 1)) (ex.ops t) (ex.ops (t + 1)) (log t)
    (log (t + 1))

end Execution

theorem Cluster.clientOnly_init (c : Cluster n) : c.init.ClientOnly := by
  refine ⟨by simp [Cluster.init], fun r => ?_⟩
  constructor <;> simp [Cluster.init, c.nodes_eq, Node.readers]

theorem Cluster.kv_init (c : Cluster n) : (c.init.kv (fun _ => []) []).Inv none := by
  constructor
  all_goals simp [System.kv, Cluster.init, c.nodes_eq, Node.readers, KV.Called, KV.InFlight,
    KV.logOn, Sequential.Legal]

namespace Execution

variable {c : Cluster n} {ex : Execution c}

theorem ClientOnly.exists_log (h : ex.ClientOnly) : ∃ log, ex.IsLog log := by
  obtain ⟨log, hstart, hinv, hfollows⟩ := exists_chain
    (P := fun t log => (ex.state t).ClientOnly ∧ ((ex.state t).kv (ex.ops t) log).Inv none)
    (Q := fun t log log' => (ex.state t).Follows (ex.state (t + 1)) (ex.ops t) (ex.ops (t + 1))
      log log') (a := [])
    (by rw [ex.start]; exact ⟨c.clientOnly_init, c.kv_init⟩)
    (by
      rintro t log ⟨hclient, hK⟩
      obtain ⟨hclient', log', hfollows⟩ := System.follows_step (ex.inv t) hclient hK (h t)
        (ex.next t)
      exact ⟨log', ⟨hclient', hK.reach hfollows.reach⟩, hfollows⟩)
  exact ⟨log, hstart, fun t => (hinv t).1, fun t => (hinv t).2, hfollows⟩

variable {log : ℕ → List (Operation n × Result)}

variable (h : ex.IsLog log) {o : Operation n}

include h

theorem IsLog.length_ops (t : ℕ) (r : Fin n) :
    (ex.ops t r).length = ((ex.state t).nodes r).waitObjects.length :=
  (h.inv t).ops_length r

theorem IsLog.called_succ (t : ℕ) (o : Operation n) :
    (ex.kv log (t + 1)).Called o ↔ (ex.kv log t).Called o ∨ ex.Invokes t o := by
  show ((ex.action t).ops (ex.ops t) o.rank)[o.object]? = _ ↔
    (ex.ops t o.rank)[o.object]? = _ ∨ ex.Invokes t o
  rw [Invokes, ← h.length_ops]
  cases ha : ex.action t with
  | operation r id op key =>
    rw [Action.ops]
    by_cases hr : o.rank = r
    · subst hr
      rw [Function.update_self, List.getElem?_append, List.getElem?_singleton]
      split_ifs with hlt heq
      · simp [Nat.ne_of_lt hlt]
      · have hobj : o.object = (ex.ops t o.rank).length := by omega
        simp [hobj]
      · have hnone : (ex.ops t o.rank)[o.object]? = none := by
          rw [List.getElem?_eq_none_iff]
          omega
        have hobj : o.object ≠ (ex.ops t o.rank).length := by omega
        simp [hnone, hobj]
    · rw [Function.update_of_ne hr]
      simp [Ne.symm hr]
  | deliver u v | connect u v | broadcast r a | closing r shuttingDown exited exitSourceRank =>
    simp [Action.ops]

theorem IsLog.called_iff (t : ℕ) (o : Operation n) :
    (ex.kv log t).Called o ↔ ∃ t₀ < t, ex.Invokes t₀ o := by
  induction t with
  | zero => simp [KV.Called, kv, System.kv, ops]
  | succ t ih =>
    rw [h.called_succ, ih]
    constructor
    · rintro (⟨t₀, hlt, hinv⟩ | hinv)
      · exact ⟨t₀, by omega, hinv⟩
      · exact ⟨t, by omega, hinv⟩
    · rintro ⟨t₀, hlt, hinv⟩
      rcases Nat.lt_succ_iff_lt_or_eq.mp hlt with hlt | rfl
      · exact .inl ⟨t₀, hlt, hinv⟩
      · exact .inr hinv

theorem IsLog.invokes_once {t t' : ℕ} (hinv : ex.Invokes t o)
    (hinv' : ex.Invokes t' o) : t = t' := by
  have hlt : ∀ {t t'}, ex.Invokes t o → ex.Invokes t' o → ¬ t < t' := by
    intro t t' hinv hinv' hlt
    have hcalled := (h.called_iff t' o).mpr ⟨t, hlt, hinv⟩
    have hobj := (List.getElem?_eq_some_iff.mp hcalled).1
    have hlen : (ex.ops t' o.rank).length = o.object := (h.length_ops t' o.rank).trans hinv'.2.symm
    exact absurd hobj (by show ¬ o.object < (ex.ops t' o.rank).length; omega)
  have h₁ := hlt hinv hinv'
  have h₂ := hlt hinv' hinv
  omega

theorem IsLog.returned {t : ℕ} {res : Result} (hret : ex.Returns t o res) :
    (o, res) ∈ log t := by
  obtain ⟨hinv, w, hw, hwait, rfl⟩ := hret
  have hfutex : w.futex = true := by
    by_contra hne
    rw [Wait.wait, if_neg hne] at hwait
    cases hwait
  rcases (h.inv t).done o w ((h.called_iff t o).mpr hinv) hw with ⟨id, hid⟩ | ⟨-, -, hmem⟩
  · have hfresh := (h.inv t).fresh _ _ hid
    obtain rfl := some.inj (hw.symm.trans hfresh)
    cases hfutex
  · exact hmem

theorem IsLog.points (key : Key) :
    Points KV.spec none (ex.observed key) fun t => (ex.kv log t).logOn key := by
  refine ⟨fun t => ?_, fun t => ?_, fun t => ?_, fun t e he => ?_, fun t o res hret => ?_⟩
  · exact (h.follows t).reach.log_prefix.filter _
  · cases hlog : (ex.kv log t).logOn key with
    | nil => exact ⟨none, rfl⟩
    | cons e rest =>
      have hlegal := (h.inv t).legal e.1.rank key
      rw [hlog] at hlegal
      exact ⟨_, hlegal⟩
  · exact (h.inv t).nodup.sublist (List.filter_sublist.map Prod.fst)
  · obtain ⟨hmem, hkey⟩ := List.mem_filter.mp he
    obtain ⟨t₀, hlt, hinv⟩ := (h.called_iff t e.1).mp ((h.inv t).called e hmem)
    exact ⟨t₀, hlt, of_decide_eq_true hkey, hinv⟩
  · exact List.mem_filter.mpr ⟨h.returned hret.2, decide_eq_true hret.1⟩

theorem IsLog.answered {t : ℕ} {v : Fin n} {key : Key} {x : Reader n}
    (hx : x ∈ ((ex.state t).nodes v).readers key) {value : Value}
    (hset : Sets ((ex.state t).newEvents (ex.state (t + 1)) v) key value) :
    ∃ w, ((ex.state t).nodes x.client.1).waits.lookup x.client.2 = some w ∧
      (ex.state (t + 1)).Answered x.client w x.kind.op (x.kind.result value) := by
  obtain ⟨-, o, ho, -, hop, hkey⟩ := (h.inv t).readers (v, key) x hx
  obtain ⟨-, hlog⟩ := (h.follows t).set v key value hset
  have hoper : ((ex.state t).kv (ex.ops t) (log t)).operation x.client x.kind.op key = o := by
    rw [← hop, show key = o.key from hkey.symm]
    exact KV.InFlight.operation_eq ho
  -- the operation of the reader takes effect in this step
  have hmem : (o, x.kind.result value) ∈ log (t + 1) := hoper ▸ hlog x hx
  have hinv := h.inv (t + 1)
  have hobject : ((ex.state t).nodes x.client.1).waits.lookup x.client.2 = some o.object :=
    ho.object
  have hcalled : (ex.kv log (t + 1)).Called o := (h.called_succ t o).mpr (.inl ho.called)
  refine ⟨o.object, hobject, ?_⟩
  obtain ⟨y, hy⟩ : ∃ y, ((ex.kv log (t + 1)).objects o.rank)[o.object]? = some y := by
    have hlt := (List.getElem?_eq_some_iff.mp hcalled).1
    rw [hinv.ops_length] at hlt
    exact ⟨_, List.getElem?_eq_getElem hlt⟩
  rcases hinv.done o y hcalled hy with ⟨id, hid⟩ | ⟨hfutex, herror, hlogged⟩
  · -- the reply is on the way
    have hclient : (o.rank, id) = x.client := by
      rcases (h.follows t).waits o.rank id _ hid with hold | ⟨-, hlen⟩
      · exact (h.inv t).waits_inj _ _ _ ho.rank hold hobject
      · have hlt := (h.inv t).object_lt hobject
        rw [hlen, ho.rank] at hlt
        exact absurd hlt (lt_irrefl _)
    rw [hclient] at hid
    have hflight : (ex.kv log (t + 1)).InFlight x.client o := ⟨ho.rank, hid, hcalled⟩
    exact .inl ⟨hinv.packetsOf_logged hflight hmem, hinv.fresh _ _ hid⟩
  · -- the client has its result
    have hnone : (ex.kv log (t + 1)).waits x.client = none := by
      cases hw : (ex.kv log (t + 1)).waits x.client with
      | none => rfl
      | some w =>
        rcases (h.follows t).waits x.client.1 x.client.2 w hw with hold | ⟨hfree, -⟩
        · obtain rfl := some.inj (hobject.symm.trans hold)
          have hfresh := hinv.fresh _ _ hw
          rw [← ho.rank, hy] at hfresh
          cases hfresh
          cases hfutex
        · exact absurd (hobject.symm.trans hfree) nofun
    refine .inr ⟨hinv.packetsOf_idle hnone, y, by rw [← ho.rank]; exact hy, ?_, ?_⟩
    · simp [Wait.wait, hfutex, herror]
    · have heq := List.inj_on_of_nodup_map hinv.nodup hlogged hmem rfl
      rw [← hop]
      exact (Prod.mk.inj heq).2

end Execution

/-- For every world size, store key and shuffle, and every run of any number of client
threads on all ranks without shutdown, whose operations in flight have distinct ids: no
check fails. The operations on each key can be put in one order that agrees with real
time, in which a `get` returns the value of the last set before it, `get` and `wait` come
after a set, and a `check` tells whether a set comes before it. A client has at most one
message on the way. A reader that waits has none, waits once for a key that no set has
reached, and keeps waiting until the first set of the key is processed; this answers
it, once, with the value that was set. -/
theorem keyValue_linearizable (c : Cluster n) (ex : Execution c) (h : ex.ClientOnly) :
    (∀ t a, ∃ s, (ex.state t).step a = .ok s) ∧
    (∀ key T, ∃ order, Linearizes KV.spec none (ex.observed key) T order) ∧
    (∀ t client, ((ex.state t).packets client).card ≤ 1) ∧
    ∀ t v key x, x ∈ ((ex.state t).nodes v).readers key →
      ((ex.state t).nodes v).store.lookup key = none ∧
      (((ex.state t).nodes v).readers key).count x = 1 ∧
      (ex.state t).packets x.client = 0 ∧
      ((∀ value, ¬ Sets ((ex.state t).newEvents (ex.state (t + 1)) v) key value) →
        x ∈ ((ex.state (t + 1)).nodes v).readers key) ∧
      ∀ value, Sets ((ex.state t).newEvents (ex.state (t + 1)) v) key value →
        ((ex.state (t + 1)).nodes v).readers key = [] ∧
        ∃ w, ((ex.state t).nodes x.client.1).waits.lookup x.client.2 = some w ∧
          (ex.state (t + 1)).Answered x.client w x.kind.op (x.kind.result value) := by
  obtain ⟨log, hlog⟩ := h.exists_log
  refine ⟨fun t a => ?_, fun key T => ?_, fun t client => ?_, fun t v key x hx => ?_⟩
  · obtain ⟨s, hstep, -⟩ := (ex.inv t).step a
    exact ⟨s, hstep⟩
  · exact ⟨_, (hlog.points key).linearizes
      (fun t t' o hinv hinv' => hlog.invokes_once hinv.2 hinv'.2) T⟩
  · exact (hlog.inv t).card_packetsOf client
  · obtain ⟨hcount, hpackets⟩ := (hlog.inv t).packetsOf_reader (p := (v, key)) hx
    refine ⟨((hlog.client t).nodes v).blocked key (List.ne_nil_of_mem hx), hcount, hpackets,
      fun hnot => ((hlog.follows t).kept v key hnot).subset hx, fun value hset => ?_⟩
    exact ⟨((hlog.follows t).set v key value hset).1, hlog.answered hx hset⟩

def oneByte : Value := ⟨[42], by norm_num⟩

/-- Rank 0 sets a key and rank 2 gets it. The get comes first to rank 1, which owns the key, and
waits for the set. -/
def setAndGet : ℕ → Action 6
  | 0 => .operation (rankSix 0) 7 (.set oneByte) [97]
  | 1 => .operation (rankSix 2) 7 .get [97]
  | 2 => .deliver (rankSix 2) (rankSix 1)
  | 3 => .deliver (rankSix 0) (rankSix 1)
  | 4 => .deliver (rankSix 1) (rankSix 0)
  | _ + 5 => .deliver (rankSix 1) (rankSix 2)

theorem Execution.Returns.of_any {c : Cluster n} {ex : Execution c} {t t₀ : ℕ} {o : Operation n}
    {res : Result} (hlt : t₀ < t) (hinvokes : ex.Invokes t₀ o)
    (h : ((ex.state t).nodes o.rank).waitObjects[o.object]?.any (fun w =>
      decide (w.wait = some (.ok ())) && decide (o.op.result (w.b, w.data) = res)) = true) :
    ex.Returns t o res := by
  obtain ⟨w, hw, hreturn⟩ := (Option.any_eq_true _ _).mp h
  rw [Bool.and_eq_true, decide_eq_true_eq, decide_eq_true_eq] at hreturn
  exact ⟨⟨t₀, hlt, hinvokes⟩, w, hw, hreturn⟩

theorem keyValue_linearizable_six :
    let ex := clusterSix.execution setAndGet
    ex.Returns 5 ⟨0, 0, .set oneByte, [97]⟩ .done ∧
    ex.Returns 6 ⟨2, 0, .get, [97]⟩ (.value oneByte) ∧
    (∃ x ∈ ((ex.state 3).nodes 1).readers [97], x.client = (2, 7)) ∧
    ∀ key T, ∃ order, Linearizes KV.spec none (ex.observed key) T order := by
  have hclient : (clusterSix.execution setAndGet).ClientOnly := by
    intro t
    match t with
    | 0 =>
      show (((clusterSix.execution setAndGet).state 0).nodes 0).waits.lookup 7 = none
      decide +kernel
    | 1 =>
      show (((clusterSix.execution setAndGet).state 1).nodes 2).waits.lookup 7 = none
      decide +kernel
    | 2 | 3 | 4 | t + 5 => trivial
  have hinvokes : (clusterSix.execution setAndGet).Invokes 1 ⟨2, 0, .get, [97]⟩ :=
    ⟨⟨7, rfl⟩, by decide +kernel⟩
  exact ⟨.of_any (by decide : 0 < 5) ⟨⟨7, rfl⟩, rfl⟩ (by decide +kernel),
    .of_any (by decide : 1 < 6) hinvokes (by decide +kernel), by decide +kernel,
    (keyValue_linearizable clusterSix _ hclient).2.1⟩

end Store
