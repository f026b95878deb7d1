import Moodist.Foundation.Linearizable
import Moodist.Store.Effects

/-!
# The key-value protocol

The key-value operations without ranks that forward messages: clients send requests, the
owner of a key answers them or keeps the reader waiting, and the clients take the replies.
Requests and replies may overtake each other. `ops` and `log` are not part of the protocol:
they say which operation an object belongs to, and in which order operations take effect.
-/

namespace Store

open Foundation List Function Option

variable {n : ℕ}

/-! ## Operations and results -/

/-- What a client operation returns. -/
inductive Result where
  | done
  | value (v : Value)
  | found (b : Bool)
  deriving DecidableEq

namespace Result

def payload : Result → List UInt8
  | .done => []
  | .value v => serializeValue v
  | .found b => [if b then 1 else 0]

/-- What the reply writes into the object that the client waits on. -/
def fields : Result → Bool × Value
  | .done => (false, Value.empty)
  | .value v => (false, v)
  | .found b => (b, Value.empty)

theorem readDone_payload (res : Result) : readDone res.payload = .ok res.fields := by
  cases res with
  | done => rfl
  | value v => exact readDone_serializeValue v
  | found b => cases b <;> rfl

end Result

/-- What `set`, `get`, `check` and `wait` return from the object they have waited on. -/
def Op.result (op : Op) (fields : Bool × Value) : Result :=
  match op with
  | .set _ => .done
  | .get => .value fields.2
  | .check => .found fields.1
  | .wait => .done

def ReadKind.op : ReadKind → Op
  | .get => .get
  | .wait => .wait

def ReadKind.result (kind : ReadKind) (v : Value) : Result :=
  match kind with
  | .get => .value v
  | .wait => .done

/-- What a key holds, as a sequential object: a `get` returns the last value that was set, a
`check` whether there is one, and `get` and `wait` have to wait for one. -/
def register : Sequential (Option Value) Op Result
  | _, .set v => some (.done, some v)
  | some v, .get => some (.value v, some v)
  | some v, .wait => some (.done, some v)
  | s, .check => some (.found s.isSome, s)
  | none, .get => none
  | none, .wait => none

theorem register_read (kind : ReadKind) (v : Value) :
    register (some v) kind.op = some (kind.result v, some v) := by
  cases kind <;> rfl

theorem result_of_register {s s' : Option Value} {op : Op} {res : Result}
    (h : register s op = some (res, s')) : op.result res.fields = res := by
  cases op <;> cases s <;> cases h <;> rfl

/-- A client operation: the rank that calls it, and the index of the object it waits on. -/
structure Operation (n : ℕ) where
  rank : Fin n
  object : ℕ
  op : Op
  key : Key
  deriving DecidableEq

/-! ## The protocol -/

abbrev Client (n : ℕ) := Fin n × UInt32

/-- A message of the protocol. -/
inductive Packet (n : ℕ) where
  | request (client : Client n) (op : Op) (key : Key)
  | reply (client : Client n) (payload : List UInt8)
  deriving DecidableEq

def Packet.client : Packet n → Client n
  | .request c _ _ => c
  | .reply c _ => c

/-- A client that waits for a value. -/
structure Reader (n : ℕ) where
  kind : ReadKind
  client : Client n
  deriving DecidableEq

def Reader.reply (x : Reader n) (v : Value) : Packet n :=
  .reply x.client (x.kind.result v).payload

def place (r : Fin n) (key : Key) : Fin n × Key := (storeRank r key, key)

/-- The state of the protocol. -/
@[ext] structure KV (n : ℕ) where
  waits : Client n → Option ℕ
  objects : Fin n → List Wait
  ops : Fin n → List (Op × Key)
  network : Multiset (Packet n)
  store : Fin n × Key → Option Value
  waiting : Fin n × Key → List (Reader n)
  log : List (Operation n × Result)

namespace KV

def emit (K : KV n) (p : Packet n) : KV n := { K with network := p ::ₘ K.network }

def operation (K : KV n) (c : Client n) (op : Op) (key : Key) : Operation n :=
  ⟨c.1, (K.waits c).getD 0, op, key⟩

def enroll (K : KV n) (c : Client n) (op : Op) (key : Key) : KV n :=
  { K with
    waits := update K.waits c (some (K.objects c.1).length)
    objects := update K.objects c.1 (K.objects c.1 ++ [Wait.fresh])
    ops := update K.ops c.1 (K.ops c.1 ++ [(op, key)]) }

def commit (K : KV n) (c : Client n) (op : Op) (key : Key) (res : Result) (s : Option Value) :
    KV n :=
  { K with
    store := update K.store (place c.1 key) s
    log := K.log ++ [(K.operation c op key, res)] }

def setWaiting (K : KV n) (p : Fin n × Key) (readers : List (Reader n)) : KV n :=
  { K with waiting := update K.waiting p readers }

def finish (K : KV n) (c : Client n) (fields : Bool × Value) : KV n :=
  match K.waits c with
  | none => K
  | some w =>
    { K with
      waits := update K.waits c none
      objects := update K.objects c.1 ((K.objects c.1).modify w fun x =>
        { x with b := fields.1, data := fields.2, futex := true }) }

/-- A reply is taken. -/
inductive Finish : KV n → KV n → Prop
  | mk {K : KV n} {c : Client n} {payload : List UInt8} {fields : Bool × Value}
      (h : readDone payload = .ok fields) :
      Finish (K.emit (.reply c payload)) (K.finish c fields)

/-- The steps of the protocol. -/
inductive Step : KV n → KV n → Prop
  /-- A client calls an operation. -/
  | invoke {K : KV n} {c : Client n} (op : Op) (key : Key) (h : K.waits c = none) :
      Step K ((K.enroll c op key).emit (.request c op key))
  /-- A request is answered. -/
  | commit {K : KV n} {c : Client n} {op : Op} {key : Key} {res : Result} {s : Option Value}
      (h : register (K.store (place c.1 key)) op = some (res, s)) :
      Step (K.emit (.request c op key)) ((K.commit c op key res s).emit (.reply c res.payload))
  /-- A reader has to wait. -/
  | block {K : KV n} {c : Client n} {kind : ReadKind} {key : Key} :
      Step (K.emit (.request c kind.op key))
        (K.setWaiting (place c.1 key) (K.waiting (place c.1 key) ++ [⟨kind, c⟩]))
  /-- The first reader that waits for a key is answered. -/
  | wake {K : KV n} {p : Fin n × Key} {x : Reader n} {rest : List (Reader n)} {v : Value}
      (hw : K.waiting p = x :: rest) (hs : K.store p = some v) :
      Step K (((K.setWaiting p rest).commit x.client x.kind.op p.2 (x.kind.result v)
        (some v)).emit (.reply x.client (x.kind.result v).payload))
  /-- A reply is taken. -/
  | finish {K K' : KV n} (h : Finish K K') : Step K K'

abbrev Reach : KV n → KV n → Prop := Relation.ReflTransGen Step

abbrev Finishes : KV n → KV n → Prop := Relation.ReflTransGen Finish

variable {K K' : KV n}

theorem Finishes.reach (h : Finishes K K') : Reach K K' :=
  Relation.ReflTransGen.mono (fun _ _ => Step.finish) _ _ h

theorem emit_emit (K : KV n) (p q : Packet n) : (K.emit p).emit q = (K.emit q).emit p := by
  simp only [emit, Multiset.cons_swap]

theorem finish_emit (K : KV n) (c : Client n) (fields : Bool × Value) (p : Packet n) :
    (K.emit p).finish c fields = (K.finish c fields).emit p := by
  simp only [finish, emit]
  split <;> rfl

theorem Finishes.emit (h : Finishes K K') (p : Packet n) :
    Finishes (K.emit p) (K'.emit p) := by
  refine Relation.ReflTransGen.lift (fun K : KV n => K.emit p) ?_ _ _ h
  rintro _ _ ⟨hread⟩
  show Finish ((KV.emit _ _).emit p) ((KV.finish _ _ _).emit p)
  rw [emit_emit, ← finish_emit]
  exact .mk hread

/-! ## The invariant -/

def Called (K : KV n) (o : Operation n) : Prop :=
  (K.ops o.rank)[o.object]? = some (o.op, o.key)

def InFlight (K : KV n) (c : Client n) (o : Operation n) : Prop :=
  o.rank = c.1 ∧ K.waits c = some o.object ∧ K.Called o

def Logged (K : KV n) (o : Operation n) : Prop := o ∈ K.log.map Prod.fst

def Carries (K : KV n) : Packet n → Prop
  | .request c op key => ∃ o, K.InFlight c o ∧ ¬ K.Logged o ∧ o.op = op ∧ o.key = key
  | .reply c payload => ∃ o res, K.InFlight c o ∧ (o, res) ∈ K.log ∧ payload = res.payload

/-- The requests, replies and waiting readers of a client, for an operation on `key`. -/
def tokens (K : KV n) (c : Client n) (key : Key) : ℕ :=
  K.network.countP (fun p => p.client = c) +
    (K.waiting (place c.1 key)).countP (fun x => x.client = c)

def spec : Sequential (Option Value) (Operation n) Result := fun s o => register s o.op

def logOn (K : KV n) (key : Key) : List (Operation n × Result) :=
  K.log.filter fun e => e.1.key = key

/-- The invariant. Of every operation in flight there is exactly one token, or none if the
step being made holds it in its hands: then its client is the `hole`. -/
structure Inv (K : KV n) (hole : Option (Client n)) : Prop where
  ops_length : ∀ r, (K.ops r).length = (K.objects r).length
  waits_inj : ∀ c c' w, c.1 = c'.1 → K.waits c = some w → K.waits c' = some w → c = c'
  fresh : ∀ c w, K.waits c = some w → (K.objects c.1)[w]? = some Wait.fresh
  done : ∀ o x, K.Called o → (K.objects o.rank)[o.object]? = some x →
    (∃ id, K.waits (o.rank, id) = some o.object) ∨
      x.futex = true ∧ x.error = false ∧ (o, o.op.result (x.b, x.data)) ∈ K.log
  packets : ∀ p ∈ K.network, K.Carries p
  readers : ∀ p, ∀ x ∈ K.waiting p, p = place x.client.1 p.2 ∧
    ∃ o, K.InFlight x.client o ∧ ¬ K.Logged o ∧ o.op = x.kind.op ∧ o.key = p.2
  once : ∀ c o, K.InFlight c o → K.tokens c o.key = if hole = some c then 0 else 1
  called : ∀ e ∈ K.log, K.Called e.1
  nodup : (K.log.map Prod.fst).Nodup
  legal : ∀ r key, spec.Legal none (K.logOn key) (K.store (place r key))

variable {c : Client n} {o : Operation n} {res : Result} {hole : Option (Client n)}
  {p : Fin n × Key}

section

variable (h : K.InFlight c o)

include h

theorem InFlight.rank : o.rank = c.1 := h.1

theorem InFlight.object : K.waits c = some o.object := h.2.1

theorem InFlight.called : K.Called o := h.2.2

theorem InFlight.eq {o' : Operation n} (h' : K.InFlight c o') : o' = o := by
  have hobj : o'.object = o.object := some.inj (h'.object.symm.trans h.object)
  have hrank : o'.rank = o.rank := h'.rank.trans h.rank.symm
  have hcall := h'.called
  rw [Called, hobj, hrank, h.called] at hcall
  cases o
  cases o'
  simp_all

theorem InFlight.operation_eq : K.operation c o.op o.key = o := by
  simp only [operation, h.object, getD_some, ← h.rank]

end

theorem Carries.inFlight {p : Packet n} (h : K.Carries p) : ∃ o, K.InFlight p.client o := by
  cases p with
  | request c op key => exact ⟨h.choose, h.choose_spec.1⟩
  | reply c payload =>
    obtain ⟨o, res, ho, -⟩ := h
    exact ⟨o, ho⟩

theorem tokens_emit (p : Packet n) (key : Key) :
    (K.emit p).tokens c key = K.tokens c key + if p.client = c then 1 else 0 := by
  simp only [tokens, emit, Multiset.countP_cons]
  omega

namespace Inv

theorem tokens_eq_one (h : K.Inv none) (ho : K.InFlight c o) : K.tokens c o.key = 1 := by
  simpa using h.once c o ho

theorem tokens_of_hole {hole : Client n} (h : K.Inv (some hole)) (ho : K.InFlight c o) :
    K.tokens c o.key = if hole = c then 0 else 1 := by
  simpa using h.once c o ho

theorem take {p : Packet n} (h : (K.emit p).Inv none) : K.Inv (some p.client) := by
  refine { h with packets := fun q hq => h.packets q (Multiset.mem_cons_of_mem hq), once := ?_ }
  intro c o ho
  have htokens : (K.emit p).tokens c o.key = 1 := h.tokens_eq_one ho
  rw [tokens_emit] at htokens
  simp only [some.injEq]
  split_ifs at htokens ⊢ <;> omega

/-- Put a message on the network. -/
theorem emit {p : Packet n} (h : K.Inv (some p.client)) (hp : K.Carries p) :
    (K.emit p).Inv none := by
  refine { h with packets := ?_, once := ?_ }
  · intro q hq
    rcases Multiset.mem_cons.mp hq with rfl | hq
    · exact hp
    · exact h.packets q hq
  · intro c o ho
    have htokens : K.tokens c o.key = if p.client = c then 0 else 1 := h.tokens_of_hole ho
    rw [tokens_emit, htokens]
    by_cases hc : p.client = c <;> simp [hc]

theorem hole_network (h : K.Inv (some c)) (ho : K.InFlight c o) :
    (∀ p ∈ K.network, p.client ≠ c) ∧ ∀ p, ∀ x ∈ K.waiting p, x.client ≠ c := by
  have htokens := h.tokens_of_hole ho
  rw [if_pos rfl, tokens, Nat.add_eq_zero_iff] at htokens
  refine ⟨by simpa [Multiset.countP_eq_zero] using htokens.1, ?_⟩
  rintro p x hx rfl
  obtain ⟨hp, o', ho', -, -, hkey⟩ := h.readers p x hx
  obtain rfl := ho.eq ho'
  have hwait := htokens.2
  rw [hkey, ← hp, countP_eq_zero] at hwait
  simpa using hwait x hx

theorem takeReader {x : Reader n} {rest : List (Reader n)}
    (h : K.Inv none) (hw : K.waiting p = x :: rest) :
    (K.setWaiting p rest).Inv (some x.client) := by
  have hsub : ∀ q, ∀ y ∈ (K.setWaiting p rest).waiting q, y ∈ K.waiting q := by
    intro q y hy
    rcases eq_or_ne q p with rfl | hq
    · rw [hw]
      exact mem_cons_of_mem x (by simpa [setWaiting] using hy)
    · simpa [setWaiting, update_of_ne hq] using hy
  refine { h with readers := fun q y hy => h.readers q y (hsub q y hy), once := ?_ }
  intro c o ho
  have htokens : K.tokens c o.key = 1 := h.tokens_eq_one ho
  obtain ⟨hp, o', ho', -, -, hkey⟩ := h.readers p x (by simp [hw])
  simp only [tokens, some.injEq] at htokens ⊢
  by_cases hc : x.client = c
  · subst hc
    obtain rfl := InFlight.eq ho ho'
    rw [hkey, ← hp] at htokens ⊢
    rw [hw, countP_cons_of_pos (by simp)] at htokens
    simp only [setWaiting, update_self, if_true]
    omega
  · rw [if_neg hc]
    rcases eq_or_ne (place c.1 o.key) p with hq | hq
    · rw [hq, hw, countP_cons_of_neg (by simpa using hc)] at htokens
      simpa [hq, setWaiting] using htokens
    · simpa [setWaiting, update_of_ne hq] using htokens

/-- A reader is put at the end of the list of waiting readers. -/
theorem block {kind : ReadKind} (h : K.Inv (some c)) (ho : K.InFlight c o)
    (hlog : ¬ K.Logged o) (hop : o.op = kind.op) :
    (K.setWaiting (place c.1 o.key) (K.waiting (place c.1 o.key) ++ [⟨kind, c⟩])).Inv none := by
  refine { h with readers := ?_, once := ?_ }
  · intro q y hy
    rcases eq_or_ne q (place c.1 o.key) with rfl | hq
    · simp only [setWaiting, update_self, mem_append, mem_singleton] at hy
      rcases hy with hy | rfl
      · exact h.readers _ y hy
      · exact ⟨rfl, o, ho, hlog, hop, rfl⟩
    · exact h.readers q y (by simpa [setWaiting, update_of_ne hq] using hy)
  · intro c' o' ho'
    have htokens : K.tokens c' o'.key = if c = c' then 0 else 1 := h.tokens_of_hole ho'
    simp only [tokens, setWaiting] at htokens ⊢
    by_cases hc : c = c'
    · subst hc
      obtain rfl := InFlight.eq ho ho'
      simp_all
    · rw [if_neg hc] at htokens
      rcases eq_or_ne (place c'.1 o'.key) (place c.1 o.key) with hq | hq
      · rw [hq] at htokens ⊢
        simpa [countP_append, hc] using htokens
      · simpa [update_of_ne hq] using htokens

theorem client_eq (h : K.Inv hole) {c' : Client n}
    (ho : K.InFlight c o) (ho' : K.InFlight c' o) : c = c' :=
  h.waits_inj c c' o.object (ho.rank.symm.trans ho'.rank) ho.object ho'.object

/-- The operation of the hole takes effect. -/
theorem commit {s : Option Value} (h : K.Inv (some c)) (ho : K.InFlight c o)
    (hlog : ¬ K.Logged o) (hres : register (K.store (place c.1 o.key)) o.op = some (res, s)) :
    (K.commit c o.op o.key res s).Inv (some c) := by
  obtain ⟨hnet, hwait⟩ := h.hole_network ho
  have hK : K.commit c o.op o.key res s =
      { K with
        store := update K.store (place c.1 o.key) s
        log := K.log ++ [(o, res)] } := by
    rw [KV.commit, ho.operation_eq]
  rw [hK]
  have hlogged : ∀ o', ({ K with
      store := update K.store (place c.1 o.key) s
      log := K.log ++ [(o, res)] } : KV n).Logged o' ↔ K.Logged o' ∨ o' = o := by
    intro o'
    simp [Logged]
  -- what is on its way for the others is about other operations
  have hne : ∀ {c' o'}, c' ≠ c → K.InFlight c' o' → o' ≠ o := by
    rintro c' o' hc ho' rfl
    exact hc (h.client_eq ho' ho)
  refine { h with done := ?_, packets := ?_, readers := ?_, called := ?_, nodup := ?_, legal := ?_ }
  · intro o' x hcall hx
    rcases h.done o' x hcall hx with hw | ⟨hf, he, hmem⟩
    · exact .inl hw
    · exact .inr ⟨hf, he, mem_append_left _ hmem⟩
  · intro p hp
    have hpc := hnet p hp
    have hcar := h.packets p hp
    cases p with
    | request c' op key =>
      obtain ⟨o', ho', hn, hop, hkey⟩ := hcar
      refine ⟨o', ho', ?_, hop, hkey⟩
      rw [hlogged]
      exact not_or.mpr ⟨hn, hne hpc ho'⟩
    | reply c' payload =>
      obtain ⟨o', res', ho', hmem, hpay⟩ := hcar
      exact ⟨o', res', ho', mem_append_left _ hmem, hpay⟩
  · intro p x hx
    obtain ⟨hp, o', ho', hn, hop, hkey⟩ := h.readers p x hx
    refine ⟨hp, o', ho', ?_, hop, hkey⟩
    rw [hlogged]
    exact not_or.mpr ⟨hn, hne (hwait p x hx) ho'⟩
  · intro e he
    rcases mem_append.mp he with he | he
    · exact h.called e he
    · obtain rfl := mem_singleton.mp he
      exact ho.called
  · rw [map_append]
    refine h.nodup.append (nodup_singleton _) ?_
    exact disjoint_singleton.mpr hlog
  · intro r key
    have hlegal := h.legal r key
    by_cases hkey : o.key = key
    · subst hkey
      have hplace : place r o.key = place c.1 o.key := rfl
      simp only [logOn, filter_append, hplace, update_self]
      rw [filter_singleton]
      simp only [decide_true, cond_true]
      exact hlegal.concat hres
    -- the log of another key stays as it is
    · have hplace : place r key ≠ place c.1 o.key := fun he => hkey (congrArg Prod.snd he).symm
      simpa [logOn, filter_append, hkey, update_of_ne hplace] using hlegal

theorem object_lt (h : K.Inv hole) {w : ℕ} (hw : K.waits c = some w) : w < (K.objects c.1).length :=
  (List.getElem?_eq_some_iff.mp (h.fresh c w hw)).1

end Inv

def next (K : KV n) (c : Client n) (op : Op) (key : Key) : Operation n :=
  ⟨c.1, (K.objects c.1).length, op, key⟩

section Enroll

variable {op : Op} {key : Key}

theorem objects_enroll (r : Fin n) :
    (K.enroll c op key).objects r =
      if r = c.1 then K.objects c.1 ++ [Wait.fresh] else K.objects r := by
  by_cases hr : r = c.1
  · subst hr
    simp [enroll]
  · simp [enroll, hr]

theorem ops_enroll (r : Fin n) :
    (K.enroll c op key).ops r = if r = c.1 then K.ops c.1 ++ [(op, key)] else K.ops r := by
  by_cases hr : r = c.1
  · subst hr
    simp [enroll]
  · simp [enroll, hr]

theorem waits_enroll (c' : Client n) :
    (K.enroll c op key).waits c' =
      if c' = c then some (K.objects c.1).length else K.waits c' := by
  by_cases hc : c' = c
  · subst hc
    simp [enroll]
  · simp [enroll, hc]

theorem called_enroll (hlen : (K.ops c.1).length = (K.objects c.1).length) :
    (K.enroll c op key).Called o ↔ K.Called o ∨ o = K.next c op key := by
  rw [Called, Called, ops_enroll]
  by_cases hr : o.rank = c.1
  · rw [if_pos hr, hr, List.getElem?_append, List.getElem?_singleton, hlen]
    split_ifs with hlt heq
    · refine ⟨.inl, fun h => h.resolve_right ?_⟩
      rintro rfl
      exact absurd hlt (lt_irrefl _)
    · have hobj : o.object = (K.objects c.1).length := by omega
      have hnone : (K.ops c.1)[o.object]? = none := by
        rw [List.getElem?_eq_none_iff]
        omega
      rw [hnone]
      cases o
      simp_all [next, eq_comm]
    · have hnone : (K.ops c.1)[o.object]? = none := by
        rw [List.getElem?_eq_none_iff]
        omega
      rw [hnone]
      refine ⟨nofun, ?_⟩
      rintro (h | rfl)
      · cases h
      · simp [next] at heq
  · rw [if_neg hr]
    refine ⟨.inl, fun h => h.resolve_right ?_⟩
    rintro rfl
    exact hr rfl

theorem inFlight_enroll (h : K.Inv hole) (hfree : K.waits c = none) (c' : Client n) :
    (K.enroll c op key).InFlight c' o ↔
      K.InFlight c' o ∨ c' = c ∧ o = K.next c op key := by
  rw [InFlight, InFlight, waits_enroll, called_enroll (h.ops_length c.1)]
  by_cases hc : c' = c
  · subst hc
    rw [if_pos rfl, hfree]
    constructor
    · rintro ⟨hrank, hobj, hcall⟩
      refine .inr ⟨rfl, hcall.resolve_left fun hold => ?_⟩
      rw [Called, hrank, ← some.inj hobj, List.getElem?_eq_none_iff.mpr (h.ops_length _).le] at hold
      cases hold
    · rintro (⟨-, hw, -⟩ | ⟨-, rfl⟩)
      · cases hw
      · exact ⟨rfl, rfl, .inr rfl⟩
  · rw [if_neg hc]
    constructor
    · rintro ⟨hrank, hobj, hcall⟩
      refine .inl ⟨hrank, hobj, hcall.resolve_right ?_⟩
      rintro rfl
      have hlt := h.object_lt hobj
      rw [← hrank] at hlt
      exact absurd hlt (lt_irrefl _)
    · rintro (⟨hrank, hobj, hcall⟩ | ⟨hc', -⟩)
      · exact ⟨hrank, hobj, .inl hcall⟩
      · exact absurd hc' hc

/-- A new operation is in nobody's hands but those of its client. -/
theorem Inv.enroll (h : K.Inv none) (hfree : K.waits c = none) (op : Op) (key : Key) :
    (K.enroll c op key).Inv (some c) := by
  have hflight : ∀ c' o, (K.enroll c op key).InFlight c' o ↔
      K.InFlight c' o ∨ c' = c ∧ o = K.next c op key := fun c' _ => inFlight_enroll h hfree c'
  have hcalled : ∀ o, (K.enroll c op key).Called o ↔ K.Called o ∨ o = K.next c op key :=
    fun _ => called_enroll (h.ops_length c.1)
  -- the client waited for nothing, so that whoever does is another one
  have hne : ∀ {c' w}, K.waits c' = some w → c' ≠ c := by
    rintro c' w hw rfl
    simp [hfree] at hw
  refine
    { ops_length := ?_, waits_inj := ?_, fresh := ?_, done := ?_, packets := ?_, readers := ?_,
      once := ?_, called := ?_, nodup := h.nodup, legal := h.legal }
  · intro r
    rw [ops_enroll, objects_enroll]
    split_ifs with hr
    · simp [h.ops_length]
    · exact h.ops_length r
  -- the new object is behind the last one, where no client waits
  · intro c₁ c₂ w hr h₁ h₂
    rw [waits_enroll] at h₁ h₂
    split_ifs at h₁ h₂ with hc₁ hc₂ hc₂
    · exact hc₁.trans hc₂.symm
    · have hlt := h.object_lt h₂
      rw [← hr, hc₁, ← some.inj h₁] at hlt
      exact absurd hlt (lt_irrefl _)
    · have hlt := h.object_lt h₁
      rw [hr, hc₂, ← some.inj h₂] at hlt
      exact absurd hlt (lt_irrefl _)
    · exact h.waits_inj c₁ c₂ w hr h₁ h₂
  · intro c' w hw
    rw [waits_enroll] at hw
    rw [objects_enroll]
    split_ifs at hw with hc
    · subst hc
      simp [← some.inj hw]
    · have hold := h.fresh c' w hw
      split_ifs with hr
      · rw [← hr, List.getElem?_append_left (h.object_lt hw)]
        exact hold
      · exact hold
  · intro o x ho hx
    rcases (hcalled o).mp ho with ho | rfl
    · have hlt : o.object < (K.objects o.rank).length := by
        rw [← h.ops_length]
        exact (List.getElem?_eq_some_iff.mp ho).1
      have hold : (K.objects o.rank)[o.object]? = some x := by
        rw [objects_enroll] at hx
        split_ifs at hx with hr
        · rwa [← hr, List.getElem?_append_left hlt] at hx
        · exact hx
      rcases h.done o x ho hold with ⟨id, hw⟩ | hfin
      · refine .inl ⟨id, ?_⟩
        rw [waits_enroll, if_neg (hne hw)]
        exact hw
      · exact .inr hfin
    · exact .inl ⟨c.2, (waits_enroll c).trans (if_pos rfl)⟩
  · intro p hp
    have hcar := h.packets p hp
    cases p with
    | request c' op' key' =>
      obtain ⟨o, ho, hrest⟩ := hcar
      exact ⟨o, (hflight c' o).mpr (.inl ho), hrest⟩
    | reply c' payload =>
      obtain ⟨o, res, ho, hrest⟩ := hcar
      exact ⟨o, res, (hflight c' o).mpr (.inl ho), hrest⟩
  · intro p x hx
    obtain ⟨hp, o, ho, hrest⟩ := h.readers p x hx
    exact ⟨hp, o, (hflight _ o).mpr (.inl ho), hrest⟩
  · intro c' o ho
    rcases (hflight c' o).mp ho with ho | ⟨rfl, rfl⟩
    · have := h.tokens_eq_one ho
      rw [if_neg fun he => hne ho.object (some.inj he).symm]
      exact this
    -- nothing on its way is for the client yet: it is in the hole
    · rw [if_pos rfl]
      refine Nat.add_eq_zero_iff.mpr ⟨?_, ?_⟩
      · rw [Multiset.countP_eq_zero]
        intro p hp
        obtain ⟨o, ho⟩ := (h.packets p hp).inFlight
        exact hne ho.object
      · rw [countP_eq_zero]
        intro x hx
        obtain ⟨-, o, ho, -⟩ := h.readers _ x hx
        simpa using hne ho.object
  · exact fun e he => (hcalled e.1).mpr (.inl (h.called e he))

end Enroll

/-- A client takes the result of its operation. -/
theorem Inv.finish (h : K.Inv (some c)) (ho : K.InFlight c o)
    (hlog : (o, res) ∈ K.log) : (K.finish c res.fields).Inv none := by
  obtain ⟨hnet, hwait⟩ := h.hole_network ho
  have hK : K.finish c res.fields =
      { K with
        waits := update K.waits c none
        objects := update K.objects c.1 ((K.objects c.1).modify o.object fun x =>
          { x with b := res.fields.1, data := res.fields.2, futex := true }) } := by
    simp only [KV.finish, ho.object]
  set K' := K.finish c res.fields with hK'
  have hwaits : ∀ {c' w}, K'.waits c' = some w ↔ K.waits c' = some w ∧ c' ≠ c := by
    intro c' w
    rcases eq_or_ne c' c with rfl | hc
    · simp [hK]
    · simp [hK, hc]
  have hflight : ∀ {c' o'}, K'.InFlight c' o' ↔ K.InFlight c' o' ∧ c' ≠ c := by
    intro c' o'
    rw [InFlight, InFlight, hwaits, hK]
    tauto
  have hobj : ∀ r w, (K'.objects r)[w]? =
      if r = c.1 ∧ w = o.object then
        some ⟨res.fields.1, res.fields.2, true, false, ""⟩ else (K.objects r)[w]? := by
    intro r w
    rw [hK]
    rcases eq_or_ne r c.1 with rfl | hr
    · have hfresh := h.fresh c o.object ho.object
      by_cases hw : w = o.object
      · subst hw
        simp [hfresh, Wait.fresh]
      · simp [hw, Ne.symm hw]
    · simp [hr]
  refine
    { ops_length := ?_, waits_inj := ?_, fresh := ?_, done := ?_, packets := ?_, readers := ?_,
      once := ?_, called := ?_, nodup := ?_, legal := ?_ }
  · intro r
    rw [hK]
    rcases eq_or_ne r c.1 with rfl | hr
    · simp [h.ops_length]
    · simp [update_of_ne hr, h.ops_length]
  · intro c₁ c₂ w hr h₁ h₂
    exact h.waits_inj c₁ c₂ w hr (hwaits.mp h₁).1 (hwaits.mp h₂).1
  · intro c' w hw
    obtain ⟨hw, hc⟩ := hwaits.mp hw
    rw [hobj, if_neg]
    · exact h.fresh c' w hw
    · rintro ⟨hr, rfl⟩
      exact hc (h.waits_inj c' c _ hr hw ho.object)
  · intro o' x hcall hx
    have hcall' : K.Called o' := by
      rw [hK] at hcall
      exact hcall
    rw [hobj] at hx
    split_ifs at hx with heq
    · obtain rfl : o' = o := by
        refine ho.eq ⟨heq.1, ?_, hcall'⟩
        rw [heq.2]
        exact ho.object
      -- a result that is in a legal log is one of the operation
      obtain ⟨s₁, s₂, hstep⟩ := (h.legal c.1 o'.key).exists_step (e := (o', res))
        (by simpa [logOn] using hlog)
      refine .inr ?_
      cases hx
      refine ⟨rfl, rfl, ?_⟩
      show (o', o'.op.result res.fields) ∈ K'.log
      rw [result_of_register hstep, hK]
      exact hlog
    · rcases h.done o' x hcall' hx with ⟨id, hw⟩ | hfin
      · refine .inl ⟨id, hwaits.mpr ⟨hw, ?_⟩⟩
        rintro rfl
        exact heq ⟨rfl, some.inj (hw.symm.trans ho.object)⟩
      · rw [hK]
        exact .inr hfin
  · intro p hp
    rw [hK] at hp
    have hcar := h.packets p hp
    have hpc := hnet p hp
    cases p with
    | request c' op' key' =>
      obtain ⟨o', ho', hn, hrest⟩ := hcar
      exact ⟨o', hflight.mpr ⟨ho', hpc⟩, by rw [hK]; exact hn, hrest⟩
    | reply c' payload =>
      obtain ⟨o', res', ho', hmem, hrest⟩ := hcar
      exact ⟨o', res', hflight.mpr ⟨ho', hpc⟩, by rw [hK]; exact hmem, hrest⟩
  · intro p x hx
    rw [hK] at hx
    obtain ⟨hp, o', ho', hn, hrest⟩ := h.readers p x hx
    exact ⟨hp, o', hflight.mpr ⟨ho', hwait p x hx⟩, by rw [hK]; exact hn, hrest⟩
  · intro c' o' ho'
    obtain ⟨ho', hc⟩ := hflight.mp ho'
    have htokens := h.tokens_of_hole ho'
    rw [if_neg (Ne.symm hc)] at htokens
    rw [hK]
    simpa [tokens] using htokens
  · rw [hK]
    exact h.called
  · rw [hK]
    exact h.nodup
  · rw [hK]
    exact h.legal

/-- Every step of the protocol keeps the invariant. -/
theorem Inv.step (h : K.Inv none) (hstep : Step K K') : K'.Inv none := by
  cases hstep with
  | @invoke _ c op key hfree =>
    have hflight : (K.enroll c op key).InFlight c (K.next c op key) :=
      (inFlight_enroll h hfree c).mpr (.inr ⟨rfl, rfl⟩)
    refine (h.enroll hfree op key).emit (p := .request c op key) ⟨_, hflight, ?_, rfl, rfl⟩
    intro hmem
    obtain ⟨e, he, heq⟩ := mem_map.mp hmem
    have hcall := h.called e he
    rw [heq, Called, next, List.getElem?_eq_none_iff.mpr (h.ops_length c.1).le] at hcall
    cases hcall
  | @commit K₀ c op key res s hres =>
    -- the request leaves the network, takes effect, and the reply takes its place
    obtain ⟨o, ho, hn, rfl, rfl⟩ := h.packets _ (Multiset.mem_cons_self _ _)
    have hcommit := h.take.commit (o := o) ho hn hres
    have hoper : K₀.operation c o.op o.key = o := InFlight.operation_eq ho
    refine hcommit.emit (p := .reply c res.payload) ⟨o, res, ho, ?_, rfl⟩
    show (o, res) ∈ K₀.log ++ [(K₀.operation c o.op o.key, res)]
    simp [hoper]
  | @block K₀ c kind key =>
    obtain ⟨o, ho, hn, hop, rfl⟩ := h.packets _ (Multiset.mem_cons_self _ _)
    exact h.take.block (o := o) ho hn hop
  | @wake _ p x rest v hw hs =>
    obtain ⟨hp, o, ho, hn, hop, hkey⟩ := h.readers p x (by simp [hw])
    have hstore : register ((K.setWaiting p rest).store (place x.client.1 o.key)) o.op =
        some (x.kind.result v, some v) := by
      rw [hkey, ← hp, hop]
      show register (K.store p) _ = _
      rw [hs]
      exact register_read x.kind v
    have hcommit := (h.takeReader hw).commit (o := o) ho hn hstore
    rw [hop, hkey] at hcommit
    refine hcommit.emit (p := .reply x.client _) ⟨o, x.kind.result v, ho, ?_, rfl⟩
    have hoper : (K.setWaiting p rest).operation x.client x.kind.op p.2 = o := by
      rw [← hop, ← hkey]
      exact InFlight.operation_eq ho
    simp [KV.commit, hoper]
  | finish hfin =>
    obtain ⟨hread⟩ := hfin
    obtain ⟨o, res, ho, hmem, rfl⟩ := h.packets _ (Multiset.mem_cons_self _ _)
    rw [res.readDone_payload] at hread
    cases hread
    exact h.take.finish (o := o) ho hmem

theorem Inv.reach (h : K.Inv none) (hreach : Reach K K') : K'.Inv none := by
  induction hreach with
  | refl => exact h
  | tail _ hstep ih => exact ih.step hstep

def packetsOf (K : KV n) (c : Client n) : Multiset (Packet n) :=
  K.network.filter fun p => p.client = c

theorem Inv.packetsOf_idle (h : K.Inv none) (hc : K.waits c = none) : K.packetsOf c = 0 := by
  rw [packetsOf, Multiset.filter_eq_nil]
  rintro p hp rfl
  obtain ⟨o, ho⟩ := (h.packets p hp).inFlight
  exact absurd (hc.symm.trans ho.object) nofun

theorem Inv.card_packetsOf (h : K.Inv none) (c : Client n) : (K.packetsOf c).card ≤ 1 := by
  by_cases hc : ∃ p ∈ K.network, p.client = c
  · obtain ⟨p, hp, rfl⟩ := hc
    obtain ⟨o, ho⟩ := (h.packets p hp).inFlight
    have htokens := h.tokens_eq_one ho
    rw [tokens, Multiset.countP_eq_card_filter] at htokens
    rw [packetsOf]
    omega
  · push Not at hc
    rw [packetsOf, Multiset.filter_eq_nil.mpr hc]
    simp

theorem Inv.packetsOf_reader (h : K.Inv none) {x : Reader n}
    (hx : x ∈ K.waiting p) : (K.waiting p).count x = 1 ∧ K.packetsOf x.client = 0 := by
  obtain ⟨hp, o, ho, -, -, hkey⟩ := h.readers p x hx
  have htokens := h.tokens_eq_one ho
  rw [tokens, hkey, ← hp, Multiset.countP_eq_card_filter] at htokens
  have hcount : (K.waiting p).count x ≤ (K.waiting p).countP (fun y => y.client = x.client) := by
    rw [List.count]
    refine countP_mono_left fun y _ hy => ?_
    rw [eq_of_beq hy]
    simp
  have hpos : 0 < (K.waiting p).count x := count_pos_iff.mpr hx
  refine ⟨by omega, Multiset.card_eq_zero.mp ?_⟩
  rw [packetsOf]
  omega

/-- An operation in flight that has taken effect has one message: its reply. -/
theorem Inv.packetsOf_logged (h : K.Inv none) (ho : K.InFlight c o)
    (hlog : (o, res) ∈ K.log) : K.packetsOf c = {.reply c res.payload} := by
  have hlogged : K.Logged o := mem_map.mpr ⟨_, hlog, rfl⟩
  have hnoreader : (K.waiting (place c.1 o.key)).countP (fun x => x.client = c) = 0 := by
    rw [countP_eq_zero]
    intro x hx hc
    obtain rfl := of_decide_eq_true hc
    obtain ⟨-, o', ho', hn, -⟩ := h.readers _ x hx
    exact hn (ho.eq ho' ▸ hlogged)
  have htokens := h.tokens_eq_one ho
  rw [tokens, hnoreader, Multiset.countP_eq_card_filter, add_zero, Multiset.card_eq_one] at htokens
  obtain ⟨p, hp⟩ := htokens
  have hmem : p ∈ K.network.filter fun q => q.client = c := by
    rw [hp]
    exact Multiset.mem_singleton_self p
  obtain ⟨hnet, rfl⟩ := Multiset.mem_filter.mp hmem
  rw [packetsOf, hp]
  have hcar := h.packets p hnet
  cases p with
  | request c' op key =>
    obtain ⟨o', ho', hn, -⟩ := hcar
    exact absurd (ho.eq ho' ▸ hlogged) hn
  | reply c' payload =>
    obtain ⟨o', res', ho', hlog', rfl⟩ := hcar
    obtain rfl := ho.eq ho'
    have hres : (o', res') = (o', res) := inj_on_of_nodup_map h.nodup hlog' hlog rfl
    rw [(Prod.mk.inj hres).2]
    rfl

/-- Operations that have taken effect stay in the log. -/
theorem Step.log_prefix (h : Step K K') : K.log <+: K'.log := by
  cases h with
  | invoke | block => exact prefix_rfl
  | commit | wake => exact prefix_append _ _
  | finish hfin =>
    obtain ⟨hread⟩ := hfin
    simp only [KV.finish, KV.emit]
    split <;> exact prefix_rfl

theorem Reach.log_prefix (h : Reach K K') : K.log <+: K'.log := by
  induction h with
  | refl => exact prefix_rfl
  | tail _ hstep ih => exact ih.trans hstep.log_prefix

/-! ## Waking all readers -/

def emits (K : KV n) (ps : List (Packet n)) : KV n := { K with network := ps + K.network }

@[simp] theorem emits_nil : K.emits [] = K := by
  simp [emits]

@[simp] theorem emits_singleton (p : Packet n) : K.emits [p] = K.emit p := by
  simp [emits, emit]

theorem emits_cons (p : Packet n) (ps : List (Packet n)) :
    K.emits (p :: ps) = (K.emit p).emits ps := by
  simp only [emits, emit, ← Multiset.cons_coe, Multiset.cons_add, Multiset.add_cons]

theorem emits_append (ps ps' : List (Packet n)) : K.emits (ps ++ ps') = (K.emits ps).emits ps' := by
  simp only [emits, ← Multiset.coe_add]
  rw [add_comm (ps : Multiset (Packet n)), add_assoc]

theorem Finishes.emits (h : Finishes K K') (ps : List (Packet n)) :
    Finishes (K.emits ps) (K'.emits ps) := by
  induction ps generalizing K K' with
  | nil => simpa using h
  | cons p ps ih =>
    rw [emits_cons, emits_cons]
    exact ih (h.emit p)

/-- All readers that wait at `p` are answered. -/
def wakeAll (K : KV n) (p : Fin n × Key) (v : Value) (readers : List (Reader n)) : KV n :=
  { K with
    waiting := update K.waiting p []
    log := K.log ++ readers.map fun x : Reader n =>
      (K.operation x.client x.kind.op p.2, x.kind.result v)
    network := (readers.map fun x => x.reply v) + K.network }

theorem wakeAll_reach {v : Value} {readers : List (Reader n)}
    (hw : K.waiting p = readers) (hs : K.store p = some v)
    (hp : ∀ x ∈ readers, p = place x.client.1 p.2) : Reach K (K.wakeAll p v readers) := by
  induction readers generalizing K with
  | nil =>
    have hK : K.wakeAll p v [] = K := by
      ext1 <;> simp [wakeAll, ← hw]
    rw [hK]
  | cons x readers ih =>
    set K₁ := ((K.setWaiting p readers).commit x.client x.kind.op p.2 (x.kind.result v)
      (some v)).emit (.reply x.client (x.kind.result v).payload) with hK₁
    have hplace : place x.client.1 p.2 = p := (hp x (by simp)).symm
    have hstep : Step K K₁ := .wake hw hs
    have hw₁ : K₁.waiting p = readers := by
      simp [hK₁, emit, commit, setWaiting]
    have hs₁ : K₁.store p = some v := by
      simp [hK₁, emit, commit, hplace]
    have hall : K₁.wakeAll p v readers = K.wakeAll p v (x :: readers) := by
      ext1
      · rfl
      · rfl
      · rfl
      · simp [wakeAll, hK₁, emit, commit, setWaiting, Reader.reply, ← Multiset.cons_coe]
      · simp [wakeAll, hK₁, emit, commit, setWaiting, hplace, ← hs]
      · simp [wakeAll, hK₁, emit, commit, setWaiting]
      · simp [wakeAll, hK₁, emit, commit, setWaiting, operation]
    rw [← hall]
    exact .head hstep (ih hw₁ hs₁ fun y hy => hp y (by simp [hy]))

end KV

end Store
