import Moodist.Broadcast.Order

/-!
# Broadcasts deliver the tensor of the source
-/

namespace Broadcast

open Foundation CpuThread Option

variable {size : ℕ}

/-! ## The values in the slots -/

/-- The step values are increasing. -/
structure Issued (S : Setup size) : Prop where
  isStepValue : ∀ k < S.length, IsStepValue (S.stepValue k)
  increasing : ∀ k k', k < k' → k' < S.length → (S.stepValue k).toNat < (S.stepValue k').toNat

section Values

variable {S : Setup size} {a b e : Event S} {cell : SetupCell S} {m : Memory S}
  {junk : SetupCell S → UInt8} {i : Fin size}

theorem Issued.toIncreasing (hI : Issued S) : Increasing S.length S.stepValue :=
  ⟨hI.isStepValue, hI.increasing⟩

theorem stepPhase_of_waitProxy (hs : e.stmt = .waitProxy) : stepPhase S e = 0 := by
  simp [stepPhase, hs]

theorem stepPhase_of_waitPeer (hs : e.stmt = .waitPeer i) : stepPhase S e = 1 := by
  simp [stepPhase, hs]

/-- With what an earlier turn has left in the slot, a rank still waits. -/
theorem early (hI : Increasing S.length S.stepValue) (hb : waits b = some cell)
    (h : m cell = initial S junk cell ∨ ∃ a : Event S, target a = some cell ∧
      turn S a cell < turn S b cell ∧ m cell = content S cell (turn S a cell)) : ¬ pass b m := by
  intro hpass
  have hlength : b.op < S.length := b.op_lt
  obtain ⟨hs, rfl⟩ | ⟨di, c, hs, hwait, rfl⟩ | ⟨p, hs, hp, rfl⟩ | ⟨i, hs, rfl⟩ := waits_cases hb <;>
    simp only [pass, hs] at hpass
  · refine hI.not_le_of_earlier hlength (h.imp (congrArg DynamicAddresses.stepValue) ?_)
      (UInt32.le_of_eq hpass.symm)
    rintro ⟨a, ha, hturn, hcontent⟩
    simp only [turn] at hturn
    rw [hcontent, content, turn_div]
    exact ⟨a.op, by omega, rfl⟩
  · refine hI.not_le_of_earlier hlength (h.imp_right exists_earlier)
      (UInt32.le_of_eq (hpass hwait).symm)
  · have hle := hpass p hp
    rw [← published_zero S.stepValue b.op] at hle
    refine hI.not_published_le (by omega) (h.imp_right ?_) hle
    rintro ⟨a, ha, hturn, hcontent⟩
    rw [turn, turn, stepPhase_of_waitProxy hs] at hturn
    exact ⟨_, hturn, hcontent⟩
  · rw [← published_one S.stepValue b.op] at hpass
    refine hI.not_published_le (by omega) (h.imp_right ?_) hpass
    rintro ⟨a, ha, hturn, hcontent⟩
    rw [turn, turn, stepPhase_of_waitPeer hs] at hturn
    exact ⟨_, hturn, hcontent⟩

variable (h : (graph S).Reads (turns S) e m)

include h

theorem content_of_reads (hc : cell ∈ (graph S).reads e)
    (hlatest : latest S e cell = turn S e cell) : m cell = content S cell (turn S e cell) :=
  h.content hc hlatest

theorem content_inDyn
    (hc : .inDyn e.rank i ∈ (graph S).reads e) : m (.inDyn e.rank i) = S.dyn e.op := by
  refine (content_of_reads h hc rfl).trans ?_
  rw [content, turn_div]

theorem published_le_of_reads (hI : Increasing S.length S.stepValue)
    (hc : .peerStepValue i ∈ (graph S).reads e) :
    published S.stepValue (2 * e.op + stepPhase S e) ≤ m (.peerStepValue i) := by
  obtain ⟨t, hle, hge, hm⟩ := h (.peerStepValue i) hc
  have hge' : t ≤ latest S e (.peerStepValue i) := hge
  have ht : t / 2 < S.length := by
    have hlength : e.op < S.length := e.op_lt
    simp only [latest] at hge'
    split at hge' <;> omega
  exact le_of_le_of_eq (hI.published_le hle ht) hm.symm

omit h

/-- With what it may read, a statement goes on. -/
theorem pass_content (hI : Increasing S.length S.stepValue) (h : (graph S).Reads (turns S) e m) :
    pass e m := by
  unfold pass
  split
  next hs =>
    rw [content_inDyn h (.inl (by simp only [waits, hs]))]
    rfl
  next di c hs =>
    intro hwait
    refine (content_of_reads h (.inl (waits_visit hs hwait)) rfl).trans ?_
    rw [content, turn_div]
  next hs =>
    intro p hp
    have hwaits : waits e = some (.peerStepValue p) := by simp only [waits, hs, hp, map_some]
    have hpublished := published_le_of_reads h hI (.inl hwaits)
    rwa [stepPhase_of_waitProxy hs, published_zero] at hpublished
  next i hs =>
    have hwaits : waits e = some (.peerStepValue i) := by simp only [waits, hs]
    have hpublished := published_le_of_reads h hI (.inl hwaits)
    rwa [stepPhase_of_waitPeer hs, published_one] at hpublished
  next => trivial

include h

theorem content_tensor_of_reads {p : Fin size}
    {j : Fin S.capacity} (hc : .tensor p j ∈ (graph S).reads e)
    (hphase : tensorPhase S e p = if p = S.source e.op then 0 else 1) :
    m (.tensor p j) = S.input e.op (S.source e.op) j := by
  obtain ⟨t, hle, hge, hm⟩ := h (.tensor p j) hc
  have hle' : 2 * e.op + tensorPhase S e p ≤ t := hle
  have hlatest : latest S e (.tensor p j) ≤ 2 * e.op + 1 := by
    simp only [latest]
    split <;> omega
  have hge' : t ≤ 2 * e.op + 1 := hge.trans hlatest
  have ht : t / 2 = e.op := by omega
  refine hm.trans ?_
  change S.input (t / 2) (if t % 2 = 0 then p else S.source (t / 2)) j = _
  rw [ht]
  by_cases hp : p = S.source e.op
  · rw [hp, ite_self]
  · rw [hphase, if_neg hp] at hle'
    rw [if_neg (by omega)]

theorem value_content (ht : target e = some cell) :
    value e m cell = content S cell (turn S e cell) := by
  have hhas := e.has
  cases cell with
  | outStepValue q | outDyn q | addresses q => rw [value, content, turn_div]
  | inDyn q r | inStepValue q s di c =>
    obtain ⟨hs, -, -⟩ := writes_of_target ht
    refine (content_of_reads h (.inr ?_) rfl).trans ?_
    · simp only [takes, hs]
      rfl
    · rw [content, content, turn_div, turn_div]
  | peerStepValue q =>
    obtain ⟨-, v, hs⟩ := writes_of_target ht
    have hmod : (2 * e.op + stepPhase S e) % 2 = v := by
      simp only [stepPhase, hs]
      omega
    simp only [value, hs]
    rw [content, turn_div]
    simp only [turn, hmod]
    rfl
  | temporary q j =>
    refine Eq.trans ?_ (congrArg (fun k => S.input k (S.source k) j) (turn_div e _).symm)
    obtain ⟨hs, -⟩ | ⟨di, c, hs, -⟩ := writes_of_target ht <;> simp only [value, byte, hs]
    · rw [hs] at hhas
      refine (content_of_reads h (.inr ?_) ?_).trans ?_
      · simp only [takes, hs]
        rfl
      · simp [latest, turn, tensorPhase, hs]
      · have hturn : turn S e (.tensor e.rank j) = 2 * e.op := by simp [turn, tensorPhase, hs]
        rw [content, turn_div, hturn, if_pos (by omega), hhas.1]
    · refine (content_of_reads h (.inr ?_) rfl).trans ?_
      · simp only [takes, hs]
        rfl
      · rw [content, turn_div]
  | tensor q j =>
    obtain ⟨hrank, hs⟩ := target_tensor ht
    have hturn : turn S e (.tensor q j) % 2 = tensorPhase S e q := by
      have hle := tensorPhase_le e q
      simp only [turn]
      omega
    rw [content, turn_div, hturn]
    obtain ⟨hs, hphase⟩ | ⟨di, c, hs, -, -, hphase⟩ | ⟨hs, ⟨p, hp⟩, hphase⟩ := hs <;>
      simp only [value, byte, hs]
    · rw [hphase, if_pos rfl, hrank]
    · rw [hphase, if_neg one_ne_zero]
      refine (content_of_reads h (.inr ?_) rfl).trans ?_
      · simp only [takes, hs]
        rfl
      · rw [content, turn_div]
    · rw [hphase, if_neg one_ne_zero, hp, getD_some]
      refine content_tensor_of_reads h (.inr ?_) ?_
      · simp only [takes, hs]
        exact ⟨p, hp, .inr rfl⟩
      · simp only [tensorPhase, hs]

end Values

/-! ## All runs -/

section Runs

variable {S : Setup size} {junk : SetupCell S → UInt8}

theorem line_lt_of_waits {a b : Event S} {cell : SetupCell S} (hb : waits b = some cell)
    (ha : target a = some cell) (hturn : turn S a cell = turn S b cell) :
    line S a.op a.rank a.stmt < line S b.op b.rank b.stmt := by
  have hop := op_eq_of_turn hturn
  have hhas := a.has
  rw [hop] at hhas ⊢
  obtain ⟨hs, rfl⟩ | ⟨di, c, hs, -, rfl⟩ | ⟨p, hs, -, rfl⟩ | ⟨i, hs, rfl⟩ := waits_cases hb
  · rw [hs, (writes_of_target ha).1]
    exact line_lt_of_stage S (by decide : 6 < 7)
  · obtain ⟨hs', hsend, -⟩ := writes_of_target ha
    rw [hs'] at hhas
    rw [hop] at hsend
    have hrecv := S.recvFrom_sendTo hhas.1
    rw [hsend] at hrecv
    have hne : S.recvFrom b.op b.rank ≠ b.rank := by
      rw [hrecv, ← hsend]
      exact hhas.1.symm
    have hposition := S.ring.position_lt hne
    change S.ring.position (S.source b.op) (S.recvFrom b.op b.rank) < _ at hposition
    rw [hrecv] at hposition
    rw [hs, hs']
    simp [line, Prod.Lex.toLex_lt_toLex, hposition]
  · obtain ⟨-, v, hs'⟩ := writes_of_target ha
    obtain rfl : v = 0 := by
      simp only [turn, stepPhase, hs, hs', hop] at hturn
      exact Fin.ext (by omega)
    rw [hs, hs']
    exact line_lt_of_stage S (by decide : 9 < 10)
  · obtain ⟨-, v, hs'⟩ := writes_of_target ha
    rw [hs, hs']
    refine line_lt_of_stage S ?_
    simp only [Stmt.stage]
    split_ifs <;> decide

theorem turn_le_latest (e : Event S) (cell : SetupCell S) : turn S e cell ≤ latest S e cell := by
  have hlength : e.op < S.length := e.op_lt
  cases cell with
  | tensor q j =>
    have hphase := tensorPhase_le e q
    simp only [turn, latest]
    split
    next hs => simp [tensorPhase, hs]
    next => omega
  | peerStepValue q =>
    have hphase := stepPhase_le e
    simp only [turn, latest]
    split <;> omega
  | _ => exact le_rfl

theorem lawful (hI : Issued S) (hbytes : ∀ k < S.length, 0 < S.bytes k) :
    (graph S).Lawful (turns S) (initial S junk) where
  ready_before hready hbefore := hready _ hbefore
  ready_of_label h a hbefore := h a (Works.label_lt (line S) (Order.line_lt S) hbefore)
  label_lt h := by
    cases h with
    | before hbefore => exact Works.label_lt (line S) (Order.line_lt S) hbefore
    | wait hb ha hturn =>
      exact Works.label_lt_of_line (line S) (op_eq_of_turn hturn) (line_lt_of_waits hb ha hturn)
  writer_unique := writer_unique
  write_hb := write_hb
  read_after h := .inl (read_after hbytes h)
  turn_le_latest _ := turn_le_latest _ _
  read_before := read_before hbytes
  waits_reads h := .inl h
  pass_content := pass_content hI.toIncreasing
  value_content := value_content
  early := early hI.toIncreasing

/-- The checks hold, a rank that is done has the tensor of the source, nothing outside a tensor or a
buffer is written, and when nothing more can happen all ranks are done. -/
structure Delivers (S : Setup size) (w : EventGraph.State (Event S) (CellVal S)) : Prop where
  checks : ∀ e, (graph S).Enabled w e → check e w.memory
  tensor : ∀ e, (graph S).Enabled w e → e.stmt = .done → ∀ j : Fin S.capacity,
    (j : ℕ) < S.bytes e.op → w.memory (.tensor e.rank j) = S.input e.op (S.source e.op) j
  bounds : ∀ (e : Event S) r (j : Fin S.capacity),
    target e = some (.tensor r j) ∨ target e = some (.temporary r j) → (j : ℕ) < S.bytes e.op
  completes : (¬ ∃ e, (graph S).Enabled w e) → ∀ k < S.length, ∀ r,
    ∃ e ∈ w.done, e.op = k ∧ e.rank = r ∧ e.stmt = .done

variable {e : Event S} {j : Fin S.capacity} {r : Fin size}

theorem target_tensor_lt (h : target e = some (.tensor r j)) :
    (j : ℕ) < S.bytes e.op := by
  have hhas := e.has
  obtain ⟨-, ⟨hs, -⟩ | ⟨di, c, hs, -, hbyte, -⟩ | ⟨hs, -⟩⟩ := target_tensor h
  · rw [hs] at hhas
    exact hhas
  · exact hbyte.2.lt_bytes di.isLt
  · rw [hs] at hhas
    exact hhas.2

theorem target_temporary_lt (h : target e = some (.temporary r j)) : (j : ℕ) < S.bytes e.op := by
  have hhas := e.has
  obtain ⟨hs, -⟩ | ⟨di, c, hs, -⟩ := writes_of_target h <;> rw [hs] at hhas
  · exact hhas.2
  · exact hhas.2.2.lt_bytes di.isLt

theorem check_of_reads {m : Memory S} (h : (graph S).Reads (turns S) e m)
    (hcopy : S.bytes e.op ≤ 0x7ffff000 ∨ S.copyFrom e.op e.rank = none) : check e m := by
  unfold check
  split
  next hs => exact content_inDyn h (.inl (by simp only [waits, hs]))
  next di c hs =>
    intro hsend hpos
    refine content_inDyn h (.inr ?_)
    simp only [takes, hs]
    exact ⟨hsend, hpos, rfl⟩
  next j hs =>
    intro p hp
    refine ⟨(content_of_reads h (.inr ?_) rfl).trans ?_, ?_⟩
    · simp only [takes, hs]
      exact ⟨p, hp, .inl rfl⟩
    · rw [content, turn_div]
    · rw [processVmReadv_eq_iff]
      refine hcopy.resolve_right fun hnone => ?_
      cases hp.symm.trans hnone
  next => trivial

/-- With no empty tensor and none that is too large to copy, all runs of broadcasts deliver, and
they end. -/
theorem delivers (hI : Issued S) (hbytes : ∀ k < S.length, 0 < S.bytes k)
    (hcopy : ∀ k < S.length, S.bytes k ≤ 0x7ffff000 ∨ ∀ r, S.copyFrom k r = none)
    (junk : SetupCell S → UInt8) :
    (∀ w, (graph S).Reachable (initial S junk) w → Delivers S w) ∧
      WellFounded fun w' w => ∃ e, (graph S).Enabled w e ∧ w' = (graph S).next w e := by
  refine ⟨fun w h => ⟨?_, ?_, ?_, ?_⟩, EventGraph.wellFounded_next⟩
  · intro e he
    refine check_of_reads (h.reads (lawful hI hbytes) he) ?_
    exact (hcopy e.op e.op_lt).imp_right fun hnone => hnone e.rank
  · intro e he hs j hj
    refine content_tensor_of_reads (h.reads (lawful hI hbytes) he) (.inr ?_) ?_
    · simp only [takes, hs]
      exact ⟨j, hj, rfl⟩
    · simp only [tensorPhase, hs]
  · exact fun e r j ht => ht.elim target_tensor_lt target_temporary_lt
  · intro hstuck k hk r
    refine ⟨⟨k, r, .done, hk, trivial⟩, ?_, rfl, rfl, rfl⟩
    rw [h.done_eq_univ (lawful hI hbytes) hstuck]
    trivial

end Runs

/-! ## Consecutive nodes -/

/-- Broadcasts between nodes of the same size with consecutive ranks. -/
structure Job where
  numNodes : ℕ
  perNode : ℕ
  perNode_pos : 0 < perNode
  devices : ℕ
  devices_pos : 0 < devices
  length : ℕ
  work : ℕ → Work (numNodes * perNode)
  capacity : ℕ
  bytes_le : ∀ k, (work k).bytes ≤ capacity
  input : ℕ → Fin (numNodes * perNode) → Fin capacity → UInt8

namespace Job

variable (job : Job)

def nodes : AllGather.Nodes (job.numNodes * job.perNode) :=
  AllGather.consecutive job.numNodes job.perNode job.perNode_pos

def setup : Setup (job.numNodes * job.perNode) where
  ring := AllGather.ring job.numNodes job.perNode job.perNode_pos
  devices := job.devices
  devices_pos := job.devices_pos
  length := job.length
  work := job.work
  capacity := job.capacity
  bytes_le := job.bytes_le
  input := job.input

end Job

/-- Nothing fails before the first statement and in the loop over the chunks, and all runs deliver
and end. -/
structure Correct (job : Job) : Prop where
  routes : ∀ k < job.length, ∀ r, job.nodes.RouteChecks (job.work k).sourceRank r
  numParallel : ∀ k < job.length, (numParallel (job.work k).bytes).isSome
  visited : ∀ k < job.length, (visited (job.work k).bytes).isSome
  runs : ∀ junk w, (graph job.setup).Reachable (initial job.setup junk) w → Delivers job.setup w
  ends : WellFounded fun w' w =>
    ∃ e, (graph job.setup).Enabled w e ∧ w' = (graph job.setup).next w e

theorem copyFrom_eq_none {job : Job} (hone : job.perNode = 1) (k : ℕ)
    (r : Fin (job.numNodes * job.perNode)) : job.setup.copyFrom k r = none := by
  refine Option.eq_none_iff_forall_ne_some.mpr fun p hp => ?_
  obtain ⟨⟨hnode, hne⟩, -⟩ := AllGather.copyFrom_spec job.perNode_pos hp
  have : Subsingleton (Fin job.perNode) := by
    rw [hone]
    infer_instance
  refine hne ?_
  rw [← AllGather.rankAt_node_localRank p, ← AllGather.rankAt_node_localRank r, hnode,
    Subsingleton.elim (AllGather.localRank p) (AllGather.localRank r)]

/-- Another rank of the node copies the tensor of the source. -/
theorem exists_copyFrom {job : Job} (hone : job.perNode ≠ 1) (k : ℕ) :
    ∃ r p, job.setup.copyFrom k r = some p := by
  have hpos := job.perNode_pos
  have : Nontrivial (Fin job.perNode) := Fin.nontrivial_iff_two_le.mpr (by omega)
  obtain ⟨l, hl⟩ := exists_ne (AllGather.localRank (job.work k).sourceRank)
  refine ⟨AllGather.rankAt (AllGather.node (job.work k).sourceRank) l, _,
    AllGather.copyFrom_of_node_eq hpos (AllGather.node_rankAt _ _).symm fun heq => hl ?_⟩
  have hlocal := congrArg AllGather.localRank heq
  rw [AllGather.localRank_rankAt] at hlocal
  exact hlocal.symm

theorem bytes_le_of_correct {job : Job} (h : Correct job) (hI : Issued job.setup)
    (hbytes : ∀ k < job.length, 0 < (job.work k).bytes) {k : ℕ} (hk : k < job.length)
    (hone : job.perNode ≠ 1) : (job.work k).bytes ≤ 0x7ffff000 := by
  obtain ⟨r, p, hp⟩ := exists_copyFrom hone k
  let j : Fin job.capacity := ⟨0, (hbytes k hk).trans_le (job.bytes_le k)⟩
  let e : Event job.setup := ⟨k, r, .vmcopy j, hk, ⟨p, hp⟩, hbytes k hk⟩
  have hlawful : (graph job.setup).Lawful (turns job.setup) (initial job.setup fun _ => 0) :=
    lawful hI hbytes
  obtain ⟨w, hw, he⟩ := EventGraph.exists_enabled hlawful e
  have hcheck := (h.runs _ w hw).checks e he p hp
  exact processVmReadv_eq_iff.mp hcheck.2

/-- Broadcasts between nodes of the same size with consecutive ranks are correct exactly if no
tensor is empty, and none that another rank of a node copies is larger than what one call moves. -/
theorem correct_iff_bytes (job : Job) (hI : Issued job.setup) :
    Correct job ↔ ∀ k < job.length,
      0 < (job.work k).bytes ∧ ((job.work k).bytes ≤ 0x7ffff000 ∨ job.perNode = 1) := by
  constructor
  · intro h
    have hbytes : ∀ k < job.length, 0 < (job.work k).bytes :=
      fun k hk => numParallel_isSome.mp (h.numParallel k hk)
    refine fun k hk => ⟨hbytes k hk, ?_⟩
    exact or_iff_not_imp_right.mpr (bytes_le_of_correct h hI hbytes hk)
  · intro h
    have hbytes : ∀ k < job.length, 0 < (job.work k).bytes := fun k hk => (h k hk).1
    refine ⟨?_, ?_, ?_, ?_, EventGraph.wellFounded_next⟩
    · exact fun k _ r => AllGather.routeChecks_consecutive job.perNode_pos _ r
    · exact fun k hk => numParallel_isSome.mpr (hbytes k hk)
    · intro k hk
      obtain ⟨m, hm, -⟩ := exists_visited (hbytes k hk)
      rw [hm]
      rfl
    · exact fun junk => (delivers hI hbytes
        (fun k hk => (h k hk).2.imp_right fun hone => copyFrom_eq_none hone k) junk).1

/-- Rank 1 of two nodes with two ranks each broadcasts a tensor of at most 5 bytes, with two
devices. -/
def oneBroadcast (bytes : Fin 6) : Job where
  numNodes := 2
  perNode := 2
  perNode_pos := by decide
  devices := 2
  devices_pos := by decide
  length := 1
  work _ := ⟨⟨1, by decide⟩, bytes, 0x1000⟩
  capacity := 5
  bytes_le _ := Nat.le_of_lt_succ bytes.isLt
  input _ r _ := UInt8.ofNat r

theorem issued_oneBroadcast (bytes : Fin 6) : Issued (oneBroadcast bytes).setup where
  isStepValue _ _ := ⟨0x1000, .init, rfl⟩
  increasing k k' hlt hk' := by
    have hone : k' < 1 := hk'
    omega

theorem correct_iff_bytes_oneBroadcast : Correct (oneBroadcast 5) :=
  (correct_iff_bytes (oneBroadcast 5) (issued_oneBroadcast 5)).mpr
    fun _ _ => ⟨(by decide : 0 < 5), .inl (by decide : 5 ≤ 0x7ffff000)⟩

/-- The broadcast of an empty tensor divides by zero. -/
theorem empty_tensor_fails : ¬ Correct (oneBroadcast 0) := by
  intro h
  exact absurd (h.numParallel 0 (by decide : 0 < 1)) (by decide)

end Broadcast
