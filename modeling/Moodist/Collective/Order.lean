import Moodist.Collective.Defs

/-!
# The order of the statements of collectives

No buffer, slot or input is written for a later work before all have read what they need of an
earlier one, and each statement reads what was written for its own.
-/

namespace Collective

open Foundation Setup Works.Event Option Stmt

variable {size : ℕ} {α : Type}

/-! ## Turns -/

section Turns

variable (S : Setup size α)

/-- Whether an input is used after it may have been overwritten by the output. -/
def inputPhase (e : Event S) : ℕ :=
  match e.stmt with
  | .reduceOut _ | .done => 1
  | _ => 0

def stepPhase (e : Event S) : ℕ :=
  match e.stmt with
  | .publish v => v
  | .waitPeer v _ => v
  | _ => 0

def turn (e : Event S) : SetupCell S → ℕ
  | .input _ _ _ => 2 * e.op + inputPhase S e
  | .peerStepValue _ => 2 * e.op + stepPhase S e
  | _ => 2 * e.op

/-- A rank that waits for the end of a work may see what is published in the next one. -/
def latest (e : Event S) : SetupCell S → ℕ
  | .input _ _ _ => 2 * e.op + inputPhase S e
  | .peerStepValue _ =>
    match e.stmt with
    | .waitPeer v _ => if v.val = 0 then 2 * e.op + 1 else min (2 * e.op + 3) (2 * S.length - 1)
    | _ => 2 * e.op + 1
  | _ => 2 * e.op

namespace Setup

def nodeSum (k : ℕ) (r row : Fin size) (j : Fin S.capacity) : α :=
  S.sum k (S.input k r row j) ((S.ipcRanks r).map fun p => S.input k p row j)

def sent (k : ℕ) (r i : Fin size) (j : Fin S.capacity) : α :=
  if S.isReduce k then S.nodeSum k r i j else S.input k r r j

def outSum (k : ℕ) (r : Fin size) (j : Fin S.capacity) : α :=
  S.sum k (S.nodeSum k r r j) ((S.recvRanks k r).map fun i => S.sent k i r j)

def result (k : ℕ) (r row : Fin size) (j : Fin S.capacity) : α :=
  if S.isReduce k then S.outSum k r j else S.input k row row j

def partValue (k : ℕ) (r i p : Fin size) (j : Fin S.capacity) : α :=
  if p = r ∨ p ∈ S.ipcRanks r then S.input k p i j else S.sent k p r j

/-- An input after it has been filled, or overwritten by the output. -/
def inputAt (t : ℕ) (r row : Fin size) (j : Fin S.capacity) : α :=
  if t % 2 = 0 then S.input (t / 2) r row j else S.result (t / 2) r row j

end Setup

def content : ∀ c : SetupCell S, ℕ → CellVal S c
  | .outStepValue _, t => S.stepValue (t / 2)
  | .outDyn r i, t => S.dyn (t / 2) r i
  | .inDyn r i, t => S.dyn (t / 2) i r
  | .inStepValue _ _, t => S.stepValue (t / 2)
  | .addresses _, t => S.cpuAddresses (t / 2)
  | .peerStepValue _, t => CpuThread.published S.stepValue t
  | .proxyReady _ _, t => S.stepValue (t / 2)
  | .sendBuffer r i j, t => S.sent (t / 2) r i j
  | .received r i j, t => S.sent (t / 2) i r j
  | .part r i p j, t => S.partValue (t / 2) r i p j
  | .input r row j, t => S.inputAt t r row j
  | .output r row j, t => S.result (t / 2) r row j

def line (k : ℕ) (r : Fin size) (s : Stmt size S.devices S.capacity) : ℕ ×ₗ ℕ ×ₗ ℕ :=
  toLex (s.stage, toLex (S.index k r s, s.sub))

def turns : EventGraph.Turns (Event S) (CellVal S) (ℕ ×ₗ ℕ ×ₗ ℕ ×ₗ ℕ) where
  turn := turn S
  latest := latest S
  content := content S
  before := Works.Before
  label := Works.label (line S)

variable {k : ℕ} {r : Fin size} {s s' : Stmt size S.devices S.capacity}

theorem line_lt_of_stage {r' : Fin size} (h : s.stage < s'.stage) :
    line S k r s < line S k r' s' := by
  rw [line, line, Prod.Lex.toLex_lt_toLex]
  exact .inl h

theorem line_lt_of_sub (hstage : s.stage = s'.stage) (hindex : S.index k r s = S.index k r s')
    (h : s.sub < s'.sub) : line S k r s < line S k r s' := by
  rw [line, line, Prod.Lex.toLex_lt_toLex, Prod.Lex.toLex_lt_toLex]
  exact .inr ⟨hstage, .inr ⟨hindex, h⟩⟩

theorem Order.line_lt (h : Order S k r s s') : line S k r s < line S k r s' := by
  cases h with
  | enter hne =>
    refine line_lt_of_stage S ?_
    cases s' with
    | enter => exact absurd rfl hne
    | publish v | waitPeer v i => simp only [Stmt.stage]; split_ifs <;> decide
    | _ => exact Nat.succ_pos _
  | stage hlt _ _ _ => exact line_lt_of_stage S hlt
  | loop hstage hlt _ _ =>
    rw [line, line, Prod.Lex.toLex_lt_toLex]
    exact .inr ⟨hstage, hlt⟩
  | completeDyn => exact line_lt_of_stage S (by decide : 3 < 4)
  | data => exact line_lt_of_sub S rfl rfl (by decide : 2 < 3)
  | posted => exact line_lt_of_sub S rfl rfl (by decide : 2 < 4)
  | callback => exact line_lt_of_sub S rfl rfl (by decide : 3 < 4)
  | signal => exact line_lt_of_sub S rfl rfl (by decide : 4 < 5)
  | drain => exact line_lt_of_stage S (by decide : 8 < 15)

end Turns

/-! ## Ranks -/

namespace Setup

variable {S : Setup size α} {k : ℕ} {r i p s d : Fin size}

theorem mem_recvRanks_iff : i ∈ S.recvRanks k r ↔ r ∈ S.sendRanks k i := by
  unfold recvRanks sendRanks
  split_ifs
  · exact S.nodes.mem_recvRanks_iff.symm
  · exact S.nodes.mem_recvRanks_iff

theorem not_sameNode (h : i ∈ S.sendRanks k r) : ¬ S.nodes.SameNode i r := by
  unfold sendRanks at h
  split_ifs at h
  · exact (S.nodes.mem_recvRanks.mp h).1
  · exact fun hsame => (S.nodes.mem_sendRanks.mp h).1 hsame.symm

theorem ipcRanks_symm (h : p ∈ S.ipcRanks r) : r ∈ S.ipcRanks p := by
  obtain ⟨hsame, hne⟩ := S.nodes.mem_ipcRanks.mp h
  exact S.nodes.mem_ipcRanks.mpr ⟨hsame.symm, hne.symm⟩

theorem sameNode_of_local (h : p = r ∨ p ∈ S.ipcRanks r) : S.nodes.SameNode p r := by
  obtain rfl | hp := h
  · exact Eq.refl _
  · exact (S.nodes.mem_ipcRanks.mp hp).1

theorem ne_of_mem_sendRanks (h : i ∈ S.sendRanks k r) (hp : p = r ∨ p ∈ S.ipcRanks r) : i ≠ p := by
  rintro rfl
  exact not_sameNode h (sameNode_of_local hp)

theorem not_local_of_mem_recvRanks (h : i ∈ S.recvRanks k r) : ¬ (i = r ∨ i ∈ S.ipcRanks r) :=
  fun hi => not_sameNode (mem_recvRanks_iff.1 h) (sameNode_of_local hi).symm

theorem isReduce_of_inPlace (h : S.inPlace k = true) : S.isReduce k = true := by
  unfold inPlace at h
  unfold isReduce
  cases hkind : (S.work k).kind with
  | allGather =>
    rw [hkind] at h
    cases h
  | reduceScatter dtype reduction inPlace => rfl

theorem inPlace_eq_false (h : S.isReduce k = false) : S.inPlace k = false := by
  by_contra hplace
  rw [isReduce_of_inPlace (Bool.eq_true_of_not_eq_false hplace)] at h
  cases h

theorem mem_sendRanks_of_proxyInfo (hkind : S.isReduce k = false)
    (h : (s, d) ∈ S.nodes.proxyInfo p) : p ∈ S.sendRanks k s := by
  rw [sendRanks, hkind]
  exact (S.nodes.mem_sendRanks_of_proxyInfo h).1

theorem mem_ipcRanks_of_proxyInfo (h : (s, d) ∈ S.nodes.proxyInfo p) : p ∈ S.ipcRanks d := by
  refine S.nodes.mem_ipcRanks.mpr ⟨(S.nodes.mem_sendRanks_of_proxyInfo h).2, ?_⟩
  exact (S.nodes.mem_proxyInfo.mp h).2.2.symm

end Setup

/-! ## What happens before what -/

section Hb

variable {S : Setup size α} {a b e : Event S} {r q p i row : Fin size} {di : Fin S.devices}
  {j : Fin S.capacity} {s s' : Stmt size S.devices S.capacity} {cell : SetupCell S}

abbrev Hb (a b : Event S) : Prop := (graph S).Hb (turns S) a b

theorem hb_of_before (h : Works.Before a b) : Hb a b := .single (.before h)

theorem hb_of_op_lt (hop : a.op < b.op) (hrank : a.rank = b.rank) : Hb a b :=
  (Works.before_of_op_lt hop hrank).lift id fun _ _ h => .before h

theorem hb_order (s : Stmt size S.devices S.capacity) (hs : e.stmt = s') (h : S.has e.op e.rank s)
    (horder : Order S e.op e.rank s s') : Hb (e.other e.rank s h) e :=
  hb_of_before (.order rfl rfl (hs ▸ horder))

theorem hb_earlier (s : Stmt size S.devices S.capacity) (hs : e.stmt = s')
    (h : S.has e.op e.rank s) (hstage : s.stage < s'.stage) (hlocal : s.isLocal = true)
    (hlocal' : s'.isLocal = true) (hproxy : s.isForward = false ∨ s'.isProxyCopy = false) :
    Hb (e.other e.rank s h) e :=
  hb_order s hs h (.stage hstage hlocal hlocal' hproxy)

theorem hb_later (s' : Stmt size S.devices S.capacity) (hs : e.stmt = s)
    (h : S.has e.op e.rank s') (hstage : s.stage < s'.stage) (hlocal : s.isLocal = true)
    (hlocal' : s'.isLocal = true) (hproxy : s.isForward = false ∨ s'.isProxyCopy = false) :
    Hb e (e.other e.rank s' h) :=
  hb_of_before (.order rfl rfl (hs ▸ .stage hstage hlocal hlocal' hproxy))

theorem hb_sub (s : Stmt size S.devices S.capacity) (hs : e.stmt = s') (h : S.has e.op e.rank s)
    (hstage : s.stage = s'.stage) (hindex : S.index e.op e.rank s = S.index e.op e.rank s')
    (hsub : s.sub < s'.sub) (hlocal : s.isLocal = true) (hlocal' : s'.isLocal = true) :
    Hb (e.other e.rank s h) e := by
  refine hb_order s hs h (.loop hstage ?_ hlocal hlocal')
  rw [Prod.Lex.toLex_lt_toLex]
  exact .inr ⟨hindex, hsub⟩

theorem hb_wait (cell : SetupCell S) (hb : waits b = some cell) (ha : target a = some cell)
    (hturn : turn S a cell = turn S b cell) : Hb a b :=
  .single (.wait hb ha hturn)

theorem hb_waitDyn (hs : e.stmt = .waitDyn i) (h : e.rank ∈ S.recvRanks e.op i) :
    Hb (e.other i (.completeDyn e.rank) h) e :=
  hb_wait (.inDyn e.rank i) (by simp only [waits, hs]) rfl rfl

theorem hb_callback_waitRecv (hs : e.stmt = .waitRecv i) (h : e.rank ∈ S.sendRanks e.op i) :
    Hb (e.other i (.callback e.rank) h) e := by
  have hsignal : Hb (e.other i (.callback e.rank) h) (e.other i (.completeStepValue e.rank) h) :=
    hb_of_before (.order rfl rfl .signal)
  refine hsignal.trans (hb_wait (.inStepValue e.rank i) ?_ rfl rfl)
  simp only [waits, hs]

theorem hb_waitDyn_later (hs : b.stmt = .waitDyn i) (hrank : a.rank = i) (hop : b.op < a.op) :
    Hb b a := by
  have hhas := b.has
  rw [hs] at hhas
  have hrecv : b.rank ∈ S.recvRanks b.op i := mem_recvRanks_iff.2 hhas
  calc Hb b (b.other b.rank (.callback i) hhas) :=
        hb_of_before (.order rfl rfl (hs ▸ .posted))
    Hb _ (b.other i (.waitRecv b.rank) hrecv) :=
        hb_callback_waitRecv (e := b.other i (.waitRecv b.rank) hrecv) rfl hhas
    Hb _ a := hb_of_op_lt hop hrank.symm

theorem hb_data (hs : e.stmt = .data i di j) (h : i ∈ S.sendRanks e.op e.rank) :
    Hb (e.other e.rank (.waitDyn i) h) e :=
  hb_order (.waitDyn i) hs h .data

theorem hb_signal (hs : e.stmt = .completeStepValue i) (h : i ∈ S.sendRanks e.op e.rank) :
    Hb (e.other e.rank (.waitDyn i) h) e := by
  have hposted : Hb (e.other e.rank (.waitDyn i) h) (e.other e.rank (.callback i) h) :=
    hb_of_before (.order rfl rfl .posted)
  exact hposted.trans (hb_order (.callback i) hs h .signal)

theorem hb_peer (hp : a.rank ∈ S.ipcRanks p) (hrank : b.rank = p) (hop : a.op < b.op)
    (hstage : a.stmt.stage < 15) (hlocal : a.stmt.isLocal = true) : Hb a b := by
  calc Hb a (a.other a.rank (.publish 1) trivial) :=
        hb_later (.publish 1) rfl trivial hstage hlocal rfl (.inr rfl)
    Hb _ (a.other p (.waitPeer 1 a.rank) hp) := hb_wait (.peerStepValue a.rank) rfl rfl rfl
    Hb _ b := hb_of_op_lt hop hrank.symm

/-- What is read in its node has been written by the rank itself or published. -/
theorem hb_published (hp : p = e.rank ∨ p ∈ S.ipcRanks e.rank) (h : S.has e.op p s)
    (hstage : s.stage < 5) (hlocal : s.isLocal = true) (hproxy : s.isForward = false)
    (hstage' : 7 < e.stmt.stage) (hlocal' : e.stmt.isLocal = true) : Hb (e.other p s h) e := by
  obtain rfl | hp := hp
  · exact hb_earlier s rfl h (by omega) hlocal hlocal' (.inl hproxy)
  calc Hb (e.other p s h) (e.other p (.publish 0) trivial) :=
        hb_earlier (e := e.other p (.publish 0) trivial) s rfl h hstage hlocal rfl (.inl hproxy)
    Hb _ (e.other e.rank (.waitPeer 0 p) hp) := hb_wait (.peerStepValue p) rfl rfl rfl
    Hb _ e := hb_earlier (.waitPeer 0 p) rfl hp hstage' rfl hlocal' (.inl rfl)

/-! ## Who writes a cell -/

namespace Setup

def owner (S : Setup size α) : SetupCell S → Fin size
  | .outStepValue r | .outDyn r _ | .addresses r | .peerStepValue r => r
  | .sendBuffer r _ _ | .part r _ _ _ | .input r _ _ | .output r _ _ => r
  | .inDyn _ i | .inStepValue _ i | .received _ i _ => i
  | .proxyReady r source => S.nodes.proxyOf source r

def outputStmt (S : Setup size α) (k : ℕ) (r row : Fin size) (j : Fin S.capacity) :
    Stmt size S.devices S.capacity :=
  if S.isReduce k then .reduceOut j
  else if row = r then .copyOwn j
  else if row ∈ S.ipcRanks r then .vmcopy row j
  else if S.nodes.proxyOf row r = r then .copyOut row j
  else .proxyCopy row (S.nodes.proxyOf row r) j

def partStmt (S : Setup size α) (r i p : Fin size) (j : Fin S.capacity) :
    Stmt size S.devices S.capacity :=
  if i ≠ r then .readSend i p j else if p = r ∨ p ∈ S.ipcRanks r then .read p j else .copyOut p j

def sendStmt (S : Setup size α) (k : ℕ) (i : Fin size) (j : Fin S.capacity) :
    Stmt size S.devices S.capacity :=
  if S.isReduce k then .reduceSend i j else .copyIn j

theorem outputCell_owner (S : Setup size α) (k : ℕ) (r row : Fin size) (j : Fin S.capacity) :
    S.owner (S.outputCell k r row j) = r := by
  unfold outputCell
  split_ifs <;> rfl

end Setup

theorem rank_eq_owner (h : target e = some cell) : e.rank = S.owner cell := by
  have hhas := e.has
  cases hs : e.stmt <;> rw [hs] at hhas <;>
    simp only [target, hs, some.injEq, reduceCtorEq] at h <;>
    subst h
  case forward source destination => exact (S.nodes.mem_proxyInfo.mp hhas.2).2.1
  case copyOut i j =>
    split_ifs <;> rfl
  case reduceOut j => exact (S.outputCell_owner _ _ _ _).symm
  all_goals rfl

/-- The statement that writes a cell; parts and outputs are below. -/
def Writes (e : Event S) : SetupCell S → Prop
  | .outStepValue _ => e.stmt = .setStepValue
  | .outDyn _ i => e.stmt = .setDyn i
  | .inDyn r _ => e.stmt = .completeDyn r
  | .inStepValue r _ => e.stmt = .completeStepValue r
  | .addresses _ => e.stmt = .setAddresses
  | .peerStepValue _ => ∃ v, e.stmt = .publish v
  | .proxyReady r i => e.stmt = .forward i r
  | .sendBuffer _ i j => e.stmt = S.sendStmt e.op i j
  | .received r _ j => ∃ di, e.stmt = .data r di j
  | .input _ row j =>
    e.stmt = .fill row j ∨ (e.stmt = .reduceOut j ∧ row = e.rank ∧ S.inPlace e.op = true)
  | .part _ _ _ _ | .output _ _ _ => True

theorem writes_of_target (h : target e = some cell) : Writes e cell := by
  have hhas : S.has e.op e.rank e.stmt := e.has
  unfold target at h
  split at h <;> grind [Writes, Setup.outputCell, Setup.sendStmt, Setup.has]

theorem target_part (h : target e = some (.part r i p j)) : e.stmt = S.partStmt e.rank i p j := by
  have hhas := e.has
  unfold partStmt
  cases hs : e.stmt <;> rw [hs] at hhas <;>
    simp only [target, hs, some.injEq, Cell.part.injEq, reduceCtorEq] at h
  case readSend i' p' j' =>
    obtain ⟨-, rfl, rfl, rfl⟩ := h
    rw [if_pos (ne_of_mem_sendRanks hhas.2.1 (.inl rfl))]
  case read p' j' =>
    obtain ⟨-, rfl, rfl, rfl⟩ := h
    rw [if_neg (not_not.mpr rfl), if_pos hhas.2.1]
  case copyOut i' j' =>
    split_ifs at h
    obtain ⟨-, rfl, rfl, rfl⟩ := Cell.part.inj h
    rw [if_neg (not_not.mpr rfl), if_neg (not_local_of_mem_recvRanks hhas.1)]
  case reduceOut j' =>
    unfold outputCell at h
    split_ifs at h

theorem target_output (h : target e = some (.output r row j)) :
    e.stmt = S.outputStmt e.op e.rank row j := by
  have hhas := e.has
  unfold outputStmt
  cases hs : e.stmt <;> rw [hs] at hhas <;>
    simp only [target, hs, some.injEq, Cell.output.injEq, reduceCtorEq] at h
  case copyOwn j' =>
    obtain ⟨-, rfl, rfl⟩ := h
    rw [if_neg (by simp [hhas.1]), if_pos rfl]
  case vmcopy p' j' =>
    obtain ⟨-, rfl, rfl⟩ := h
    have hne := (S.nodes.mem_ipcRanks.mp hhas.2.1).2
    rw [if_neg (by simp [hhas.1]), if_neg hne, if_pos hhas.2.1]
  case proxyCopy source proxy j' =>
    obtain ⟨-, rfl, rfl⟩ := h
    obtain ⟨hnode, rfl, hne⟩ := S.nodes.mem_proxyDestinationInfo.mp hhas.2.1
    have hrow : ¬ (source = e.rank ∨ source ∈ S.ipcRanks e.rank) :=
      fun hlocal => hnode (sameNode_of_local hlocal)
    rw [if_neg (by simp [hhas.1]), if_neg fun heq => hrow (.inl heq),
      if_neg fun hmem => hrow (.inr hmem), if_neg hne]
  case copyOut i' j' =>
    split_ifs at h with hkind
    obtain ⟨-, rfl, rfl⟩ := Cell.output.inj h
    have hrow := not_local_of_mem_recvRanks hhas.1
    have hproxy := hhas.1
    rw [recvRanks, if_neg hkind, S.nodes.mem_recvRanks] at hproxy
    rw [if_neg hkind, if_neg fun heq => hrow (.inl heq), if_neg fun hmem => hrow (.inr hmem),
      if_pos hproxy.2.symm]
  case reduceOut j' =>
    unfold outputCell at h
    split_ifs at h
    obtain ⟨-, rfl, rfl⟩ := Cell.output.inj h
    rw [if_pos hhas.1]

variable {k : ℕ} {v : Fin 2}

theorem Setup.has_outputStmt (h : S.HasOutput k r row j) : S.has k r (S.outputStmt k r row j) := by
  obtain ⟨-, hj⟩ := h
  unfold outputStmt
  split_ifs with hkind hown hlocal hproxy
  · exact ⟨hkind, hj⟩
  · exact ⟨by simpa using hkind, hj⟩
  · exact ⟨by simpa using hkind, hlocal, hj⟩
  · refine ⟨?_, hj⟩
    rw [recvRanks, if_neg hkind, S.nodes.mem_recvRanks]
    refine ⟨fun hsame => hlocal (S.nodes.mem_ipcRanks.mpr ⟨hsame, hown⟩), hproxy.symm⟩
  · refine ⟨by simpa using hkind, S.nodes.mem_proxyDestinationInfo.mpr ⟨?_, rfl, hproxy⟩, hj⟩
    exact fun hsame => hlocal (S.nodes.mem_ipcRanks.mpr ⟨hsame, hown⟩)

theorem Setup.outputStmt_local (k : ℕ) (r row : Fin size) (j : Fin S.capacity) :
    (S.outputStmt k r row j).stage < 15 ∧ (S.outputStmt k r row j).isLocal = true := by
  unfold outputStmt
  split_ifs <;> simp [stage, isLocal]

theorem target_outputStmt (hs : e.stmt = S.outputStmt e.op e.rank row j)
    (h : S.HasOutput e.op e.rank row j) : target e = some (S.outputCell e.op e.rank row j) := by
  unfold outputStmt at hs
  unfold target
  by_cases hkind : S.isReduce e.op = true
  · rw [if_pos hkind] at hs
    rw [hs, h.1 hkind]
  · have hplace := inPlace_eq_false (by simpa using hkind)
    rw [if_neg hkind] at hs
    unfold outputCell
    split_ifs at hs <;> simp only [hs, hplace, hkind]
    · simp_all
    all_goals simp

theorem Setup.chunkSize_mul_le (S : Setup size α) (k : ℕ) :
    S.chunkSize k * S.devices ≤ S.bytes k := by
  calc S.chunkSize k * S.devices
      ≤ S.bytes k / S.devices * S.devices := Nat.mul_le_mul_right _ (Nat.div_mul_le_self _ _)
    _ ≤ S.bytes k := Nat.div_mul_le_self _ _

theorem Setup.HasElement.unique {di' : Fin S.devices} (h : S.HasElement k di j)
    (h' : S.HasElement k di' j) : di = di' :=
  Fin.ext (InSlice.unique (S.chunkSize_mul_le k) h h' di.isLt di'.isLt)

theorem Dtype.bytes_pos (dtype : Dtype) : 0 < dtype.bytes := by
  cases dtype <;> decide

theorem Setup.itembytes_pos (S : Setup size α) (k : ℕ) : 0 < S.itembytes k := by
  unfold itembytes
  cases (S.work k).kind with
  | allGather => exact Nat.one_pos
  | reduceScatter dtype _ _ => exact dtype.bytes_pos

theorem Setup.exists_hasElement (hj : (j : ℕ) < S.numel k) : ∃ di, S.HasElement k di j := by
  have hlt : S.itembytes k * j < S.bytes k := by
    rw [bytes, Nat.mul_comm]
    exact Nat.mul_lt_mul_of_pos_right hj (S.itembytes_pos k)
  obtain ⟨di, hdi, hin⟩ := exists_inSlice (S.chunkSize_mul_le k) S.devices_pos hlt
  exact ⟨⟨di, hdi⟩, hin⟩

theorem inputPhase_le (e : Event S) : inputPhase S e ≤ 1 := by
  unfold inputPhase
  split <;> omega

theorem stepPhase_le (e : Event S) : stepPhase S e ≤ 1 := by
  unfold stepPhase
  split <;> omega

theorem turn_div (e : Event S) (cell : SetupCell S) : turn S e cell / 2 = e.op := by
  have hinput := inputPhase_le e
  have hstep := stepPhase_le e
  cases cell with
  | input q row j | peerStepValue q =>
    simp only [turn]
    omega
  | _ => exact Nat.mul_div_cancel_left _ (by decide)

theorem op_eq_of_turn (h : turn S a cell = turn S b cell) : a.op = b.op := by
  rw [← turn_div a cell, h, turn_div]

theorem op_le_of_turn (h : turn S a cell ≤ turn S b cell) : a.op ≤ b.op := by
  rw [← turn_div a cell, ← turn_div b cell]
  exact Nat.div_le_div_right h

theorem inputPhase_of_fill (hs : e.stmt = .fill row j) : inputPhase S e = 0 := by
  simp [inputPhase, hs]

theorem inputPhase_of_reduceOut (hs : e.stmt = .reduceOut j) : inputPhase S e = 1 := by
  simp [inputPhase, hs]

theorem stepPhase_of_publish (hs : e.stmt = .publish v) : stepPhase S e = v := by
  simp [stepPhase, hs]

section

variable (ha : target a = some cell) (hb : target b = some cell)

include ha hb

theorem stmt_eq_of_target (hturn : turn S a cell = turn S b cell) : a.stmt = b.stmt := by
  have hop := op_eq_of_turn hturn
  have hrank : a.rank = b.rank := (rank_eq_owner ha).trans (rank_eq_owner hb).symm
  have hhas := a.has
  have hhas' := b.has
  cases cell with
  | outStepValue q | outDyn q i | inDyn q i | inStepValue q i | addresses q | proxyReady q i =>
    exact (writes_of_target ha).trans (writes_of_target hb).symm
  | peerStepValue q =>
    obtain ⟨v, hs⟩ := writes_of_target ha
    obtain ⟨v', hs'⟩ := writes_of_target hb
    have hv : v = v' := by
      simp only [turn, stepPhase_of_publish hs, stepPhase_of_publish hs', hop] at hturn
      exact Fin.ext (by omega)
    rw [hs, hs', hv]
  | sendBuffer q i j => exact (writes_of_target ha).trans (hop ▸ (writes_of_target hb).symm)
  | received q i j =>
    obtain ⟨di, hs⟩ := writes_of_target ha
    obtain ⟨di', hs'⟩ := writes_of_target hb
    rw [hs] at hhas
    rw [hs', ← hop] at hhas'
    rw [hs, hs', hhas.2.2.unique hhas'.2.2]
  | part q i p j => rw [target_part ha, target_part hb, hrank]
  | input q row j =>
    simp only [turn, hop] at hturn
    obtain hs | ⟨hs, -⟩ := writes_of_target ha <;> obtain hs' | ⟨hs', -⟩ := writes_of_target hb
    · rw [hs, hs']
    · rw [inputPhase_of_fill hs, inputPhase_of_reduceOut hs'] at hturn
      omega
    · rw [inputPhase_of_reduceOut hs, inputPhase_of_fill hs'] at hturn
      omega
    · rw [hs, hs']
  | output q row j => rw [target_output ha, target_output hb, hop, hrank]

theorem writer_unique (hturn : turn S a cell = turn S b cell) : a = b :=
  ext_of (op_eq_of_turn hturn) ((rank_eq_owner ha).trans (rank_eq_owner hb).symm)
    (stmt_eq_of_target ha hb hturn)

variable (hturn : turn S a cell < turn S b cell)

include hturn

/-- Two writes in one work: the user fills the input before the output is stored there, and a rank
publishes the step value before the next one. -/
theorem write_hb_of_op_eq (hop : a.op = b.op) (hrank : a.rank = b.rank) :
    Hb a b := by
  cases cell with
  | input q row j =>
    simp only [turn, hop] at hturn
    obtain hs | ⟨hs, -⟩ := writes_of_target ha <;> obtain hs' | ⟨hs', -⟩ := writes_of_target hb
    · rw [inputPhase_of_fill hs, inputPhase_of_fill hs'] at hturn
      omega
    · refine hb_of_before (.order hop hrank ?_)
      rw [hs, hs']
      exact .stage (by decide : 1 < 14) rfl rfl (.inl rfl)
    · rw [inputPhase_of_reduceOut hs, inputPhase_of_fill hs'] at hturn
      omega
    · rw [inputPhase_of_reduceOut hs, inputPhase_of_reduceOut hs'] at hturn
      omega
  | peerStepValue q =>
    obtain ⟨v, hs⟩ := writes_of_target ha
    obtain ⟨v', hs'⟩ := writes_of_target hb
    simp only [turn, stepPhase_of_publish hs, stepPhase_of_publish hs', hop] at hturn
    obtain rfl : v = 0 := Fin.ext (by omega)
    obtain rfl : v' = 1 := Fin.ext (by omega)
    refine hb_of_before (.order hop hrank ?_)
    rw [hs, hs']
    exact .stage (by decide : 5 < 15) rfl rfl (.inl rfl)
  | _ =>
    simp only [turn, hop] at hturn
    omega

theorem write_hb : Hb a b := by
  have hrank : a.rank = b.rank := (rank_eq_owner ha).trans (rank_eq_owner hb).symm
  obtain hop | hop := Nat.lt_or_eq_of_le (op_le_of_turn hturn.le)
  · exact hb_of_op_lt hop hrank
  · exact write_hb_of_op_eq ha hb hturn hop hrank

end

/-! ## What a statement reads -/

theorem waits_cases (h : waits e = some cell) :
    (∃ v i, e.stmt = .waitPeer v i ∧ cell = .peerStepValue i) ∨
    (∃ i, e.stmt = .waitDyn i ∧ cell = .inDyn e.rank i) ∨
    (∃ source destination, e.stmt = .forward source destination ∧
      S.MustWait e.rank source destination ∧ cell = .inStepValue e.rank source) ∨
    (∃ source proxy j, e.stmt = .proxyCopy source proxy j ∧ cell = .proxyReady e.rank source) ∨
    (∃ i, e.stmt = .waitRecv i ∧ cell = .inStepValue e.rank i) := by
  unfold waits at h
  split at h <;> grind

/-- A statement that looks at another rank comes after the wait for what that one publishes. -/
theorem Looks.spec (h : Looks e p) :
    p ∈ S.ipcRanks e.rank ∧ e.stmt.isLocal = true ∧ 7 < e.stmt.stage ∧ e.stmt.stage < 15 := by
  have hhas := e.has
  cases h with
  | vmcopy hs =>
    rw [hs] at hhas ⊢
    exact ⟨hhas.2.1, rfl, (by decide : 7 < 10), (by decide : 10 < 15)⟩
  | proxyCopy hs =>
    rw [hs] at hhas ⊢
    have hproxy := S.nodes.mem_proxyDestinationInfo_iff.mp hhas.2.1
    exact ⟨mem_ipcRanks_of_proxyInfo hproxy, rfl, (by decide : 7 < 12), (by decide : 12 < 15)⟩
  | readSend hs hne =>
    rw [hs] at hhas ⊢
    exact ⟨hhas.2.2.1.resolve_left hne, rfl, (by decide : 7 < 8), (by decide : 8 < 15)⟩
  | read hs hne =>
    rw [hs] at hhas ⊢
    exact ⟨hhas.2.1.resolve_left hne, rfl, (by decide : 7 < 9), (by decide : 9 < 15)⟩

/-- An input is read by its rank, or after it has been published, and before the end of the work is.
Its own row is read by no other rank in a reduce-scatter. -/
structure InputRead (e : Event S) (p row : Fin size) (j : Fin S.capacity) : Prop where
  rank : p = e.rank ∨ (p ∈ S.ipcRanks e.rank ∧ 7 < e.stmt.stage)
  isLocal : e.stmt.isLocal = true
  after : 1 < e.stmt.stage
  before : e.stmt.stage < 14
  fill : S.has e.op p (.fill row j)
  phase : inputPhase S e = 0
  own : S.isReduce e.op = true → row = p → p = e.rank

theorem ReadsInput.spec (h : ReadsInput e p row j) : InputRead e p row j := by
  have hhas := e.has
  cases h with
  | copyIn hs | copyOwn hs =>
    rw [hs] at hhas
    refine ⟨.inl rfl, ?_, ?_, ?_, ⟨.inr rfl, hhas.2⟩, by simp [inputPhase, hs], fun _ _ => rfl⟩ <;>
      simp [hs, isLocal, stage]
  | vmcopy hs =>
    rw [hs] at hhas
    refine ⟨.inr ⟨hhas.2.1, ?_⟩, ?_, ?_, ?_, ⟨.inr rfl, hhas.2.2⟩, by simp [inputPhase, hs], ?_⟩
    · simp [hs, stage]
    · simp [hs, isLocal]
    · simp [hs, stage]
    · simp [hs, stage]
    · intro hkind
      rw [hhas.1] at hkind
      cases hkind
  | readSend hs =>
    rw [hs] at hhas
    refine ⟨hhas.2.2.1.imp_right fun hp => ⟨hp, ?_⟩, ?_, ?_, ?_, ⟨.inl hhas.1, hhas.2.2.2⟩,
      by simp [inputPhase, hs], ?_⟩
    · simp [hs, stage]
    · simp [hs, isLocal]
    · simp [hs, stage]
    · simp [hs, stage]
    · exact fun _ hrow => absurd hrow (ne_of_mem_sendRanks hhas.2.1 hhas.2.2.1)
  | read hs =>
    rw [hs] at hhas
    refine ⟨hhas.2.1.imp_right fun hp => ⟨hp, ?_⟩, ?_, ?_, ?_, ⟨.inl hhas.1, hhas.2.2⟩,
      by simp [inputPhase, hs], fun _ hrow => hrow.symm⟩ <;>
      simp [hs, isLocal, stage]

theorem Looks.stepPhase_eq (h : Looks e p) : stepPhase S e = 0 := by
  cases h with
  | vmcopy hs | proxyCopy hs | readSend hs hne | read hs hne => simp [stepPhase, hs]

theorem Looks.latest_eq (h : Looks e p) : latest S e (.peerStepValue q) = 2 * e.op + 1 := by
  cases h with
  | vmcopy hs | proxyCopy hs | readSend hs hne | read hs hne => simp only [latest, hs]

/-- A proxy tells the others of its node that it has the data of a source after it has got them. -/
theorem hb_forward {source : Fin size} (n : ℕ) {destination : Fin size} {e : Event S}
    (hs : e.stmt = .forward source destination)
    (hn : (S.nodes.proxyInfo e.rank).idxOf (source, destination) = n)
    (h : e.rank ∈ S.sendRanks e.op source) :
    Hb (e.other source (.completeStepValue e.rank) h) e := by
  induction n generalizing destination e with
  | zero =>
    have hwait : S.MustWait e.rank source destination := by
      simp [MustWait, prevRecvSource, hn]
    refine hb_wait (.inStepValue e.rank source) ?_ rfl rfl
    simp only [waits, hs, if_pos hwait]
  | succ n ih =>
    by_cases hwait : S.MustWait e.rank source destination
    · refine hb_wait (.inStepValue e.rank source) ?_ rfl rfl
      simp only [waits, hs, if_pos hwait]
    · -- the entry before has the same source
      have hhas := e.has
      rw [hs] at hhas
      simp only [MustWait, prevRecvSource, hn, not_not, map_eq_some_iff] at hwait
      obtain ⟨⟨source', d⟩, hget, heq⟩ := hwait
      obtain rfl : source' = source := heq
      have hmem := List.mem_of_getElem? hget
      have hindex : (S.nodes.proxyInfo e.rank).idxOf (source', d) = n := by
        obtain ⟨hlt, hget⟩ := List.getElem?_eq_some_iff.mp hget
        rw [← hget]
        exact (S.nodes.proxyInfo_nodup e.rank).idxOf_getElem n hlt
      have hprev := ih (e := e.other e.rank (.forward source' d) ⟨hhas.1, hmem⟩) rfl hindex h
      refine hprev.trans (hb_order (.forward source' d) hs ⟨hhas.1, hmem⟩ (.loop rfl ?_ rfl rfl))
      rw [Prod.Lex.toLex_lt_toLex]
      refine .inl ?_
      simp only [index, hindex, hn]
      omega

theorem hb_data_callback (hs : e.stmt = .callback i) (h : S.has e.op e.rank (.data i di j)) :
    Hb (e.other e.rank (.data i di j) h) e :=
  hb_order (.data i di j) hs h .callback

theorem read_received (hs : e.stmt = .copyOut i j) :
    ∃ a : Event S, target a = some (.received e.rank i j) ∧ a.op = e.op ∧ Hb a e := by
  have hhas := e.has
  rw [hs] at hhas
  obtain ⟨di, hin⟩ := exists_hasElement hhas.2
  have hsend : e.rank ∈ S.sendRanks e.op i := mem_recvRanks_iff.1 hhas.1
  refine ⟨e.other i (.data e.rank di j) ⟨hsend, hhas.2, hin⟩, rfl, rfl, ?_⟩
  calc Hb (e.other i (.data e.rank di j) ⟨hsend, hhas.2, hin⟩)
        (e.other i (.callback e.rank) hsend) :=
        hb_data_callback (e := e.other i (.callback e.rank) hsend) rfl _
    Hb _ (e.other e.rank (.waitRecv i) hhas.1) :=
        hb_callback_waitRecv (e := e.other e.rank (.waitRecv i) hhas.1) rfl hsend
    Hb _ e := hb_sub (.waitRecv i) hs hhas.1 rfl rfl (by decide : 0 < 1) rfl rfl

/-- What a rank copies from its proxy has been written there. -/
theorem read_proxied {source proxy : Fin size} (hs : e.stmt = .proxyCopy source proxy j) :
    ∃ a : Event S, target a = some (.received proxy source j) ∧ a.op = e.op ∧ Hb a e := by
  have hhas := e.has
  rw [hs] at hhas
  obtain ⟨hkind, hproxy, hj⟩ := hhas
  obtain ⟨di, hin⟩ := exists_hasElement hj
  have hinfo := S.nodes.mem_proxyDestinationInfo_iff.mp hproxy
  have hsend : proxy ∈ S.sendRanks e.op source := mem_sendRanks_of_proxyInfo hkind hinfo
  refine ⟨e.other source (.data proxy di j) ⟨hsend, hj, hin⟩, rfl, rfl, ?_⟩
  calc Hb (e.other source (.data proxy di j) ⟨hsend, hj, hin⟩)
        (e.other source (.callback proxy) hsend) :=
        hb_data_callback (e := e.other source (.callback proxy) hsend) rfl _
    Hb _ (e.other source (.completeStepValue proxy) hsend) :=
        hb_of_before (.order rfl rfl .signal)
    Hb _ (e.other proxy (.forward source e.rank) ⟨hkind, hinfo⟩) :=
        hb_forward _ (e := e.other proxy (.forward source e.rank) ⟨hkind, hinfo⟩) rfl rfl hsend
    Hb _ e := by
        refine hb_wait (.proxyReady e.rank source) ?_ rfl rfl
        simp only [waits, hs]

theorem read_sendBuffer (hs : e.stmt = .data i di j) :
    ∃ a : Event S, target a = some (.sendBuffer e.rank (S.sendRow e.op e.rank i) j) ∧
      a.op = e.op ∧ Hb a e := by
  have hhas := e.has
  rw [hs] at hhas
  have hdyn : Hb (e.other e.rank (.waitDyn i) hhas.1) e := hb_data hs hhas.1
  unfold sendRow
  by_cases hkind : S.isReduce e.op = true
  · rw [if_pos hkind]
    have hreduce : S.has e.op e.rank (.reduceSend i j) := ⟨hkind, hhas.1, hhas.2.1⟩
    refine ⟨e.other e.rank (.reduceSend i j) hreduce, rfl, rfl, .trans ?_ hdyn⟩
    exact hb_sub (e := e.other e.rank (.waitDyn i) hhas.1) (.reduceSend i j) rfl hreduce rfl rfl
      (by decide : 1 < 2) rfl rfl
  · rw [if_neg hkind]
    have hcopy : S.has e.op e.rank (.copyIn j) := ⟨by simpa using hkind, hhas.2.1⟩
    refine ⟨e.other e.rank (.copyIn j) hcopy, rfl, rfl, .trans ?_ hdyn⟩
    exact hb_earlier (e := e.other e.rank (.waitDyn i) hhas.1) (.copyIn j) rfl hcopy
      (by decide : 6 < 8) rfl rfl (.inl rfl)

theorem read_part (hs : e.stmt = .reduceOut j)
    (hp : (p = e.rank ∨ p ∈ S.ipcRanks e.rank) ∨ p ∈ S.recvRanks e.op e.rank) :
    ∃ a : Event S, target a = some (.part e.rank e.rank p j) ∧ a.op = e.op ∧ Hb a e := by
  have hhas := e.has
  rw [hs] at hhas
  obtain hp | hp := hp
  · have hread : S.has e.op e.rank (.read p j) := ⟨hhas.1, hp, hhas.2⟩
    exact ⟨e.other e.rank (.read p j) hread, rfl, rfl,
      hb_earlier (.read p j) hs hread (by decide : 9 < 14) rfl rfl (.inl rfl)⟩
  · have hcopy : S.has e.op e.rank (.copyOut p j) := ⟨hp, hhas.2⟩
    refine ⟨e.other e.rank (.copyOut p j) hcopy, ?_, rfl,
      hb_earlier (.copyOut p j) hs hcopy (by decide : 13 < 14) rfl rfl (.inl rfl)⟩
    have hkind : S.isReduce e.op = true := hhas.1
    simp only [target, other, hkind, if_true]

theorem turn_outputCell_done (hs : e.stmt = .done) (ha : a.stmt = S.outputStmt e.op e.rank row j)
    (hop : a.op = e.op) : turn S a (S.outputCell e.op e.rank row j) =
      turn S e (S.outputCell e.op e.rank row j) := by
  unfold outputCell
  split_ifs with hplace
  · rw [outputStmt, if_pos (isReduce_of_inPlace hplace)] at ha
    simp only [turn, inputPhase, hs, ha, hop]
  · simp only [turn, hop]

theorem read_waits (h : waits e = some cell) :
    ∃ a : Event S, target a = some cell ∧ turn S a cell = turn S e cell ∧ Hb a e := by
  have hhas := e.has
  obtain ⟨v, i, hs, rfl⟩ | ⟨i, hs, rfl⟩ | ⟨source, destination, hs, hwait, rfl⟩ |
    ⟨source, proxy, j, hs, rfl⟩ | ⟨i, hs, rfl⟩ := waits_cases h <;> rw [hs] at hhas
  · have hturn : turn S (e.other i (.publish v) trivial) (.peerStepValue i) =
        turn S e (.peerStepValue i) := by
      simp [turn, stepPhase, other, hs]
    exact ⟨e.other i (.publish v) trivial, rfl, hturn, hb_wait _ h rfl hturn⟩
  · exact ⟨e.other i (.completeDyn e.rank) (mem_recvRanks_iff.2 hhas), rfl, rfl,
      hb_wait _ h rfl rfl⟩
  · exact ⟨e.other source (.completeStepValue e.rank)
      (mem_sendRanks_of_proxyInfo hhas.1 hhas.2), rfl, rfl, hb_wait _ h rfl rfl⟩
  · exact ⟨e.other proxy (.forward source e.rank)
      ⟨hhas.1, S.nodes.mem_proxyDestinationInfo_iff.mp hhas.2.1⟩, rfl, rfl, hb_wait _ h rfl rfl⟩
  · exact ⟨e.other i (.completeStepValue e.rank) (mem_recvRanks_iff.1 hhas), rfl, rfl,
      hb_wait _ h rfl rfl⟩

theorem read_input (h : ReadsInput e p row j) :
    ∃ a : Event S, target a = some (.input p row j) ∧
      turn S a (.input p row j) = turn S e (.input p row j) ∧ Hb a e := by
  have hspec := h.spec
  refine ⟨e.other p (.fill row j) hspec.fill, rfl, ?_, ?_⟩
  · rw [turn, turn, hspec.phase, inputPhase_of_fill rfl]
    rfl
  · obtain hrank | ⟨hp, hstage⟩ := hspec.rank
    · subst hrank
      exact hb_earlier (.fill row j) rfl hspec.fill hspec.after rfl hspec.isLocal (.inl rfl)
    · exact hb_published (.inr hp) hspec.fill (by decide : 1 < 5) rfl rfl hstage hspec.isLocal

/-- A statement reads what was written for its work. -/
theorem read_after (h : cell ∈ (graph S).reads e) :
    ∃ a : Event S, target a = some cell ∧ turn S a cell = turn S e cell ∧ Hb a e := by
  have hhas := e.has
  -- what it waits for, and what it takes
  obtain h | h := h
  · exact read_waits h
  cases h with
  | @outDyn i hs =>
    rw [hs] at hhas
    exact ⟨e.other e.rank (.setDyn i) hhas, rfl, rfl, hb_order (.setDyn i) hs hhas .completeDyn⟩
  | @outStepValue i hs =>
    rw [hs] at hhas
    refine ⟨e.other e.rank .setStepValue trivial, rfl, rfl, .trans ?_ (hb_signal hs hhas)⟩
    exact hb_earlier (e := e.other e.rank (.waitDyn i) hhas) .setStepValue rfl trivial
      (by decide : 2 < 8) rfl rfl (.inl rfl)
  | @addresses p hlook =>
    obtain ⟨hp, hlocal, hstage, -⟩ := hlook.spec
    exact ⟨e.other p .setAddresses trivial, rfl, rfl,
      hb_published (.inr hp) _ (by decide : 4 < 5) rfl rfl hstage hlocal⟩
  | @peerStepValue p hlook =>
    obtain ⟨hp, hlocal, hstage, -⟩ := hlook.spec
    refine ⟨e.other p (.publish 0) trivial, rfl, ?_, ?_⟩
    · rw [turn, turn, hlook.stepPhase_eq, stepPhase_of_publish rfl]
      rfl
    · have hwait : Hb (e.other p (.publish 0) trivial) (e.other e.rank (.waitPeer 0 p) hp) :=
        hb_wait (.peerStepValue p) rfl rfl rfl
      exact hwait.trans (hb_earlier (.waitPeer 0 p) rfl hp hstage rfl hlocal (.inl rfl))
  | input hread => exact read_input hread
  | sendBuffer hs =>
    obtain ⟨a, ha, hop, hab⟩ := read_sendBuffer hs
    exact ⟨a, ha, by simp only [turn, hop], hab⟩
  | proxied hs =>
    obtain ⟨a, ha, hop, hab⟩ := read_proxied hs
    exact ⟨a, ha, by simp only [turn, hop], hab⟩
  | received hs =>
    obtain ⟨a, ha, hop, hab⟩ := read_received hs
    exact ⟨a, ha, by simp only [turn, hop], hab⟩
  | @partSend i p j hs hp =>
    rw [hs] at hhas
    have hread : S.has e.op e.rank (.readSend i p j) := ⟨hhas.1, hhas.2.1, hp, hhas.2.2⟩
    exact ⟨e.other e.rank (.readSend i p j) hread, rfl, rfl,
      hb_sub (.readSend i p j) hs hread rfl rfl (by decide : 0 < 1) rfl rfl⟩
  | part hs hp =>
    obtain ⟨a, ha, hop, hab⟩ := read_part hs hp
    exact ⟨a, ha, by simp only [turn, hop], hab⟩
  | @output row j hs hout =>
    obtain ⟨hstage, hlocal⟩ := outputStmt_local e.op e.rank row j
    refine ⟨e.other e.rank _ (has_outputStmt hout), target_outputStmt rfl hout,
      turn_outputCell_done hs rfl rfl, ?_⟩
    exact hb_earlier _ hs _ (hstage.trans (by decide : 15 < 17)) hlocal rfl (.inr rfl)

/-! ## What is written later -/

theorem hb_waitDyn_of_receiver (h : q ∈ S.sendRanks a.op a.rank)
    (hbefore : ∀ x : Event S, x.rank = q → x.op = a.op → Hb b x) :
    Hb b (a.other a.rank (.waitDyn q) h) := by
  have hrecv : a.rank ∈ S.recvRanks a.op q := mem_recvRanks_iff.2 h
  have hcomplete := hbefore (a.other q (.completeDyn a.rank) hrecv) rfl rfl
  exact hcomplete.trans (hb_waitDyn (e := a.other a.rank (.waitDyn q) h) rfl hrecv)

theorem hb_write_inStepValue (ha : target a = some (.inStepValue q i))
    (hbefore : ∀ x : Event S, x.rank = q → x.op = a.op → Hb b x) : Hb b a := by
  have hhas := a.has
  have hs := writes_of_target ha
  rw [hs] at hhas
  exact (hb_waitDyn_of_receiver hhas hbefore).trans (hb_signal hs hhas)

theorem hb_write_received (ha : target a = some (.received q i j))
    (hbefore : ∀ x : Event S, x.rank = q → x.op = a.op → Hb b x) : Hb b a := by
  have hhas := a.has
  obtain ⟨di, hs⟩ := writes_of_target ha
  rw [hs] at hhas
  exact (hb_waitDyn_of_receiver hhas.1 hbefore).trans (hb_data hs hhas.1)

theorem hb_waitPeer_later (hs : b.stmt = .waitPeer v i) (hrank : a.rank = i)
    (hop : b.op + 1 < a.op) : Hb b a := by
  have hhas := b.has
  rw [hs] at hhas
  let next : Event S := ⟨b.op + 1, b.rank, .enter, hop.trans a.op_lt, trivial⟩
  have hnext : Hb b next := hb_of_op_lt (Nat.lt_succ_self _) rfl
  exact hnext.trans (hb_peer (ipcRanks_symm hhas) hrank hop (by decide : 0 < 15) rfl)

theorem read_before_waits (h : waits b = some cell) (ha : target a = some cell)
    (hlt : latest S b cell < turn S a cell) : Hb b a := by
  have hhas := b.has
  have hrank := rank_eq_owner ha
  have hphase := stepPhase_le a
  obtain ⟨v, i, hs, rfl⟩ | ⟨i, hs, rfl⟩ | ⟨source, destination, hs, hwait, rfl⟩ |
    ⟨source, proxy, j, hs, rfl⟩ | ⟨i, hs, rfl⟩ := waits_cases h <;>
    rw [hs] at hhas <;> simp only [latest, turn, hs] at hlt
  · have hlength : a.op < S.length := a.op_lt
    by_cases hv : v.val = 0
    · rw [if_pos hv] at hlt
      obtain rfl : v = 0 := Fin.ext hv
      refine hb_peer (ipcRanks_symm hhas) hrank (by omega) ?_ ?_ <;> rw [hs]
      · exact (by decide : 7 < 15)
      · rfl
    -- at the end of a work the slot may have a value of the next one already
    · rw [if_neg hv] at hlt
      exact hb_waitPeer_later hs hrank (by omega)
  · exact hb_waitDyn_later hs hrank (by omega)
  · exact hb_write_inStepValue ha fun x hx hop => hb_of_op_lt (by omega) hx.symm
  · have hinfo := S.nodes.mem_proxyDestinationInfo.mp hhas.2.1
    have hproxy := S.nodes.mem_proxyDestinationInfo_iff.mp hhas.2.1
    refine hb_peer (ipcRanks_symm (mem_ipcRanks_of_proxyInfo hproxy))
      (hrank.trans hinfo.2.1.symm) (by omega) ?_ ?_ <;> rw [hs]
    · exact (by decide : 12 < 15)
    · rfl
  · exact hb_write_inStepValue ha fun x hx hop => hb_of_op_lt (by omega) hx.symm

theorem read_before_input (h : ReadsInput b p row j) (ha : target a = some (.input p row j))
    (hlt : latest S b (.input p row j) < turn S a (.input p row j)) : Hb b a := by
  have hspec := h.spec
  have hrank : a.rank = p := rank_eq_owner ha
  have hphase := inputPhase_le a
  simp only [latest, turn, hspec.phase] at hlt
  obtain hop | hop := Nat.lt_or_eq_of_le (by omega : b.op ≤ a.op)
  · obtain hown | ⟨hp, -⟩ := hspec.rank
    · exact hb_of_op_lt hop (hown.symm.trans hrank.symm)
    · exact hb_peer (ipcRanks_symm hp) hrank hop (hspec.before.trans (by decide)) hspec.isLocal
  · -- in the same work it can only be overwritten by the output of its rank
    obtain hs | ⟨hs, hrow, hplace⟩ := writes_of_target ha
    · rw [inputPhase_of_fill hs] at hlt
      omega
    · rw [← hop] at hplace
      have hown := hspec.own (isReduce_of_inPlace hplace) (hrow.trans hrank)
      refine hb_of_before (.order hop (hown.symm.trans hrank.symm) ?_)
      rw [hs]
      exact .stage hspec.before hspec.isLocal rfl (.inr rfl)

/-- What a rank has read is written again only after it has gone on. -/
theorem read_before (h : cell ∈ (graph S).reads b) (ha : target a = some cell)
    (hlt : latest S b cell < turn S a cell) : Hb b a := by
  have hhas := b.has
  have hrank := rank_eq_owner ha
  -- what it waits for, and what it takes
  obtain h | h := h
  · exact read_before_waits h ha hlt
  cases h with
  | outDyn hs | outStepValue hs | sendBuffer hs | partSend hs hp | part hs hp =>
    exact hb_of_op_lt (by simp only [latest, turn] at hlt; omega) hrank.symm
  | addresses hlook =>
    obtain ⟨hp, hlocal, -, hstage⟩ := hlook.spec
    exact hb_peer (ipcRanks_symm hp) hrank (by simp only [latest, turn] at hlt; omega) hstage hlocal
  | peerStepValue hlook =>
    obtain ⟨hp, hlocal, -, hstage⟩ := hlook.spec
    have hphase := stepPhase_le a
    rw [hlook.latest_eq, turn] at hlt
    exact hb_peer (ipcRanks_symm hp) hrank (by omega) hstage hlocal
  | input hread => exact read_before_input hread ha hlt
  | proxied hs =>
    rw [hs] at hhas
    simp only [latest, turn] at hlt
    have hproxy := S.nodes.mem_proxyDestinationInfo_iff.mp hhas.2.1
    refine hb_write_received ha fun x hx hop => ?_
    refine hb_peer (ipcRanks_symm (mem_ipcRanks_of_proxyInfo hproxy)) hx (by omega)
      ?_ ?_ <;> rw [hs]
    · exact (by decide : 12 < 15)
    · rfl
  | received hs =>
    simp only [latest, turn] at hlt
    exact hb_write_received ha fun x hx hop => hb_of_op_lt (by omega) hx.symm
  | @output row j hs hout =>
    rw [outputCell_owner] at hrank
    refine hb_of_op_lt ?_ hrank.symm
    have hphase := inputPhase_le a
    unfold outputCell at hlt
    split_ifs at hlt
    · simp only [latest, turn, inputPhase, hs] at hlt
      unfold inputPhase at hphase
      omega
    · simp only [latest, turn] at hlt
      omega

end Hb

end Collective
