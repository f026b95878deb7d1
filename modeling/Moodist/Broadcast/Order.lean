import Moodist.Broadcast.Defs

/-!
# The order of the statements of broadcasts

No buffer, slot or tensor is written for a later broadcast before all have read what they need of an
earlier one, and each statement reads what was written for its own.
-/

namespace Broadcast

open Foundation Works.Event Option

variable {size : ℕ}

/-! ## Turns -/

section Turns

variable (S : Setup size) {s s' : Stmt size S.devices S.capacity}

/-- Whether a tensor is used after it has got the data of the source. The tensor of the source has
them from the start. -/
def tensorPhase (e : Event S) (q : Fin size) : ℕ :=
  match e.stmt with
  | .copyOut _ _ _ => 1
  | .vmcopy _ => if q = S.source e.op then 0 else 1
  | .done => if q = S.source e.op then 0 else 1
  | _ => 0

def stepPhase (e : Event S) : ℕ :=
  match e.stmt with
  | .publish v => v
  | .waitPeer _ => 1
  | _ => 0

def turn (e : Event S) : SetupCell S → ℕ
  | .tensor q _ => 2 * e.op + tensorPhase S e q
  | .peerStepValue _ => 2 * e.op + stepPhase S e
  | _ => 2 * e.op

/-- A rank that waits for the end of a work may see the step values of the next one. -/
def latest (e : Event S) : SetupCell S → ℕ
  | .tensor _ _ =>
    match e.stmt with
    | .copyIn _ => 2 * e.op
    | _ => 2 * e.op + 1
  | .peerStepValue _ =>
    match e.stmt with
    | .waitPeer _ => min (2 * e.op + 3) (2 * S.length - 1)
    | _ => 2 * e.op + 1
  | _ => 2 * e.op

def content : ∀ c : SetupCell S, ℕ → c.Val
  | .outStepValue _, t => S.stepValue (t / 2)
  | .outDyn _, t => S.dyn (t / 2)
  | .inDyn _ _, t => S.dyn (t / 2)
  | .inStepValue _ _ _ _, t => S.stepValue (t / 2)
  | .addresses _, t => (⟨t / 2, S.bytes (t / 2)⟩ : CpuAddresses)
  | .peerStepValue _, t => S.stepValue (t / 2) + UInt32.ofNat (t % 2)
  | .temporary _ j, t => S.input (t / 2) (S.source (t / 2)) j
  | .tensor r j, t => S.input (t / 2) (if t % 2 = 0 then r else S.source (t / 2)) j

/-- Pieces go along the ring, and the chunks one after the other. -/
def line (k : ℕ) (r : Fin size) (s : Stmt size S.devices S.capacity) : ℕ ×ₗ ℕ ×ₗ ℕ ×ₗ ℕ :=
  match s with
  | .visit _ c => toLex (8, toLex (S.ring.position (S.source k) r, toLex ((c : ℕ), 0)))
  | .data _ c _ => toLex (8, toLex (S.ring.position (S.source k) r, toLex ((c : ℕ), 1)))
  | .copyOut _ c _ => toLex (8, toLex (S.ring.position (S.source k) r, toLex ((c : ℕ), 1)))
  | .callback _ c => toLex (8, toLex (S.ring.position (S.source k) r, toLex ((c : ℕ), 2)))
  | .completeStepValue _ c => toLex (8, toLex (S.ring.position (S.source k) r, toLex ((c : ℕ), 3)))
  | .waitPeer i => toLex (13, toLex ((S.ring.ipcRanks r).idxOf i, toLex (0, 0)))
  | s => toLex (s.stage, toLex (0, toLex (0, 0)))

def turns : EventGraph.Turns (Event S) (CellVal S) (ℕ ×ₗ ℕ ×ₗ ℕ ×ₗ ℕ ×ₗ ℕ) where
  turn := turn S
  latest := latest S
  content := content S
  before := Works.Before
  label := Works.label (line S)

theorem line_lt_of_stage {k : ℕ} {r r' : Fin size}
    (h : s.stage < s'.stage) : line S k r s < line S k r' s' := by
  have hstage : ∀ (r : Fin size) (s : Stmt size S.devices S.capacity),
      (ofLex (line S k r s)).1 = s.stage := by
    intro r s
    cases s <;> rfl
  rw [Prod.Lex.lt_iff, hstage, hstage]
  exact .inl h

theorem Order.line_lt {k : ℕ} {r : Fin size}
    (h : Order S r s s') : line S k r s < line S k r s' := by
  cases h with
  | enter hne =>
    refine line_lt_of_stage S ?_
    cases s' with
    | enter => exact absurd rfl hne
    | publish v => simp only [Stmt.stage]; split_ifs <;> decide
    | _ => exact Nat.succ_pos _
  | stage hlt _ _ => exact line_lt_of_stage S hlt
  | completeDyn => exact line_lt_of_stage S (by decide : 5 < 6)
  | visit hlt | copied hlt | waitPeer hlt => simp [line, Prod.Lex.toLex_lt_toLex, hlt]
  | copyOut | data | callback | signal | empty => simp [line, Prod.Lex.toLex_lt_toLex]

end Turns

/-! ## What happens before what -/

section Hb

variable {S : Setup size} {a b e : Event S} {r q p : Fin size} {cell : SetupCell S}
  {di : Fin S.devices} {c : Fin numChunks} {j : Fin S.capacity}

abbrev Hb (a b : Event S) : Prop := (graph S).Hb (turns S) a b

theorem hb_of_before (h : Works.Before a b) : Hb a b := .single (.before h)

theorem hb_of_op_lt (hop : a.op < b.op) (hrank : a.rank = b.rank) : Hb a b :=
  (Works.before_of_op_lt hop hrank).lift id fun _ _ h => .before h

theorem hb_order (hop : a.op = b.op) (hrank : a.rank = b.rank)
    (h : Order S b.rank a.stmt b.stmt) : Hb a b :=
  hb_of_before (.order hop hrank h)

theorem hb_stage (hop : a.op = b.op) (hrank : a.rank = b.rank) (h : a.stmt.stage < b.stmt.stage)
    (ha : a.stmt.isLocal = true) (hb : b.stmt.isLocal = true) : Hb a b :=
  hb_order hop hrank (.stage h ha hb)

variable {s s' : Stmt size S.devices S.capacity}

/-- An earlier statement of the same rank. -/
theorem hb_earlier (hs : e.stmt = s')
    (h : S.has e.op e.rank s) (hstage : s.stage < s'.stage) (hlocal : s.isLocal = true)
    (hlocal' : s'.isLocal = true) : Hb (e.other e.rank s h) e :=
  hb_stage rfl rfl (hs ▸ hstage) hlocal (hs ▸ hlocal')

theorem hb_later (hs : S.has e.op r s)
    (hs' : S.has e.op r s') (h : s.stage < s'.stage) (hlocal : s.isLocal = true)
    (hlocal' : s'.isLocal = true) : Hb (e.other r s hs) (e.other r s' hs') :=
  hb_stage rfl rfl h hlocal hlocal'

theorem hb_wait (cell : SetupCell S) (hb : waits b = some cell) (ha : target a = some cell)
    (hturn : turn S a cell = turn S b cell) : Hb a b :=
  .single (.wait hb ha hturn)

theorem Setup.sendTo_eq_iff (k : ℕ) (h : q ≠ r) : S.sendTo k r = q ↔ S.recvFrom k q = r :=
  S.ring.sendTo_eq_iff h

variable {k : ℕ}

theorem Setup.recvFrom_sendTo (h : S.sendTo k r ≠ r) : S.recvFrom k (S.sendTo k r) = r :=
  (S.sendTo_eq_iff k h).mp rfl

theorem Setup.recvFrom_sendTo_ne (h : S.sendTo k r ≠ r) :
    S.recvFrom k (S.sendTo k r) ≠ S.sendTo k r := by
  rw [S.recvFrom_sendTo h]
  exact h.symm

variable (h : S.recvFrom k r ≠ r)

include h

theorem Setup.sendTo_recvFrom : S.sendTo k (S.recvFrom k r) = r :=
  (S.sendTo_eq_iff k h.symm).mpr rfl

theorem Setup.sendTo_recvFrom_ne :
    S.sendTo k (S.recvFrom k r) ≠ S.recvFrom k r := by
  rw [S.sendTo_recvFrom h]
  exact h.symm

theorem Setup.ne_source : r ≠ S.source k := by
  rintro rfl
  exact h (S.ring.recvFrom_source _)

omit h

theorem Setup.exists_hasByte (hc : c < S.chunks k) (h : 0 < S.pieceBytes k di c) :
    ∃ j, S.HasByte k di c j := by
  have hin : InPiece (S.bytes k) S.devices di c (sendOffset (S.bytes k) S.devices di c) :=
    ⟨le_rfl, Nat.lt_add_of_pos_right h⟩
  have hlt := (hin.lt_bytes di.isLt).trans_le (S.bytes_le k)
  exact ⟨⟨_, hlt⟩, hc, hin⟩

theorem Setup.pieceBytes_pos (h : S.HasByte k di c j) : 0 < S.pieceBytes k di c := by
  have hin := h.2
  unfold InPiece at hin
  unfold pieceBytes
  omega

theorem Setup.mustWait_sendTo (h : S.sendTo k r ≠ r) (hpos : 0 < S.pieceBytes k di c) :
    S.MustWait k (S.sendTo k r) di c :=
  .inr ⟨hpos, S.ne_source (S.recvFrom_sendTo_ne h)⟩

theorem waits_visit (hs : e.stmt = .visit di c) (h : S.MustWait e.op e.rank di c) :
    waits e = some (.inStepValue e.rank (S.source e.op) di c) := by
  unfold waits
  rw [hs]
  exact if_pos h

/-- The piece with a byte has been sent before the next rank goes on with it. -/
theorem hb_data_visit (hs : a.stmt = .data di c j) (hrank : b.rank = S.sendTo a.op a.rank)
    (hop : a.op = b.op) (hs' : b.stmt = .visit di c) : Hb a b := by
  have hhas := a.has
  rw [hs] at hhas
  have hpos := S.pieceBytes_pos hhas.2
  have hwait : S.MustWait b.op b.rank di c := by
    rw [← hop, hrank]
    exact S.mustWait_sendTo hhas.1 hpos
  calc Hb a (a.other a.rank (.callback di c) ⟨hhas.1, hhas.2.1, hpos⟩) := by
        refine hb_order rfl rfl ?_
        rw [hs]
        exact .callback
    Hb _ (a.other a.rank (.completeStepValue di c) ⟨hhas.1, hhas.2.1⟩) := hb_order rfl rfl .signal
    Hb _ b := by
        refine hb_wait _ (waits_visit hs' hwait) ?_ ?_
        · rw [hrank, ← hop]
          rfl
        · simp [turn, other, hop]

section

variable (hs : a.stmt = .visit di c) (hsend : S.sendTo a.op a.rank ≠ a.rank)
  (hpos : 0 < S.pieceBytes a.op di c) (hrank : b.rank = S.sendTo a.op a.rank)

include hs hsend hpos hrank

theorem hb_visit_next (hop : a.op = b.op) (hs' : b.stmt = .visit di c) : Hb a b := by
  have hhas := a.has
  rw [hs] at hhas
  obtain ⟨j, hj⟩ := S.exists_hasByte hhas.2 hpos
  have hdata : Hb a (a.other a.rank (.data di c j) ⟨hsend, hj⟩) := by
    refine hb_order rfl rfl ?_
    rw [hs]
    exact .data
  exact hdata.trans (hb_data_visit rfl hrank hop hs')

/-- What is sent to a rank is awaited there, so it comes before the later works of that rank. -/
theorem hb_visit_later (hop : a.op < b.op) : Hb a b := by
  have hhas := a.has
  rw [hs] at hhas
  have hloop : S.InLoop a.op (S.sendTo a.op a.rank) := .inr (S.recvFrom_sendTo_ne hsend)
  have hvisit : Hb a (a.other (S.sendTo a.op a.rank) (.visit di c) ⟨hloop, hhas.2⟩) :=
    hb_visit_next hs hsend hpos rfl rfl rfl
  exact hvisit.trans (hb_of_op_lt hop hrank.symm)

end

/-- The receiver tells the rank before it that it has entered. -/
theorem target_completeDyn (hsend : S.sendTo e.op e.rank ≠ e.rank) :
    target (e.other (S.sendTo e.op e.rank) .completeDyn (S.recvFrom_sendTo_ne hsend)) =
      some (.inDyn e.rank (S.sendTo e.op e.rank)) := by
  simp only [target, other]
  rw [S.recvFrom_sendTo hsend]

theorem hb_waitDyn (hsend : S.sendTo e.op e.rank ≠ e.rank) :
    Hb (e.other (S.sendTo e.op e.rank) .completeDyn (S.recvFrom_sendTo_ne hsend))
      (e.other e.rank .waitDyn hsend) :=
  hb_wait (.inDyn e.rank (S.sendTo e.op e.rank)) rfl (target_completeDyn hsend) rfl

theorem hb_visit_of_next (hs : b.stmt = .visit di c) (hsend : S.sendTo b.op b.rank ≠ b.rank)
    (hrank : a.rank = S.sendTo b.op b.rank) (hop : a.op < b.op) : Hb a b := by
  have hrecv := S.recvFrom_sendTo_ne hsend
  calc Hb a (b.other (S.sendTo b.op b.rank) .completeDyn hrecv) := hb_of_op_lt hop hrank
    Hb _ (b.other b.rank .waitDyn hsend) := hb_waitDyn hsend
    Hb _ b := hb_earlier hs _ (by decide : 7 < 8) rfl rfl

theorem hb_peer (hs : a.stmt = s) (hp : a.rank ∈ S.ring.ipcRanks p) (hrank : b.rank = p)
    (hop : a.op < b.op) (hstage : s.stage < 12) (hlocal : s.isLocal = true) : Hb a b := by
  calc Hb a (a.other a.rank (.publish 1) trivial) :=
        hb_stage rfl rfl (hs ▸ hstage) (hs ▸ hlocal) rfl
    Hb _ (a.other p (.waitPeer a.rank) hp) :=
        hb_wait (.peerStepValue a.rank) rfl rfl rfl
    Hb _ b := hb_of_op_lt hop hrank.symm

/-! ## Who writes a cell -/

/-- The statement that writes a cell, and its rank; tensors are below. -/
def Writes (e : Event S) : SetupCell S → Prop
  | .outStepValue q => e.rank = q ∧ e.stmt = .setStepValue
  | .outDyn q => e.rank = q ∧ e.stmt = .setDyn
  | .inDyn q r => e.stmt = .completeDyn ∧ e.rank = r ∧ S.recvFrom e.op e.rank = q
  | .inStepValue q s di c =>
    e.stmt = .completeStepValue di c ∧ S.sendTo e.op e.rank = q ∧ S.source e.op = s
  | .addresses q => e.rank = q ∧ e.stmt = .setAddresses
  | .peerStepValue q => e.rank = q ∧ ∃ v, e.stmt = .publish v
  | .temporary q j =>
    (e.stmt = .copyIn j ∧ e.rank = q) ∨ ∃ di c, e.stmt = .data di c j ∧ S.sendTo e.op e.rank = q
  | .tensor _ _ => True

theorem writes_of_target (h : target e = some cell) : Writes e cell := by
  unfold target at h
  split at h <;> grind [Writes]

theorem tensorPhase_le (e : Event S) (q : Fin size) : tensorPhase S e q ≤ 1 := by
  unfold tensorPhase
  split <;> (try split_ifs) <;> omega

theorem stepPhase_le (e : Event S) : stepPhase S e ≤ 1 := by
  unfold stepPhase
  split <;> omega

theorem turn_div (e : Event S) (cell : SetupCell S) : turn S e cell / 2 = e.op := by
  have htensor := tensorPhase_le e
  have hstep := stepPhase_le e
  cases cell with
  | tensor q j =>
    have hq := htensor q
    simp only [turn]
    omega
  | peerStepValue q =>
    simp only [turn]
    omega
  | _ => exact Nat.mul_div_cancel_left _ (by decide)

theorem op_eq_of_turn (h : turn S a cell = turn S b cell) : a.op = b.op := by
  rw [← turn_div a cell, h, turn_div]

theorem op_le_of_turn (h : turn S a cell ≤ turn S b cell) : a.op ≤ b.op := by
  rw [← turn_div a cell, ← turn_div b cell]
  exact Nat.div_le_div_right h

theorem Setup.not_inLoop_of_copyFrom (h : S.copyFrom k r = some p) : ¬ S.InLoop k r := by
  obtain ⟨-, hne, hrecv, -⟩ := S.ring.copyFrom_spec h
  rintro (hsend | hrecv')
  · exact S.ring.recvFrom_of_sendTo hsend hne hrecv
  · exact hrecv' hrecv

theorem Setup.HasByte.unique {di' : Fin S.devices} {c' : Fin numChunks} (h : S.HasByte k di c j)
    (h' : S.HasByte k di' c' j) : di = di' ∧ c = c' := by
  obtain ⟨hdi, hc⟩ := h.2.unique h'.2 di.isLt di'.isLt
  exact ⟨Fin.ext hdi, Fin.ext hc⟩

theorem Setup.recvFrom_eq (hsend : S.sendTo k r ≠ r) (hq : S.sendTo k r = q) :
    S.recvFrom k q = r := by
  rw [← hq]
  exact S.recvFrom_sendTo hsend

/-- A tensor is set by the user first, and then gets the data of the source. -/
theorem target_tensor (h : target e = some (.tensor q j)) : e.rank = q ∧
    ((e.stmt = .fill j ∧ tensorPhase S e q = 0) ∨
      (∃ di c, e.stmt = .copyOut di c j ∧ S.InLoop e.op e.rank ∧ S.HasByte e.op di c j ∧
        tensorPhase S e q = 1) ∨
      (e.stmt = .vmcopy j ∧ (∃ p, S.copyFrom e.op e.rank = some p) ∧ tensorPhase S e q = 1)) := by
  have hhas := e.has
  cases hs : e.stmt <;> simp only [target, hs, some.injEq, Cell.tensor.injEq, reduceCtorEq] at h
  case fill j =>
    obtain ⟨rfl, rfl⟩ := h
    exact ⟨rfl, .inl ⟨rfl, by simp [tensorPhase, hs]⟩⟩
  case copyOut di c j =>
    obtain ⟨rfl, rfl⟩ := h
    rw [hs] at hhas
    exact ⟨rfl, .inr (.inl ⟨di, c, rfl, hhas.1, hhas.2, by simp [tensorPhase, hs]⟩)⟩
  case vmcopy j =>
    obtain ⟨rfl, rfl⟩ := h
    rw [hs] at hhas
    obtain ⟨⟨p, hp⟩, -⟩ := hhas
    have hne : e.rank ≠ S.source e.op := (S.ring.copyFrom_spec hp).2.1
    exact ⟨rfl, .inr (.inr ⟨rfl, ⟨p, hp⟩, by simp [tensorPhase, hs, hne]⟩)⟩

variable (ha : target a = some cell) (hb : target b = some cell)

include ha hb

/-- Except for the buffers, a cell is always written by the same rank. -/
theorem rank_eq_of_target (hcell : ∀ q j, cell ≠ .temporary q j) : a.rank = b.rank := by
  have hhas := a.has
  have hhas' := b.has
  cases cell with
  | outStepValue q | outDyn q | addresses q | peerStepValue q =>
    exact (writes_of_target ha).1.trans (writes_of_target hb).1.symm
  | inDyn q r => exact (writes_of_target ha).2.1.trans (writes_of_target hb).2.1.symm
  | inStepValue q s di c =>
    obtain ⟨hs, hq, hsource⟩ := writes_of_target ha
    obtain ⟨hs', hq', hsource'⟩ := writes_of_target hb
    rw [hs] at hhas
    rw [hs'] at hhas'
    rw [← S.recvFrom_eq hhas.1 hq, ← S.recvFrom_eq hhas'.1 hq', Setup.recvFrom, Setup.recvFrom,
      hsource, hsource']
  | temporary q j => exact absurd rfl (hcell q j)
  | tensor q j => exact (target_tensor ha).1.trans (target_tensor hb).1.symm

theorem writer_unique (hturn : turn S a cell = turn S b cell) : a = b := by
  have hop := op_eq_of_turn hturn
  have hhas := a.has
  have hhas' := b.has
  cases cell with
  | outStepValue q | outDyn q | addresses q =>
    exact ext_of hop (rank_eq_of_target ha hb nofun)
      ((writes_of_target ha).2.trans (writes_of_target hb).2.symm)
  | inDyn q r | inStepValue q s di c =>
    exact ext_of hop (rank_eq_of_target ha hb nofun)
      ((writes_of_target ha).1.trans (writes_of_target hb).1.symm)
  | peerStepValue q =>
    obtain ⟨-, v, hs⟩ := writes_of_target ha
    obtain ⟨-, v', hs'⟩ := writes_of_target hb
    have hv : v = v' := by
      simp only [turn, stepPhase, hs, hs', hop] at hturn
      exact Fin.ext (by omega)
    exact ext_of hop (rank_eq_of_target ha hb nofun) (by rw [hs, hs', hv])
  | temporary q j =>
    -- a buffer is filled by its rank, if that is the source, or by the rank before it
    obtain ⟨hs, hq⟩ | ⟨di, c, hs, hq⟩ := writes_of_target ha <;>
      obtain ⟨hs', hq'⟩ | ⟨di', c', hs', hq'⟩ := writes_of_target hb <;>
      rw [hs] at hhas <;> rw [hs'] at hhas'
    · exact ext_of hop (hq.trans hq'.symm) (hs.trans hs'.symm)
    · refine absurd (hq.symm.trans hhas.1) ?_
      rw [hop, ← hq']
      exact S.ne_source (S.recvFrom_sendTo_ne hhas'.1)
    · refine absurd (hq'.symm.trans hhas'.1) ?_
      rw [← hop, ← hq]
      exact S.ne_source (S.recvFrom_sendTo_ne hhas.1)
    · have hrank : a.rank = b.rank := by
        rw [← S.recvFrom_eq hhas.1 hq, hop, S.recvFrom_eq hhas'.1 hq']
      have hbyte : S.HasByte b.op di c j := hop ▸ hhas.2
      obtain ⟨rfl, rfl⟩ := hbyte.unique hhas'.2
      exact ext_of hop hrank (hs.trans hs'.symm)
  | tensor q j =>
    obtain ⟨hrank, hs⟩ := target_tensor ha
    obtain ⟨hrank', hs'⟩ := target_tensor hb
    have heq := hrank.trans hrank'.symm
    have hphase : tensorPhase S a q = tensorPhase S b q := by
      simp only [turn, hop] at hturn
      omega
    obtain ⟨hs, hzero⟩ | ⟨di, c, hs, hloop, hbyte, hone⟩ | ⟨hs, ⟨p, hp⟩, hone⟩ := hs <;>
      obtain ⟨hs', hzero'⟩ | ⟨di', c', hs', hloop', hbyte', hone'⟩ | ⟨hs', ⟨p', hp'⟩, hone'⟩ := hs'
    · exact ext_of hop heq (hs.trans hs'.symm)
    · omega
    · omega
    · omega
    · rw [hop] at hbyte
      obtain ⟨rfl, rfl⟩ := hbyte.unique hbyte'
      exact ext_of hop heq (hs.trans hs'.symm)
    · rw [hop, heq] at hloop
      exact absurd hloop (S.not_inLoop_of_copyFrom hp')
    · omega
    · rw [hop, heq] at hp
      exact absurd hloop' (S.not_inLoop_of_copyFrom hp)
    · exact ext_of hop heq (hs.trans hs'.symm)

omit ha hb

/-- What a rank has done in a work comes before what is written there for a later one. -/
theorem hb_write_temporary (hb : target b = some (.temporary q j)) (hrank : a.rank = q)
    (hop : a.op < b.op) : Hb a b := by
  have hhas := b.has
  obtain ⟨hs, hq⟩ | ⟨di, c, hs, hq⟩ := writes_of_target hb <;> rw [hs] at hhas
  · exact hb_of_op_lt hop (hrank.trans hq.symm)
  · have hloop : S.InLoop b.op b.rank := .inl hhas.1
    have hvisit : Hb a (b.other b.rank (.visit di c) ⟨hloop, hhas.2.1⟩) :=
      hb_visit_of_next rfl hhas.1 (hrank.trans hq.symm) hop
    refine hvisit.trans (hb_order rfl rfl ?_)
    rw [hs]
    exact .data

theorem exists_arrival (ha : target a = some (.temporary q j)) :
    ∃ b : Event S, b.rank = q ∧ b.op = a.op ∧ (a = b ∨ Hb a b) := by
  have hhas := a.has
  obtain ⟨hs, hq⟩ | ⟨di, c, hs, hq⟩ := writes_of_target ha <;> rw [hs] at hhas
  · exact ⟨a, hq, rfl, .inl rfl⟩
  · have hnext : S.InLoop a.op (S.sendTo a.op a.rank) := .inr (S.recvFrom_sendTo_ne hhas.1)
    exact ⟨a.other (S.sendTo a.op a.rank) (.visit di c) ⟨hnext, hhas.2.1⟩, hq, rfl,
      .inr (hb_data_visit hs rfl rfl rfl)⟩

include ha hb

/-- Two writes in one work: the user fills the tensor first, and the step value comes before the
next one. -/
theorem write_hb_of_op_eq (hturn : turn S a cell < turn S b cell) (hop : a.op = b.op) :
    Hb a b := by
  cases cell with
  | tensor q j =>
    obtain ⟨hrank, hs⟩ := target_tensor ha
    obtain ⟨hrank', hs'⟩ := target_tensor hb
    have hphase : tensorPhase S a q < tensorPhase S b q := by
      simp only [turn, hop] at hturn
      omega
    have hle := tensorPhase_le b q
    -- there are two phases, and in the first one only the user writes
    have hfill : a.stmt = .fill j := by
      obtain ⟨hs, -⟩ | ⟨di, c, -, -, -, hone⟩ | ⟨-, -, hone⟩ := hs
      · exact hs
      · omega
      · omega
    have hdata : 1 < b.stmt.stage ∧ b.stmt.isLocal = true := by
      obtain ⟨-, hzero⟩ | ⟨di, c, hs, -⟩ | ⟨hs, -⟩ := hs'
      · omega
      · rw [hs]
        exact ⟨(by decide : 1 < 8), rfl⟩
      · rw [hs]
        exact ⟨(by decide : 1 < 11), rfl⟩
    refine hb_stage hop (hrank.trans hrank'.symm) ?_ ?_ hdata.2 <;> rw [hfill]
    · exact hdata.1
    · rfl
  | peerStepValue q =>
    obtain ⟨hrank, v, hs⟩ := writes_of_target ha
    obtain ⟨hrank', v', hs'⟩ := writes_of_target hb
    have hlt : (v : ℕ) < v' := by
      simp only [turn, stepPhase, hs, hs', hop] at hturn
      omega
    obtain rfl : v = 0 := Fin.ext (by omega)
    obtain rfl : v' = 1 := Fin.ext (by omega)
    refine hb_stage hop (hrank.trans hrank'.symm) ?_ ?_ ?_ <;>
      simp [hs, hs', Stmt.stage, Stmt.isLocal]
  | _ =>
    simp only [turn, hop] at hturn
    omega

theorem write_hb (hturn : turn S a cell < turn S b cell) : Hb a b := by
  obtain hop | hop := Nat.lt_or_eq_of_le (op_le_of_turn hturn.le)
  · by_cases hcell : ∃ q j, cell = .temporary q j
    · obtain ⟨q, j, rfl⟩ := hcell
      obtain ⟨x, hrank, hop', rfl | hax⟩ := exists_arrival ha
      · exact hb_write_temporary hb hrank hop
      · exact hax.trans (hb_write_temporary hb hrank (hop'.trans_lt hop))
    · refine hb_of_op_lt hop (rank_eq_of_target ha hb fun q j h => hcell ⟨q, j, h⟩)
  · exact write_hb_of_op_eq ha hb hturn hop

omit ha hb

/-! ## What a statement reads -/

theorem waits_cases (h : waits e = some cell) :
    (e.stmt = .waitDyn ∧ cell = .inDyn e.rank (S.sendTo e.op e.rank)) ∨
    (∃ di c, e.stmt = .visit di c ∧ S.MustWait e.op e.rank di c ∧
      cell = .inStepValue e.rank (S.source e.op) di c) ∨
    (∃ p, e.stmt = .waitProxy ∧ S.copyFrom e.op e.rank = some p ∧ cell = .peerStepValue p) ∨
    (∃ i, e.stmt = .waitPeer i ∧ cell = .peerStepValue i) := by
  unfold waits at h
  split at h <;> grind [map_eq_some_iff]

theorem takes_cases (h : cell ∈ takes e) : (∃ j, e.stmt = .copyIn j ∧ cell = .tensor e.rank j) ∨
    (e.stmt = .completeDyn ∧ cell = .outDyn e.rank) ∨
    (∃ di c, e.stmt = .visit di c ∧ S.sendTo e.op e.rank ≠ e.rank ∧ 0 < S.pieceBytes e.op di c ∧
      cell = .inDyn e.rank (S.sendTo e.op e.rank)) ∨
    (∃ di c j, (e.stmt = .data di c j ∨ e.stmt = .copyOut di c j) ∧
      cell = .temporary e.rank j) ∨
    (∃ di c, e.stmt = .completeStepValue di c ∧ cell = .outStepValue e.rank) ∨
    (∃ j p, e.stmt = .vmcopy j ∧ S.copyFrom e.op e.rank = some p ∧
      (cell = .addresses p ∨ cell = .tensor p j)) ∨
    (∃ j : Fin S.capacity, e.stmt = .done ∧ (j : ℕ) < S.bytes e.op ∧ cell = .tensor e.rank j) := by
  unfold takes at h
  split at h <;>
    simp only [Set.mem_singleton_iff, Set.mem_ofPred_eq, Set.mem_empty_iff_false] at h <;>
    grind

theorem Setup.recvFrom_of_inLoop (h : S.InLoop k r) (hne : r ≠ S.source k) : S.recvFrom k r ≠ r :=
  h.elim (fun hsend => S.ring.recvFrom_of_sendTo hsend hne) id

/-- The buffer has a byte before it is sent on or copied. -/
theorem read_temporary (hs : e.stmt = .data di c j ∨ e.stmt = .copyOut di c j) :
    ∃ a : Event S, target a = some (.temporary e.rank j) ∧ a.op = e.op ∧ Hb a e := by
  have hhas : S.InLoop e.op e.rank ∧ S.HasByte e.op di c j := by
    have hhas := e.has
    obtain hs | hs := hs <;> rw [hs] at hhas
    · exact ⟨.inl hhas.1, hhas.2⟩
    · exact hhas
  obtain ⟨hloop, hbyte⟩ := hhas
  have hvisit : Hb (e.other e.rank (.visit di c) ⟨hloop, hbyte.1⟩) e := by
    refine hb_order rfl rfl ?_
    obtain hs | hs := hs <;> rw [hs]
    · exact .data
    · exact .copyOut
  by_cases hsource : e.rank = S.source e.op
  · have hcopy : Hb (e.other e.rank (.copyIn j) ⟨hsource, hbyte.2.lt_bytes di.isLt⟩)
        (e.other e.rank (.visit di c) ⟨hloop, hbyte.1⟩) :=
      hb_later _ _ (by decide : 3 < 8) rfl rfl
    exact ⟨e.other e.rank (.copyIn j) _, rfl, rfl, hcopy.trans hvisit⟩
  · have hrecv := S.recvFrom_of_inLoop hloop hsource
    have hdata : Hb (e.other (S.recvFrom e.op e.rank) (.data di c j)
        ⟨S.sendTo_recvFrom_ne hrecv, hbyte⟩) (e.other e.rank (.visit di c) ⟨hloop, hbyte.1⟩) :=
      hb_data_visit rfl (S.sendTo_recvFrom hrecv).symm rfl rfl
    refine ⟨e.other (S.recvFrom e.op e.rank) (.data di c j) _, ?_, rfl, hdata.trans hvisit⟩
    simp only [target, other]
    rw [S.sendTo_recvFrom hrecv]

/-- What a rank does before it publishes the step value comes before a copy by another rank. -/
theorem hb_vmcopy (hs : e.stmt = .vmcopy j) (hp : S.copyFrom e.op e.rank = some p)
    (h : S.has e.op p s) (hstage : s.stage < 9) (hlocal : s.isLocal = true) :
    Hb (e.other p s h) e := by
  calc Hb (e.other p s h) (e.other p (.publish 0) trivial) := hb_later _ _ hstage hlocal rfl
    Hb _ (e.other e.rank .waitProxy ⟨p, hp⟩) := by
        refine hb_wait (.peerStepValue p) ?_ rfl rfl
        simp only [waits, other]
        rw [hp]
        rfl
    Hb _ e := hb_earlier hs _ (by decide : 10 < 11) rfl rfl

theorem hb_waitPeer_later {i : Fin size} (hs : b.stmt = .waitPeer i) (hrank : a.rank = i)
    (hop : b.op + 1 < a.op) : Hb b a := by
  have hhas := b.has
  rw [hs] at hhas
  let next : Event S := ⟨b.op + 1, b.rank, .enter, hop.trans a.op_lt, trivial⟩
  have hnext : Hb b next := hb_of_op_lt (Nat.lt_succ_self _) rfl
  exact hnext.trans (hb_peer rfl (S.ring.ipcRanks_symm hhas) hrank hop (by decide : 0 < 12) rfl)

section Positive

variable (hbytes : ∀ k < S.length, 0 < S.bytes k)

include hbytes

theorem exists_chunks (e : Event S) : Chunks (S.bytes e.op) (S.chunks e.op) := by
  obtain ⟨m, hm, hchunks⟩ := exists_visited (hbytes e.op e.op_lt)
  rwa [Setup.chunks, hm, getD_some]

theorem exists_hasByte_of_lt (e : Event S) (hj : (j : ℕ) < S.bytes e.op) :
    ∃ di c, S.HasByte e.op di c j := by
  have hchunks := exists_chunks hbytes e
  obtain ⟨di, hdi, c, hc, hin⟩ := exists_inPiece hchunks S.devices_pos hj
  exact ⟨⟨di, hdi⟩, ⟨c, hc.trans_le hchunks.le⟩, hc, hin⟩

theorem read_tensor_vmcopy (hs : e.stmt = .vmcopy j) (hp : S.copyFrom e.op e.rank = some p) :
    ∃ a : Event S, target a = some (.tensor p j) ∧
      turn S a (.tensor p j) = turn S e (.tensor p j) ∧ Hb a e := by
  have hhas := e.has
  rw [hs] at hhas
  obtain ⟨-, -, -, hfrom⟩ := S.ring.copyFrom_spec hp
  by_cases hsource : p = S.source e.op
  · refine ⟨e.other p (.fill j) hhas.2, rfl, ?_, hb_vmcopy hs hp _ (by decide : 1 < 9) rfl⟩
    simp [turn, tensorPhase, other, hs, hsource]
  · have hloop : S.InLoop e.op p := .inr (hfrom.resolve_left hsource)
    obtain ⟨di, c, hbyte⟩ := exists_hasByte_of_lt hbytes e hhas.2
    refine ⟨e.other p (.copyOut di c j) ⟨hloop, hbyte⟩, rfl, ?_,
      hb_vmcopy hs hp _ (by decide : 8 < 9) rfl⟩
    simp [turn, tensorPhase, other, hs, hsource]

theorem read_tensor_done (hs : e.stmt = .done) (hj : (j : ℕ) < S.bytes e.op) :
    ∃ a : Event S, target a = some (.tensor e.rank j) ∧
      turn S a (.tensor e.rank j) = turn S e (.tensor e.rank j) ∧ Hb a e := by
  by_cases hsource : e.rank = S.source e.op
  · refine ⟨e.other e.rank (.fill j) hj, rfl, ?_, hb_earlier hs _ (by decide : 1 < 14) rfl rfl⟩
    simp [turn, tensorPhase, other, hs, hsource]
  obtain hsource' | hrecv | ⟨p, hp⟩ := S.ring.cover (S.source e.op) e.rank
  · exact absurd hsource' hsource
  · obtain ⟨di, c, hbyte⟩ := exists_hasByte_of_lt hbytes e hj
    refine ⟨e.other e.rank (.copyOut di c j) ⟨.inr hrecv, hbyte⟩, rfl, ?_,
      hb_earlier hs _ (by decide : 8 < 14) rfl rfl⟩
    simp [turn, tensorPhase, other, hs, hsource]
  · refine ⟨e.other e.rank (.vmcopy j) ⟨⟨p, hp⟩, hj⟩, rfl, ?_,
      hb_earlier hs _ (by decide : 11 < 14) rfl rfl⟩
    simp [turn, tensorPhase, other, hs, hsource]

theorem read_after (h : cell ∈ (graph S).reads e) :
    ∃ a : Event S, target a = some cell ∧ turn S a cell = turn S e cell ∧ Hb a e := by
  have hhas := e.has
  obtain h | h := h
  -- what it waits for
  · obtain ⟨hs, rfl⟩ | ⟨di, c, hs, hwait, rfl⟩ | ⟨p, hs, hp, rfl⟩ | ⟨i, hs, rfl⟩ :=
      waits_cases h <;>
      rw [hs] at hhas
    · exact ⟨e.other (S.sendTo e.op e.rank) .completeDyn (S.recvFrom_sendTo_ne hhas),
        target_completeDyn hhas, rfl, hb_wait _ h (target_completeDyn hhas) rfl⟩
    · have hrecv : S.recvFrom e.op e.rank ≠ e.rank := by
        obtain hsend | ⟨-, hne⟩ := hwait
        · exact hhas.1.resolve_left (not_not.mpr hsend)
        · exact S.recvFrom_of_inLoop hhas.1 hne
      refine ⟨e.other (S.recvFrom e.op e.rank) (.completeStepValue di c)
        ⟨S.sendTo_recvFrom_ne hrecv, hhas.2⟩, ?_, rfl, hb_wait _ h ?_ rfl⟩ <;>
      · simp only [target, other]
        rw [S.sendTo_recvFrom hrecv]
    · have hturn : turn S (e.other p (.publish 0) trivial) (.peerStepValue p) =
          turn S e (.peerStepValue p) := by
        simp [turn, stepPhase, other, hs]
      exact ⟨e.other p (.publish 0) trivial, rfl, hturn, hb_wait _ h rfl hturn⟩
    · have hturn : turn S (e.other i (.publish 1) trivial) (.peerStepValue i) =
          turn S e (.peerStepValue i) := by
        simp [turn, stepPhase, other, hs]
      exact ⟨e.other i (.publish 1) trivial, rfl, hturn, hb_wait _ h rfl hturn⟩
  -- what it takes
  · obtain ⟨j, hs, rfl⟩ | ⟨hs, rfl⟩ | ⟨di, c, hs, hsend, hpos, rfl⟩ | ⟨di, c, j, hs, rfl⟩ |
      ⟨di, c, hs, rfl⟩ | ⟨j, p, hs, hp, rfl | rfl⟩ | ⟨j, hs, hj, rfl⟩ := takes_cases h
    · rw [hs] at hhas
      refine ⟨e.other e.rank (.fill j) hhas.2, rfl, ?_, hb_earlier hs _ (by decide : 1 < 3) rfl rfl⟩
      simp [turn, tensorPhase, other, hs]
    · rw [hs] at hhas
      have hset : Hb (e.other e.rank .setDyn hhas) (e.other e.rank .writeDyn hhas) :=
        hb_later _ _ (by decide : 4 < 5) rfl rfl
      refine ⟨e.other e.rank .setDyn hhas, rfl, rfl, hset.trans (hb_order rfl rfl ?_)⟩
      rw [hs]
      exact .completeDyn
    · exact ⟨e.other (S.sendTo e.op e.rank) .completeDyn (S.recvFrom_sendTo_ne hsend),
        target_completeDyn hsend, rfl,
        (hb_waitDyn hsend).trans (hb_earlier hs _ (by decide : 7 < 8) rfl rfl)⟩
    · obtain ⟨a, ha, hop, hab⟩ := read_temporary hs
      exact ⟨a, ha, by simp only [turn, hop], hab⟩
    · rw [hs] at hhas
      have hset : Hb (e.other e.rank .setStepValue trivial)
          (e.other e.rank (.visit di c) ⟨.inl hhas.1, hhas.2⟩) :=
        hb_later _ _ (by decide : 2 < 8) rfl rfl
      refine ⟨e.other e.rank .setStepValue trivial, rfl, rfl, hset.trans (hb_order rfl rfl ?_)⟩
      rw [hs]
      exact .empty
    · exact ⟨e.other p .setAddresses trivial, rfl, rfl, hb_vmcopy hs hp _ (by decide : 6 < 9) rfl⟩
    · exact read_tensor_vmcopy hbytes hs hp
    · exact read_tensor_done hbytes hs hj

theorem hb_waitDyn_later (hs : b.stmt = .waitDyn) (hrank : a.rank = S.sendTo b.op b.rank)
    (hop : b.op < a.op) : Hb b a := by
  have hhas := b.has
  rw [hs] at hhas
  have hchunks := exists_chunks hbytes b
  have hlast : S.devices - 1 < S.devices := Nat.sub_one_lt_of_lt S.devices_pos
  have hpos : 0 < S.pieceBytes b.op ⟨S.devices - 1, hlast⟩ ⟨0, by decide⟩ :=
    pieceSize_last_pos S.devices_pos (hchunks.lt_of_lt 0 hchunks.pos)
  have hvisit : Hb b (b.other b.rank (.visit ⟨S.devices - 1, hlast⟩ ⟨0, by decide⟩)
      ⟨.inl hhas, hchunks.pos⟩) := by
    refine hb_stage rfl rfl ?_ ?_ rfl <;> rw [hs]
    · exact (by decide : 7 < 8)
    · rfl
  exact hvisit.trans (hb_visit_later rfl hhas hpos hrank hop)

/-- What a rank has read is written again only after it has gone on. -/
theorem read_before (h : cell ∈ (graph S).reads b) (ha : target a = some cell)
    (hlt : latest S b cell < turn S a cell) : Hb b a := by
  have hhas := b.has
  have hhas' := a.has
  have hphase := stepPhase_le a
  have htensor := tensorPhase_le a
  obtain h | h := h
  -- what it waits for
  · obtain ⟨hs, rfl⟩ | ⟨di, c, hs, hwait, rfl⟩ | ⟨p, hs, hp, rfl⟩ | ⟨i, hs, rfl⟩ :=
      waits_cases h <;>
      simp only [latest, turn, hs] at hlt
    · exact hb_waitDyn_later hbytes hs (writes_of_target ha).2.1 (by omega)
    · obtain ⟨hs', hsend, -⟩ := writes_of_target ha
      rw [hs'] at hhas'
      have hvisit : Hb b (a.other a.rank (.visit di c) ⟨.inl hhas'.1, hhas'.2⟩) :=
        hb_visit_of_next rfl hhas'.1 hsend.symm (by simp only [other]; omega)
      refine hvisit.trans (hb_order rfl rfl ?_)
      rw [hs']
      exact .empty
    · exact hb_peer hs (S.ring.ipcRanks_symm (S.ring.copyFrom_spec hp).1)
        (writes_of_target ha).1 (by omega) (by decide : 10 < 12) rfl
    · have hlength := a.op_lt
      change a.op < S.length at hlength
      exact hb_waitPeer_later hs (writes_of_target ha).1 (by omega)
  -- what it takes
  · obtain ⟨j, hs, rfl⟩ | ⟨hs, rfl⟩ | ⟨di, c, hs, hsend, hpos, rfl⟩ | ⟨di, c, j, hs, rfl⟩ |
      ⟨di, c, hs, rfl⟩ | ⟨j, p, hs, hp, rfl | rfl⟩ | ⟨j, hs, hj, rfl⟩ := takes_cases h
    · -- the source copies its tensor before it is written
      obtain ⟨hrank, hs'⟩ := target_tensor ha
      simp only [latest, turn, hs] at hlt
      have hq := htensor b.rank
      obtain hop | hop := Nat.lt_or_eq_of_le (by omega : b.op ≤ a.op)
      · exact hb_of_op_lt hop hrank.symm
      · have hstage : 3 < a.stmt.stage ∧ a.stmt.isLocal = true := by
          obtain ⟨-, hzero⟩ | ⟨di, c, hs', -⟩ | ⟨hs', -⟩ := hs'
          · omega
          · rw [hs']
            exact ⟨(by decide : 3 < 8), rfl⟩
          · rw [hs']
            exact ⟨(by decide : 3 < 11), rfl⟩
        refine hb_stage hop hrank.symm ?_ ?_ hstage.2 <;> rw [hs]
        · exact hstage.1
        · rfl
    · exact hb_of_op_lt (by simp only [latest, turn] at hlt; omega) (writes_of_target ha).1.symm
    · exact hb_visit_later hs hsend hpos (writes_of_target ha).2.1
        (by simp only [latest, turn] at hlt; omega)
    · exact hb_write_temporary ha rfl (by simp only [latest, turn] at hlt; omega)
    · exact hb_of_op_lt (by simp only [latest, turn] at hlt; omega) (writes_of_target ha).1.symm
    · exact hb_peer hs (S.ring.ipcRanks_symm (S.ring.copyFrom_spec hp).1) (writes_of_target ha).1
        (by simp only [latest, turn] at hlt; omega) (by decide : 11 < 12) rfl
    · simp only [latest, turn, hs] at hlt
      have hq := htensor p
      exact hb_peer hs (S.ring.ipcRanks_symm (S.ring.copyFrom_spec hp).1) (target_tensor ha).1
        (by omega) (by decide : 11 < 12) rfl
    · simp only [latest, turn, hs] at hlt
      have hq := htensor b.rank
      exact hb_of_op_lt (by omega) (target_tensor ha).1.symm

end Positive

end Hb

end Broadcast
