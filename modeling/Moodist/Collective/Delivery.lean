import Moodist.Collective.Order

/-!
# Collectives deliver

Whatever the order of the steps of the ranks and of the completions of remote writes, each statement
of an all-gather or reduce-scatter reads what it should, and all ranks end all works.
-/

namespace Collective

open Foundation CpuThread List UInt32 Setup

variable {size : ℕ} {α : Type}

/-! ## The values that are read -/

section Values

variable {S : Setup size α} {a b e : Event S} {r q p i row : Fin size} {j : Fin S.capacity}
  {cell : SetupCell S} {m : Memory S} {junk : SetupCell S → α}

variable {k : ℕ} {part : Fin size → α}

theorem Setup.inputAt_filled : S.inputAt (2 * k + 0) r row j = S.input k r row j := by
  rw [inputAt, if_pos (by omega), Nat.add_zero, Nat.mul_div_cancel_left _ (by decide)]

theorem Setup.inputAt_overwritten : S.inputAt (2 * k + 1) r row j = S.result k r row j := by
  have hdiv : (2 * k + 1) / 2 = k := by omega
  rw [inputAt, if_neg (by omega), hdiv]

theorem Setup.partValue_of_local (hp : p = r ∨ p ∈ S.ipcRanks r) :
    S.partValue k r i p j = S.input k p i j :=
  if_pos hp

theorem Setup.partValue_of_received (hp : p ∈ S.recvRanks k r) :
    S.partValue k r i p j = S.sent k p r j :=
  if_neg (not_local_of_mem_recvRanks hp)

theorem Setup.sent_of_reduce (hkind : S.isReduce k = true) : S.sent k r i j = S.nodeSum k r i j :=
  if_pos hkind

theorem Setup.sent_of_gather (hkind : S.isReduce k = false) : S.sent k r i j = S.input k r r j := by
  rw [sent, hkind]
  rfl

theorem Setup.result_of_gather (hkind : S.isReduce k = false) :
    S.result k r row j = S.input k row row j := by
  rw [result, hkind]
  rfl

theorem Setup.sum_append (S : Setup size α) (k : ℕ) (first : α) (l l' : List α) :
    S.sum k first (l ++ l') = S.sum k (S.sum k first l) l' :=
  foldl_append

theorem sumParts_eq_nodeSum (hs : e.stmt = .reduceSend i j)
    (hpart : ∀ p, p = e.rank ∨ p ∈ S.ipcRanks e.rank → part p = S.input e.op p i j) :
    sumParts e part = S.nodeSum e.op e.rank i j := by
  have hadded : added e = S.ipcRanks e.rank := by simp only [added, hs]
  rw [sumParts, nodeSum, hadded, hpart e.rank (.inl rfl),
    map_congr_left fun p hp => hpart p (.inr hp)]

theorem sumParts_eq_outSum (hs : e.stmt = .reduceOut j)
    (hlocal : ∀ p, p = e.rank ∨ p ∈ S.ipcRanks e.rank → part p = S.input e.op p e.rank j)
    (hrecv : ∀ p ∈ S.recvRanks e.op e.rank, part p = S.sent e.op p e.rank j) :
    sumParts e part = S.outSum e.op e.rank j := by
  have hadded : added e = S.ipcRanks e.rank ++ S.recvRanks e.op e.rank := by simp only [added, hs]
  rw [sumParts, outSum, nodeSum, hadded, map_append, sum_append,
    hlocal e.rank (.inl rfl), map_congr_left fun p hp => hlocal p (.inr hp), map_congr_left hrecv]

section

variable (h : (graph S).Reads (turns S) e m)

include h

theorem content_of_reads (hc : cell ∈ (graph S).reads e)
    (hlatest : latest S e cell = turn S e cell) : m cell = content S cell (turn S e cell) :=
  h.content hc hlatest

theorem inDyn_of_reads (hs : e.stmt = .waitDyn i) :
    m (.inDyn e.rank i) = S.dyn e.op i e.rank := by
  refine (content_of_reads h (.inl ?_) rfl).trans ?_
  · simp only [waits, hs]
  · rw [content, turn_div]

theorem inStepValue_of_reads (hwaits : waits e = some (.inStepValue e.rank i)) :
    m (.inStepValue e.rank i) = S.stepValue e.op := by
  refine (content_of_reads h (.inl hwaits) rfl).trans ?_
  rw [content, turn_div]

theorem input_of_reads (hread : ReadsInput e p row j) :
    m (.input p row j) = S.input e.op p row j := by
  refine (content_of_reads h (.inr (.input hread)) rfl).trans ?_
  rw [content, turn, hread.spec.phase]
  exact inputAt_filled

theorem received_of_reads (hread : Takes e (.received r i j)) :
    m (.received r i j) = S.sent e.op i r j := by
  refine (content_of_reads h (.inr hread) rfl).trans ?_
  rw [content, turn_div]

theorem part_of_reads (hread : Takes e (.part r i p j)) :
    m (.part r i p j) = S.partValue e.op r i p j := by
  refine (content_of_reads h (.inr hread) rfl).trans ?_
  rw [content, turn_div]

theorem sumParts_send (hs : e.stmt = .reduceSend i j) :
    (sumParts e fun p => m (.part e.rank i p j)) = S.nodeSum e.op e.rank i j :=
  sumParts_eq_nodeSum hs fun _ hp =>
    (part_of_reads h (.partSend hs hp)).trans (partValue_of_local hp)

theorem sumParts_out (hs : e.stmt = .reduceOut j) :
    (sumParts e fun p => m (.part e.rank e.rank p j)) = S.outSum e.op e.rank j :=
  sumParts_eq_outSum hs
    (fun _ hp => (part_of_reads h (.part hs (.inl hp))).trans (partValue_of_local hp))
    fun _ hp => (part_of_reads h (.part hs (.inr hp))).trans (partValue_of_received hp)

/-- What a statement writes to the output. -/
theorem element_output (hs : e.stmt = S.outputStmt e.op e.rank row j) :
    element e m j = S.result e.op e.rank row j := by
  unfold outputStmt at hs
  by_cases hkind : S.isReduce e.op = true
  · rw [if_pos hkind] at hs
    rw [result, if_pos hkind]
    simp only [element, hs]
    exact sumParts_out h hs
  · have hgather : S.isReduce e.op = false := by simpa using hkind
    rw [if_neg hkind] at hs
    rw [result_of_gather hgather]
    split_ifs at hs with hown <;> simp only [element, hs]
    · rw [hown]
      exact input_of_reads h (.copyOwn hs)
    · exact input_of_reads h (.vmcopy hs)
    · exact (received_of_reads h (.received hs)).trans (sent_of_gather hgather)
    · exact (received_of_reads h (.proxied hs)).trans (sent_of_gather hgather)

theorem element_part (hs : e.stmt = S.partStmt e.rank i p j) :
    element e m j = S.partValue e.op e.rank i p j := by
  have hhas := e.has
  unfold partStmt at hs
  split_ifs at hs with hrow hlocal <;> rw [hs] at hhas <;> simp only [element, hs]
  · rw [partValue_of_local hhas.2.2.1]
    exact input_of_reads h (.readSend hs)
  · rw [partValue_of_local hlocal, not_not.mp hrow]
    exact input_of_reads h (.read hs)
  · rw [partValue_of_received hhas.1]
    exact received_of_reads h (.received hs)

theorem element_sendBuffer (hs : e.stmt = S.sendStmt e.op i j) :
    element e m j = S.sent e.op e.rank i j := by
  unfold sendStmt at hs
  by_cases hkind : S.isReduce e.op = true
  · rw [if_pos hkind] at hs
    rw [sent_of_reduce hkind]
    simp only [element, hs]
    exact sumParts_send h hs
  · rw [if_neg hkind] at hs
    rw [sent_of_gather (by simpa using hkind)]
    simp only [element, hs]
    exact input_of_reads h (.copyIn hs)

theorem element_received {di : Fin S.devices} (hs : e.stmt = .data q di j) :
    element e m j = S.sent e.op e.rank q j := by
  simp only [element, hs]
  refine (content_of_reads h (.inr (.sendBuffer hs)) rfl).trans ?_
  rw [content, turn_div, sendRow]
  split_ifs with hkind
  · rfl
  · rw [sent_of_gather (by simpa using hkind), sent_of_gather (by simpa using hkind)]

theorem value_content (ht : target e = some cell) :
    value e m cell = content S cell (turn S e cell) := by
  have hrank := rank_eq_owner ht
  cases cell with
  | outStepValue q | addresses q | proxyReady q i => rw [value, content, turn_div]
  | outDyn q i =>
    rw [value, content, turn_div, hrank]
    rfl
  | inDyn q i =>
    refine (content_of_reads h (.inr (.outDyn (writes_of_target ht))) rfl).trans ?_
    rw [content, content, turn_div, turn_div, hrank]
    rfl
  | inStepValue q i =>
    refine (content_of_reads h (.inr (.outStepValue (writes_of_target ht))) rfl).trans ?_
    rw [content, content, turn_div, turn_div]
  | peerStepValue q =>
    obtain ⟨v, hs⟩ := writes_of_target ht
    simp only [value, hs]
    rw [content, turn, stepPhase_of_publish hs]
    exact (published_add S.stepValue e.op (by omega)).symm
  | sendBuffer q i j =>
    obtain rfl : e.rank = q := hrank
    rw [value, content, turn_div]
    exact element_sendBuffer h (writes_of_target ht)
  | received q i j =>
    obtain rfl : e.rank = i := hrank
    obtain ⟨di, hs⟩ := writes_of_target ht
    rw [value, content, turn_div]
    exact element_received h hs
  | part q i p j =>
    obtain rfl : e.rank = q := hrank
    rw [value, content, turn_div]
    exact element_part h (target_part ht)
  | input q row j =>
    obtain rfl : e.rank = q := hrank
    rw [value, content, turn]
    obtain hs | ⟨hs, rfl, hplace⟩ := writes_of_target ht
    · rw [inputPhase_of_fill hs]
      refine Eq.trans ?_ inputAt_filled.symm
      simp only [element, hs]
    · have hstmt : e.stmt = S.outputStmt e.op e.rank e.rank j := by
        rw [hs, outputStmt, if_pos (isReduce_of_inPlace hplace)]
      rw [inputPhase_of_reduceOut hs]
      exact Eq.trans (element_output h hstmt) inputAt_overwritten.symm
  | output q row j =>
    obtain rfl : e.rank = q := hrank
    rw [value, content, turn_div]
    exact element_output h (target_output ht)

end

/-! ## Waiting -/

theorem stepPhase_of_waitPeer {v : Fin 2} (hs : e.stmt = .waitPeer v i) : stepPhase S e = v := by
  simp [stepPhase, hs]

theorem waits_forward {source destination : Fin size} (hs : e.stmt = .forward source destination)
    (hwait : S.MustWait e.rank source destination) :
    waits e = some (.inStepValue e.rank source) := by
  simp only [waits, hs, if_pos hwait]

/-- With what an earlier turn has left in the slot, a rank still waits. -/
theorem early (hI : Increasing S.length S.stepValue) (hb : waits b = some cell)
    (h : m cell = initial S junk cell ∨ ∃ a : Event S, target a = some cell ∧
      turn S a cell < turn S b cell ∧ m cell = content S cell (turn S a cell)) : ¬ pass b m := by
  intro hpass
  have hlength : b.op < S.length := b.op_lt
  obtain ⟨v, i, hs, rfl⟩ | ⟨i, hs, rfl⟩ | ⟨source, destination, hs, hwait, rfl⟩ |
    ⟨source, proxy, j, hs, rfl⟩ | ⟨i, hs, rfl⟩ := waits_cases hb <;>
    simp only [pass, hs] at hpass
  · rw [← published_add S.stepValue b.op (by omega)] at hpass
    refine hI.not_published_le (by omega) (h.imp_right ?_) hpass
    rintro ⟨a, ha, hturn, hcontent⟩
    rw [turn, turn, stepPhase_of_waitPeer hs] at hturn
    exact ⟨_, hturn, hcontent⟩
  · refine hI.not_le_of_earlier hlength (h.imp (congrArg DynamicAddresses.stepValue) ?_)
      (UInt32.le_of_eq hpass.symm)
    rintro ⟨a, ha, hturn, hcontent⟩
    simp only [turn] at hturn
    rw [hcontent, content, turn_div, dyn]
    exact ⟨a.op, by omega, by split_ifs <;> rfl⟩
  · refine hI.not_le_of_earlier hlength (h.imp_right exists_earlier)
      (UInt32.le_of_eq (hpass hwait).symm)
  · refine hI.not_le_of_earlier hlength (h.imp_right exists_earlier) hpass
  · refine hI.not_le_of_earlier hlength (h.imp_right exists_earlier)
      (UInt32.le_of_eq hpass.symm)

/-- With what it may read, a statement goes on. -/
theorem pass_content (hI : Increasing S.length S.stepValue) (h : (graph S).Reads (turns S) e m) :
    pass e m := by
  have hlength : e.op < S.length := e.op_lt
  unfold pass
  split
  next v i hs =>
    obtain ⟨t, hle, hge, hm⟩ := h (.peerStepValue i) (.inl (by simp only [waits, hs]))
    have hle' : 2 * e.op + stepPhase S e ≤ t := hle
    have hge' : t ≤ latest S e (.peerStepValue i) := hge
    rw [stepPhase_of_waitPeer hs] at hle'
    have ht : t / 2 < S.length := by
      simp only [latest, hs] at hge'
      split_ifs at hge' <;> omega
    have hpublished := hI.published_le hle' ht
    rw [published_add S.stepValue e.op (by omega)] at hpublished
    exact le_of_le_of_eq hpublished hm.symm
  next i hs =>
    rw [inDyn_of_reads h hs, dyn]
    split_ifs <;> rfl
  next source destination hs =>
    exact fun hwait => inStepValue_of_reads h (waits_forward hs hwait)
  next source proxy j hs =>
    have hready : (m (.proxyReady e.rank source) : UInt32) = S.stepValue e.op := by
      refine (content_of_reads h (.inl ?_) rfl).trans ?_
      · simp only [waits, hs]
      · rw [content, turn_div]
    exact le_iff_toNat_le.mpr (le_of_eq (congrArg UInt32.toNat hready.symm))
  next i hs => exact inStepValue_of_reads h (by simp only [waits, hs])
  next => trivial

theorem check_of_reads (hnumel : 0 < S.numel e.op) (h : (graph S).Reads (turns S) e m)
    (hcopy : S.bytes e.op ≤ 0x7ffff000 ∨ S.ipcRanks e.rank = [])
    (hreduce : added e = [] ∨ S.ReduceSupported e.op) : Check e m where
  dyn i hs := ⟨inDyn_of_reads h hs, Nat.mul_pos hnumel (S.itembytes_pos e.op)⟩
  peer p hlook := by
    refine ⟨(content_of_reads h (.inr (.addresses hlook)) rfl).trans ?_, ?_⟩
    · rw [content, turn_div]
    · obtain ⟨t, hle, hge, hm⟩ := h (.peerStepValue p) (.inr (.peerStepValue hlook))
      have hle' : 2 * e.op + stepPhase S e ≤ t := hle
      have hge' : t ≤ latest S e (.peerStepValue p) := hge
      rw [hlook.latest_eq] at hge'
      have hcases := published_cases S.stepValue (by omega : 2 * e.op ≤ t) hge'
      exact hcases.imp hm.trans hm.trans
  copy p hlook := by
    rw [processVmReadv_eq_iff]
    refine hcopy.resolve_right fun hnil => ?_
    have hmem := hlook.spec.1
    rw [hnil] at hmem
    exact absurd hmem not_mem_nil
  reduce i j _ hne := ⟨hreduce.resolve_left hne, Nat.mul_mod_left _ _⟩

end Values

/-! ## All runs -/

section Runs

variable {S : Setup size α} {junk : SetupCell S → α}

variable {b e : Event S} {cell : SetupCell S}

theorem line_lt_of_waits {a : Event S} (hb : waits b = some cell)
    (ha : target a = some cell) (hturn : turn S a cell = turn S b cell) :
    line S a.op a.rank a.stmt < line S b.op b.rank b.stmt := by
  rw [op_eq_of_turn hturn]
  refine line_lt_of_stage S ?_
  obtain ⟨v, i, hs, rfl⟩ | ⟨i, hs, rfl⟩ | ⟨source, destination, hs, hwait, rfl⟩ |
    ⟨source, proxy, j, hs, rfl⟩ | ⟨i, hs, rfl⟩ := waits_cases hb
  · obtain ⟨v', hs'⟩ := writes_of_target ha
    have hop := op_eq_of_turn hturn
    simp only [turn, stepPhase_of_publish hs', stepPhase_of_waitPeer hs, hop] at hturn
    obtain rfl : v' = v := Fin.ext (by omega)
    rw [hs, hs']
    simp only [Stmt.stage]
    split_ifs <;> decide
  · rw [hs, writes_of_target ha]
    exact (by decide : 4 < 8)
  · rw [hs, writes_of_target ha]
    exact (by decide : 8 < 11)
  · rw [hs, writes_of_target ha]
    exact (by decide : 11 < 12)
  · rw [hs, writes_of_target ha]
    exact (by decide : 8 < 13)

theorem turn_le_latest (e : Event S) (cell : SetupCell S) : turn S e cell ≤ latest S e cell := by
  have hlength : e.op < S.length := e.op_lt
  cases cell with
  | peerStepValue q =>
    have hphase := stepPhase_le e
    simp only [turn, latest]
    split
    next v i hs =>
      rw [stepPhase_of_waitPeer hs] at hphase ⊢
      split_ifs <;> omega
    next => omega
  | _ => exact le_rfl

theorem label_callback_lt {i : Fin size} (h : Started e i) :
    Works.label (line S) (e.other e.rank (.callback i) h.1) < Works.label (line S) e := by
  obtain ⟨hmem, -, ⟨hstage, hindex⟩ | hstage⟩ := h
  · refine Works.label_lt_of_line (line S) rfl ?_
    rw [line, line, Prod.Lex.toLex_lt_toLex, Prod.Lex.toLex_lt_toLex]
    exact .inr ⟨hstage.symm, .inl hindex⟩
  · exact Works.label_lt_of_line (line S) rfl (line_lt_of_stage S hstage)

theorem ready_of_label {X : Set (Event S)}
    (h : ∀ a, Works.label (line S) a < Works.label (line S) b → a ∈ X) : (graph S).ready X b := by
  refine ⟨fun a hbefore => h a (Works.label_lt (line S) (Order.line_lt S) hbefore), ?_⟩
  intro i i' _ hi _
  exact .inl ⟨_, h _ (label_callback_lt hi), rfl, rfl, rfl⟩

theorem lawful (hI : Increasing S.length S.stepValue) :
    (graph S).Lawful (turns S) (initial S junk) where
  ready_before hready hbefore := hready.1 _ hbefore
  ready_of_label := ready_of_label
  label_lt h := by
    cases h with
    | before hbefore => exact Works.label_lt (line S) (Order.line_lt S) hbefore
    | wait hb ha hturn =>
      exact Works.label_lt_of_line (line S) (op_eq_of_turn hturn) (line_lt_of_waits hb ha hturn)
  writer_unique := writer_unique
  write_hb := write_hb
  read_after h := .inl (read_after h)
  turn_le_latest _ := turn_le_latest _ _
  read_before := read_before
  waits_reads h := .inl h
  pass_content := pass_content hI
  value_content := value_content
  early := early hI

/-- Every statement is reached in some run. -/
theorem exists_check (hI : Increasing S.length S.stepValue) (e : Event S) (x : α)
    (h : ∀ junk w, (graph S).Reachable (initial S junk) w → (graph S).Enabled w e →
      Check e w.memory) : ∃ m, Check e m := by
  have hlawful : (graph S).Lawful (turns S) (initial S fun _ => x) := lawful hI
  obtain ⟨w, hw, he⟩ := EventGraph.exists_enabled hlawful e
  exact ⟨w.memory, h _ w hw he⟩

def Setup.outputOf (S : Setup size α) (m : Memory S) (k : ℕ) (r row : Fin size)
    (j : Fin S.capacity) : α :=
  if S.inPlace k then m (.input r row j) else m (.output r row j)

/-- A rank that is done has the results in its output, nothing that is still to be read for a work
is overwritten for a later one, and when nothing more can happen all ranks are done. -/
structure Runs (S : Setup size α) (w : EventGraph.State (Event S) (CellVal S)) : Prop where
  output : ∀ e, (graph S).Enabled w e → e.stmt = .done → ∀ row j,
    S.HasOutput e.op e.rank row j →
      S.outputOf w.memory e.op e.rank row j = S.result e.op e.rank row j
  reuse : ∀ e, (graph S).Enabled w e → ∀ cell, target e = some cell →
    (∀ q, cell ≠ .peerStepValue q) → ∀ b ∉ w.done, cell ∈ (graph S).reads b → e.op ≤ b.op
  completes : (¬ ∃ e, (graph S).Enabled w e) → ∀ k < S.length, ∀ r,
    ∃ e ∈ w.done, e.op = k ∧ e.rank = r ∧ e.stmt = .done

theorem output_of_reads {m : Memory S} (h : (graph S).Reads (turns S) e m)
    (hs : e.stmt = .done) {row : Fin size} {j : Fin S.capacity}
    (hout : S.HasOutput e.op e.rank row j) :
    S.outputOf m e.op e.rank row j = S.result e.op e.rank row j := by
  have hread : Takes e (S.outputCell e.op e.rank row j) := .output hs hout
  unfold outputCell at hread
  have hphase : inputPhase S e = 1 := by simp only [inputPhase, hs]
  by_cases hplace : S.inPlace e.op = true
  · rw [if_pos hplace] at hread
    refine (if_pos hplace).trans ((content_of_reads h (.inr hread) rfl).trans ?_)
    rw [content, turn, hphase]
    exact inputAt_overwritten
  · rw [if_neg hplace] at hread
    refine (if_neg hplace).trans ((content_of_reads h (.inr hread) rfl).trans ?_)
    rw [content, turn_div]

/-- Except for what is published, a cell is read in the turns of the work. -/
theorem latest_lt (hcell : ∀ q, cell ≠ .peerStepValue q) :
    latest S b cell < 2 * (b.op + 1) := by
  have hphase := inputPhase_le b
  cases cell with
  | peerStepValue q => exact absurd rfl (hcell q)
  | input q row j =>
    simp only [latest]
    omega
  | _ =>
    simp only [latest]
    omega

theorem le_turn (e : Event S) (cell : SetupCell S) : 2 * e.op ≤ turn S e cell := by
  have hdiv := turn_div e cell
  omega

/-- All runs deliver, and they end. -/
theorem runs (hI : Increasing S.length S.stepValue) {w : EventGraph.State (Event S) (CellVal S)}
    (h : (graph S).Reachable (initial S junk) w) : Runs S w where
  output e he hs row j hout := output_of_reads (h.reads (lawful hI) he) hs hout
  reuse e he cell ht hcell b hb hread := by
    by_contra hlt
    have hturn : latest S b cell < turn S e cell := by
      have hlatest := latest_lt (b := b) hcell
      have hle := le_turn e cell
      omega
    exact hb ((h.inv (lawful hI)).before_of_enabled (lawful hI) he (read_before hread ht hturn))
  completes hstuck k hk r := by
    refine ⟨⟨k, r, .done, hk, trivial⟩, ?_, rfl, rfl, rfl⟩
    rw [h.done_eq_univ (lawful hI) hstuck]
    trivial

end Runs

end Collective
