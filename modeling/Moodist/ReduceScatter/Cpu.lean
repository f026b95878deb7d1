import Moodist.Collective.Delivery
import Moodist.Foundation.Combination
import Moodist.ReduceScatter.Init

/-!
# Reduce-scatters on the CPU

A sequence of reduce-scatters on one concurrency index, for any partition of the ranks into nodes.
`ReduceScatter::init` has made the lists of ranks. `getStepPtr` of `WorkReduceScatterCpu` chooses
the instance for the type and the operator, but does not go through all of them.
-/

namespace ReduceScatter

open Foundation CpuThread Collective List

variable {size : ℕ} {α : Type}

/-! ## The instance -/

def dindexOf : Dtype → ℕ
  | .float32 => 0
  | .float64 => 1
  | .int32 => 2
  | .int64 => 3
  | .bfloat16 => 4

def opindexOf : Reduction → ℕ
  | .sum => 0
  | .min => 1
  | .max => 2
  | .avg => 3

/-- `getStepPtr<T, dindex, opindex>`; the types have five instances and the operators four. `none`
is the failed check. -/
def getStepPtr (dtype : Dtype) (reduction : Reduction) (dindex opindex : ℕ) : Option (ℕ × ℕ) :=
  if dindex = dindexOf dtype ∧ opindex = opindexOf reduction then
    some (dindex, opindex)
  else if dindex + 1 < 5 then
    getStepPtr dtype reduction (dindex + 1) opindex
  else if opindex + 1 < 4 then
    getStepPtr dtype reduction dindex (opindex + 1)
  else
    none
termination_by 5 - dindex + (4 - opindex)

theorem getStepPtr_isSome_iff (dtype : Dtype) (reduction : Reduction) :
    (getStepPtr dtype reduction 0 0).isSome ↔ reduction = .sum ∨ dtype = .bfloat16 := by
  cases dtype <;> cases reduction <;> simp [getStepPtr, dindexOf, opindexOf]

/-! ## Sums -/

/-- The rows that `reduceAdd` writes, by address, and the one it has written last. -/
structure ReduceState (α : Type) where
  row : ℕ → α
  prevReduceOutput : ℕ

/-- `reduceAdd` copies the first input. -/
def reduceAdd (reduce : α → α → α) (st : ReduceState α) (output : ℕ) (input : α) : ReduceState α :=
  if st.prevReduceOutput ≠ output then
    ⟨Function.update st.row output input, output⟩
  else
    { st with row := Function.update st.row output (reduce (st.row output) input) }

theorem foldl_reduceAdd (reduce : α → α → α) (output : ℕ) (rest : List α) (row : ℕ → α) :
    (rest.foldl (fun st input => reduceAdd reduce st output input) ⟨row, output⟩).row output =
      rest.foldl reduce (row output) := by
  induction rest generalizing row with
  | nil => rfl
  | cons input rest ih =>
    have hstep : reduceAdd reduce ⟨row, output⟩ output input =
        ⟨Function.update row output (reduce (row output) input), output⟩ :=
      if_neg (not_not.mpr rfl)
    rw [foldl_cons, foldl_cons, hstep, ih, Function.update_self]

/-- The calls of `reduceAdd` for one output add up its inputs. -/
theorem reduceAdd_eq_sum (S : Setup size α) (k : ℕ) (st : ReduceState α) {output : ℕ}
    (h : st.prevReduceOutput ≠ output) (first : α) (rest : List α) :
    ((first :: rest).foldl (fun st input => reduceAdd (S.reduce k) st output input) st).row output =
      S.sum k first rest := by
  have hstep : reduceAdd (S.reduce k) st output first =
      ⟨Function.update st.row output first, output⟩ := if_pos h
  rw [foldl_cons, hstep, foldl_reduceAdd, Function.update_self]
  rfl

section Trees

variable (S : Setup size α)

def nodeTree (r : Fin size) : Combination (Fin size) :=
  (Combination.single r).add ((S.ipcRanks r).map .single)

def outTree (k : ℕ) (r : Fin size) : Combination (Fin size) :=
  (nodeTree S r).add ((S.recvRanks k r).map (nodeTree S))

variable {S} {k : ℕ} {r p i : Fin size}

theorem nodeSum_eq_eval (row : Fin size) (j : Fin S.capacity) :
    S.nodeSum k r row j = (nodeTree S r).eval (S.reduce k) fun p => S.input k p row j := by
  rw [nodeTree, Combination.eval_add, map_map]
  rfl

theorem outSum_eq_eval (hkind : S.isReduce k = true) (j : Fin S.capacity) :
    S.outSum k r j = (outTree S k r).eval (S.reduce k) fun p => S.input k p r j := by
  rw [outTree, Combination.eval_add, map_map, ← nodeSum_eq_eval, Setup.outSum, Setup.sum]
  refine congrArg (List.foldl _ _) (map_congr_left fun i _ => ?_)
  rw [Setup.sent_of_reduce hkind]
  exact nodeSum_eq_eval r j

theorem leaves_nodeTree (r : Fin size) : (nodeTree S r).leaves = r :: S.ipcRanks r := by
  rw [nodeTree, Combination.leaves_add, flatMap_map]
  exact congrArg (List.cons r) (flatMap_singleton' _)

theorem mem_leaves_nodeTree : p ∈ (nodeTree S r).leaves ↔ S.nodes.SameNode p r := by
  rw [leaves_nodeTree, mem_cons]
  refine ⟨Setup.sameNode_of_local, fun hsame => ?_⟩
  by_cases hp : p = r
  · exact .inl hp
  · exact .inr (S.nodes.mem_ipcRanks.mpr ⟨hsame, hp⟩)

theorem leaves_nodeTree_nodup (r : Fin size) : (nodeTree S r).leaves.Nodup := by
  rw [leaves_nodeTree]
  refine nodup_cons.mpr ⟨fun h => ?_, S.nodes.ipcRanks_nodup r⟩
  exact (S.nodes.mem_ipcRanks.mp h).2 rfl

variable (hkind : S.isReduce k = true)

include hkind

theorem recvRanks_of_reduce : S.recvRanks k r = S.nodes.sendRanks r :=
  if_pos hkind

theorem eq_of_sameNode (hi : i ∈ S.recvRanks k r) (hp : p ∈ S.recvRanks k r)
    (hsame : S.nodes.SameNode i p) : i = p := by
  rw [recvRanks_of_reduce hkind, S.nodes.mem_sendRanks] at hi hp
  rw [hi.2, hp.2, hsame.proxyOf_eq]

theorem exists_sameNode (h : ¬ S.nodes.SameNode p r) :
    ∃ i ∈ S.recvRanks k r, S.nodes.SameNode p i := by
  have hsame := S.nodes.sameNode_proxyOf r p
  refine ⟨S.nodes.proxyOf r p, ?_, hsame.symm⟩
  rw [recvRanks_of_reduce hkind, S.nodes.mem_sendRanks, hsame.proxyOf_eq]
  exact ⟨fun hr => h (hr.trans hsame).symm, rfl⟩

/-- Every rank has one part in a sum. -/
theorem leaves_outTree (r : Fin size) : (outTree S k r).leaves.Perm (List.finRange size) := by
  have hleaves : (outTree S k r).leaves =
      (nodeTree S r).leaves ++ (S.recvRanks k r).flatMap fun i => (nodeTree S i).leaves := by
    rw [outTree, Combination.leaves_add, flatMap_map]
  have hnodup : (outTree S k r).leaves.Nodup := by
    rw [hleaves]
    refine nodup_append'.mpr ⟨leaves_nodeTree_nodup r, nodup_flatMap.mpr ⟨?_, ?_⟩, ?_⟩
    · exact fun i _ => leaves_nodeTree_nodup i
    · have hranks : (S.recvRanks k r).Nodup := by
        rw [recvRanks_of_reduce hkind]
        exact S.nodes.sendRanks_nodup r
      refine hranks.imp_of_mem fun {i i'} hi hi' hne p hp hp' => hne ?_
      rw [mem_leaves_nodeTree] at hp hp'
      exact eq_of_sameNode hkind hi hi' (hp.symm.trans hp')
    · intro p hp hp'
      obtain ⟨i, hi, hpi⟩ := mem_flatMap.mp hp'
      rw [mem_leaves_nodeTree] at hp hpi
      exact Setup.not_sameNode (Setup.mem_recvRanks_iff.mp hi) (hp.symm.trans hpi)
  refine (perm_ext_iff_of_nodup hnodup (nodup_finRange size)).mpr fun p => ?_
  refine iff_of_true ?_ (mem_finRange p)
  rw [hleaves, mem_append, mem_flatMap]
  by_cases hp : S.nodes.SameNode p r
  · exact .inl (mem_leaves_nodeTree.2 hp)
  · obtain ⟨i, hi, hpi⟩ := exists_sameNode hkind hp
    exact .inr ⟨i, hi, mem_leaves_nodeTree.2 hpi⟩

end Trees

/-! ## All runs -/

/-- `inPlace`: the output is the row of the rank in its input, as `allreduce` passes it. -/
structure CpuWork where
  dtype : Dtype
  reduction : Reduction
  inPlace : Bool
  numel : ℕ
  stepValue : UInt32
  deriving DecidableEq, Repr

/-- `input` is what the users have in the rows of their tensors when they call a reduce-scatter, and
`combine` are the operators. -/
structure CpuJob (size : ℕ) (α : Type) where
  nodes : AllGather.Nodes size
  devices : ℕ
  devices_pos : 0 < devices
  length : ℕ
  work : ℕ → CpuWork
  capacity : ℕ
  numel_le : ∀ k, (work k).numel ≤ capacity
  combine : Dtype → Reduction → α → α → α
  input : ℕ → Fin size → Fin size → Fin capacity → α

namespace CpuJob

variable (job : CpuJob size α)

def setup : Setup size α where
  nodes := job.nodes
  devices := job.devices
  devices_pos := job.devices_pos
  length := job.length
  work k := ⟨.reduceScatter (job.work k).dtype (job.work k).reduction (job.work k).inPlace,
    (job.work k).numel, (job.work k).stepValue⟩
  capacity := job.capacity
  numel_le := job.numel_le
  combine := job.combine
  input := job.input

def reduce (k : ℕ) : α → α → α := job.combine (job.work k).dtype (job.work k).reduction

def bytes (k : ℕ) : ℕ := (job.work k).numel * (job.work k).dtype.bytes

/-- One call moves the rows that are copied between ranks of a node. -/
def Copied (k : ℕ) : Prop := job.bytes k ≤ 0x7ffff000 ∨ ∀ r, job.nodes.ipcRanks r = []

def EqualNodes : Prop :=
  ∀ list ∈ job.nodes.nodeRanks, ∀ list' ∈ job.nodes.nodeRanks, list.length = list'.length

end CpuJob

/-- The checks hold; when a rank is done, its output is a combination in which the row for the rank
in the input of every rank occurs once; nothing that is still to be read for a work is
overwritten for a later one; and when nothing more can happen, all ranks are done with all. -/
structure Reduces (job : CpuJob size α)
    (w : EventGraph.State (Event job.setup) (CellVal job.setup)) : Prop where
  checks : ∀ e, (graph job.setup).Enabled w e → Check e w.memory
  output : ∀ e, (graph job.setup).Enabled w e → e.stmt = .done →
    ∃ tree : Combination (Fin size), tree.leaves.Perm (List.finRange size) ∧
      ∀ j : Fin job.capacity, (j : ℕ) < (job.work e.op).numel →
        job.setup.outputOf w.memory e.op e.rank e.rank j =
          tree.eval (job.reduce e.op) fun p => job.input e.op p e.rank j
  reuse : ∀ e, (graph job.setup).Enabled w e → ∀ cell, target e = some cell →
    (∀ q, cell ≠ .peerStepValue q) → ∀ b ∉ w.done, cell ∈ (graph job.setup).reads b → e.op ≤ b.op
  completes : (¬ ∃ e, (graph job.setup).Enabled w e) → ∀ k < job.length, ∀ r,
    ∃ e ∈ w.done, e.op = k ∧ e.rank = r ∧ e.stmt = .done

/-- `init` is right on all ranks, an instance is found for each work, and all runs reduce and
end. -/
structure Correct (job : CpuJob size α) : Prop where
  init : ∀ rank, InitCorrect job.nodes rank
  dispatch : ∀ k < job.length,
    (getStepPtr (job.work k).dtype (job.work k).reduction 0 0).isSome
  runs : ∀ junk w, (graph job.setup).Reachable (initial job.setup junk) w → Reduces job w
  ends : WellFounded fun w' w =>
    ∃ e, (graph job.setup).Enabled w e ∧ w' = (graph job.setup).next w e

section Correctness

variable {job : CpuJob size α} {w : EventGraph.State (Event job.setup) (CellVal job.setup)}
  {junk : SetupCell job.setup → α}

theorem isReduce_setup (k : ℕ) : job.setup.isReduce k = true := rfl

/-- On one rank there is nothing to add. -/
theorem added_eq_nil (hsize : size ≤ 1) (e : Event job.setup) : added e = [] := by
  have hsub : ∀ p r : Fin size, p = r := fun p r => Fin.ext (by omega)
  have hipc : job.setup.ipcRanks e.rank = [] := by
    refine eq_nil_iff_forall_not_mem.mpr fun p hp => ?_
    exact (job.setup.nodes.mem_ipcRanks.mp hp).2 (hsub p e.rank)
  have hrecv : job.setup.recvRanks e.op e.rank = [] := by
    refine eq_nil_iff_forall_not_mem.mpr fun p hp => ?_
    exact Setup.not_local_of_mem_recvRanks hp (.inl (hsub p e.rank))
  unfold added
  split
  · rw [hipc, hrecv]
    rfl
  · exact hipc

/-- With more ranks, the output is a sum of several parts. -/
theorem added_ne_nil (hsize : 1 < size) {e : Event job.setup} {j : Fin job.setup.capacity}
    (hs : e.stmt = .reduceOut j) : added e ≠ [] := by
  have hadded : added e = job.setup.ipcRanks e.rank ++ job.setup.recvRanks e.op e.rank := by
    simp only [added, hs]
  obtain ⟨p, hp⟩ : ∃ p : Fin size, p ≠ e.rank := by
    have : Nontrivial (Fin size) := Fin.nontrivial_iff_two_le.mpr hsize
    exact exists_ne e.rank
  by_cases hsame : job.setup.nodes.SameNode p e.rank
  · have hmem : p ∈ added e := by
      rw [hadded]
      exact mem_append_left _ (job.setup.nodes.mem_ipcRanks.mpr ⟨hsame, hp⟩)
    exact ne_nil_of_mem hmem
  · obtain ⟨i, hi, -⟩ := exists_sameNode (isReduce_setup e.op) hsame
    have hmem : i ∈ added e := by
      rw [hadded]
      exact mem_append_right _ hi
    exact ne_nil_of_mem hmem

theorem reduces (hstep : Increasing job.setup.length job.setup.stepValue)
    (hnumel : ∀ k < job.length, 0 < (job.work k).numel)
    (hcopy : ∀ k < job.length, job.Copied k) (hsupported : ∀ k < job.length,
      size ≤ 1 ∨ Supported (job.work k).dtype (job.work k).reduction)
    (h : (graph job.setup).Reachable (initial job.setup junk) w) : Reduces job w := by
  have hruns := runs (S := job.setup) hstep h
  refine ⟨?_, ?_, hruns.reuse, hruns.completes⟩
  · intro e he
    refine check_of_reads (hnumel e.op e.op_lt) (h.reads (lawful hstep) he) ?_ ?_
    · exact (hcopy e.op e.op_lt).imp_right fun hnil => hnil e.rank
    exact (hsupported e.op e.op_lt).imp (fun hsize => added_eq_nil hsize e) id
  · intro e he hs
    refine ⟨outTree job.setup e.op e.rank, leaves_outTree (isReduce_setup e.op) e.rank, ?_⟩
    intro j hj
    have hout := hruns.output e he hs e.rank j ⟨fun _ => rfl, hj⟩
    refine hout.trans ((if_pos (isReduce_setup e.op)).trans ?_)
    exact outSum_eq_eval (isReduce_setup e.op) j

/-- The operator of a work with more than one rank is used in some run. -/
theorem supported_of_correct (h : Correct job)
    (hstep : Increasing job.setup.length job.setup.stepValue)
    (hnumel : ∀ k < job.length, 0 < (job.work k).numel) {k : ℕ} (hk : k < job.length)
    (hsize : 1 < size) : Supported (job.work k).dtype (job.work k).reduction := by
  let r : Fin size := ⟨0, by omega⟩
  let j : Fin job.capacity := ⟨0, (hnumel k hk).trans_le (job.numel_le k)⟩
  let e : Event job.setup := ⟨k, r, .reduceOut j, hk, rfl, hnumel k hk⟩
  obtain ⟨m, hcheck⟩ := exists_check hstep e (job.input k r r j) fun junk w hw =>
    (h.runs junk w hw).checks e
  exact (hcheck.reduce r j (.inr rfl) (added_ne_nil hsize rfl)).1

theorem copied_of_correct (h : Correct job)
    (hstep : Increasing job.setup.length job.setup.stepValue)
    (hnumel : ∀ k < job.length, 0 < (job.work k).numel) {k : ℕ} (hk : k < job.length) :
    job.Copied k := by
  refine or_iff_not_imp_right.mpr fun hne => ?_
  obtain ⟨r, hr⟩ := not_forall.mp hne
  obtain ⟨p, hp⟩ := exists_mem_of_ne_nil _ hr
  let j : Fin job.capacity := ⟨0, (hnumel k hk).trans_le (job.numel_le k)⟩
  let e : Event job.setup := ⟨k, r, .read p j, hk, rfl, .inr hp, hnumel k hk⟩
  obtain ⟨m, hcheck⟩ := exists_check hstep e (job.input k r r j) fun junk w hw =>
    (h.runs junk w hw).checks e
  have hlook : Looks e p := .read rfl (job.nodes.mem_ipcRanks.mp hp).2
  exact processVmReadv_eq_iff.mp (hcheck.copy p hlook)

/-- Reduce-scatters with increasing step values and no empty row are correct exactly if all nodes
have the same size, no row that is copied between ranks of a node is larger than what one call
moves, and each work is by `sum` and not on `bfloat16`, or there is one rank only and `getStepPtr`
finds its instance. -/
theorem cpu_correct_iff (job : CpuJob size α)
    (hstep : Increasing job.setup.length job.setup.stepValue)
    (hnumel : ∀ k < job.length, 0 < (job.work k).numel) :
    Correct job ↔ job.EqualNodes ∧ ∀ k < job.length, job.Copied k ∧
      (((job.work k).reduction = .sum ∧ (job.work k).dtype ≠ .bfloat16) ∨
      (size ≤ 1 ∧ ((job.work k).reduction = .sum ∨ (job.work k).dtype = .bfloat16))) := by
  constructor
  · intro h
    refine ⟨(forall_initCorrect_iff job.nodes).mp h.init, fun k hk =>
      ⟨copied_of_correct h hstep hnumel hk, ?_⟩⟩
    have hfound := (getStepPtr_isSome_iff _ _).mp (h.dispatch k hk)
    obtain hsize | hsize := Nat.lt_or_ge 1 size
    · obtain ⟨hdtype, -⟩ := supported_of_correct h hstep hnumel hk hsize
      exact .inl ⟨hfound.resolve_right hdtype, hdtype⟩
    · exact .inr ⟨hsize, hfound⟩
  · rintro ⟨hnodes, h⟩
    refine ⟨(forall_initCorrect_iff job.nodes).mpr hnodes, fun k hk => ?_,
      fun junk w => reduces hstep hnumel (fun k hk => (h k hk).1) fun k hk => ?_,
      EventGraph.wellFounded_next⟩
    · rw [getStepPtr_isSome_iff]
      exact (h k hk).2.elim (fun hsum => .inl hsum.1) And.right
    · refine (h k hk).2.elim (fun hsum => .inr ⟨hsum.2, ?_⟩) fun hone => .inl hone.1
      rw [hsum.1]
      decide

/-- When a rank is done, its output is the sum of the rows for it in the inputs of all ranks. -/
def Sums [AddCommMonoid α] (job : CpuJob size α)
    (w : EventGraph.State (Event job.setup) (CellVal job.setup)) : Prop :=
  ∀ e, (graph job.setup).Enabled w e → e.stmt = .done → ∀ j : Fin job.capacity,
    (j : ℕ) < (job.work e.op).numel →
      job.setup.outputOf w.memory e.op e.rank e.rank j = ∑ p, job.input e.op p e.rank j

/-- If the operator is an addition, the order in which the parts come does not matter. -/
theorem sums_of_reachable [AddCommMonoid α] (job : CpuJob size α)
    (hstep : Increasing job.setup.length job.setup.stepValue)
    (hnumel : ∀ k < job.length, 0 < (job.work k).numel) (hnodes : job.EqualNodes)
    (hcopy : ∀ k < job.length, job.Copied k)
    (hsum : ∀ k < job.length, Supported (job.work k).dtype (job.work k).reduction ∧
      job.reduce k = (· + ·)) :
    (∀ rank, InitCorrect job.nodes rank) ∧ ∀ junk w,
      (graph job.setup).Reachable (initial job.setup junk) w →
        (∀ e, (graph job.setup).Enabled w e → Check e w.memory) ∧ Sums job w := by
  refine ⟨(forall_initCorrect_iff job.nodes).mpr hnodes, fun junk w h => ?_⟩
  have hreduces := reduces hstep hnumel hcopy (fun k hk => .inr (hsum k hk).1) h
  refine ⟨hreduces.checks, fun e he hdone j hj => ?_⟩
  obtain ⟨tree, hleaves, hvalue⟩ := hreduces.output e he hdone
  rw [hvalue j hj, (hsum e.op e.op_lt).2, Combination.eval_eq_sum, (hleaves.map _).sum_eq]
  exact (Fin.sum_univ_def _).symm

end Correctness

/-- One reduce-scatter of four `float32` on two nodes with two ranks each, with two devices. -/
def oneReduce (reduction : Reduction) : CpuJob (2 * 2) ℕ where
  nodes := AllGather.consecutive 2 2 Nat.two_pos
  devices := 2
  devices_pos := Nat.two_pos
  length := 1
  work _ := ⟨.float32, reduction, true, 4, 0x1000⟩
  capacity := 4
  numel_le _ := le_rfl
  combine _ reduction a b := if reduction = .min then min a b else a + b
  input _ p row j := p + row + j

theorem increasing_oneReduce (reduction : Reduction) :
    Increasing (oneReduce reduction).setup.length (oneReduce reduction).setup.stepValue where
  isStepValue _ _ := ⟨0x1000, .init, rfl⟩
  lt k k' hlt hk' := by
    have hone : k' < 1 := hk'
    omega

theorem equalNodes_oneReduce (reduction : Reduction) : (oneReduce reduction).EqualNodes := by
  intro list hlist list' hlist'
  obtain ⟨n, -, rfl⟩ := mem_map.mp hlist
  obtain ⟨n', -, rfl⟩ := mem_map.mp hlist'
  simp [AllGather.rowOf]

theorem cpu_correct_iff_oneReduce : Correct (oneReduce .sum) :=
  (cpu_correct_iff (oneReduce .sum) (increasing_oneReduce .sum) fun _ _ => (by decide : 0 < 4)).mpr
    ⟨equalNodes_oneReduce .sum, fun _ _ => ⟨.inl (by decide : 4 * 4 ≤ 0x7ffff000),
      .inl ⟨rfl, (by decide : Dtype.float32 ≠ .bfloat16)⟩⟩⟩

/-- When rank 1 is done, it has the sum of the four rows for it. -/
theorem sums_of_reachable_oneReduce : ∃ w e,
    (graph (oneReduce .sum).setup).Reachable (initial (oneReduce .sum).setup fun _ => 0) w ∧
    (graph (oneReduce .sum).setup).Enabled w e ∧ e.stmt = .done ∧ e.rank = (1 : Fin 4) ∧
    ∀ j : Fin 4, (oneReduce .sum).setup.outputOf w.memory 0 (1 : Fin 4) (1 : Fin 4) j =
      10 + 4 * (j : ℕ) := by
  let e : Event (oneReduce .sum).setup := ⟨0, (1 : Fin 4), .done, (by decide : 0 < 1), trivial⟩
  have hlawful : (graph (oneReduce .sum).setup).Lawful (turns (oneReduce .sum).setup)
      (initial (oneReduce .sum).setup fun _ => 0) := lawful (increasing_oneReduce .sum)
  obtain ⟨w, hw, he⟩ := EventGraph.exists_enabled hlawful e
  refine ⟨w, e, hw, he, rfl, rfl, fun j => ?_⟩
  have hsums := ((sums_of_reachable (oneReduce .sum) (increasing_oneReduce .sum)
    (fun _ _ => (by decide : 0 < 4)) (equalNodes_oneReduce .sum)
    (fun _ _ => .inl (by decide : 4 * 4 ≤ 0x7ffff000)) fun _ _ => ⟨⟨nofun, nofun⟩, rfl⟩).2 _ w hw).2
  rw [hsums e he rfl j j.isLt, Fin.sum_univ_four]
  change 0 + 1 + (j : ℕ) + (1 + 1 + j) + (2 + 1 + j) + (3 + 1 + j) = _
  omega

/-- The minimum of `float32` has no instance. -/
theorem min_fails : ¬ Correct (oneReduce .min) := by
  intro h
  have hfound := h.dispatch 0 (by decide : 0 < 1)
  rw [getStepPtr_isSome_iff] at hfound
  obtain hsum | hdtype := hfound
  · exact absurd hsum (by decide)
  · exact absurd hdtype (by decide)

end ReduceScatter
