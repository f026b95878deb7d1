import Moodist.Collective.Delivery

/-!
# All-gathers on the CPU

A sequence of all-gathers on one concurrency index, for any partition of the ranks into nodes.
-/

namespace AllGather

open Foundation CpuThread Collective

variable {size : ℕ}

/-- `input` is what the users have in their tensors when they call an all-gather. -/
structure CpuJob (size : ℕ) where
  nodes : Nodes size
  devices : ℕ
  devices_pos : 0 < devices
  length : ℕ
  bytes : ℕ → ℕ
  stepValue : ℕ → UInt32
  capacity : ℕ
  bytes_le : ∀ k, bytes k ≤ capacity
  input : ℕ → Fin size → Fin capacity → UInt8

def CpuJob.setup (job : CpuJob size) : Setup size UInt8 where
  nodes := job.nodes
  devices := job.devices
  devices_pos := job.devices_pos
  length := job.length
  work k := ⟨.allGather, job.bytes k, job.stepValue k⟩
  capacity := job.capacity
  numel_le := job.bytes_le
  combine _ _ a _ := a
  input k r _ := job.input k r

/-- The checks hold; when a rank is done, each row of its output is the input of that rank; nothing
that is still to be read for an all-gather is overwritten for a later one; and when nothing more
can happen, all ranks are done with all of them. -/
structure Gathers (job : CpuJob size)
    (w : EventGraph.State (Event job.setup) (CellVal job.setup)) : Prop where
  checks : ∀ e, (graph job.setup).Enabled w e → Check e w.memory
  output : ∀ e, (graph job.setup).Enabled w e → e.stmt = .done →
    ∀ (i : Fin size) (j : Fin job.capacity), (j : ℕ) < job.bytes e.op →
      w.memory (.output e.rank i j) = job.input e.op i j
  reuse : ∀ e, (graph job.setup).Enabled w e → ∀ cell, target e = some cell →
    (∀ q, cell ≠ .peerStepValue q) → ∀ b ∉ w.done, cell ∈ (graph job.setup).reads b → e.op ≤ b.op
  completes : (¬ ∃ e, (graph job.setup).Enabled w e) → ∀ k < job.length, ∀ r,
    ∃ e ∈ w.done, e.op = k ∧ e.rank = r ∧ e.stmt = .done

/-- All runs gather, and they end. -/
structure CpuCorrect (job : CpuJob size) : Prop where
  runs : ∀ junk w, (graph job.setup).Reachable (initial job.setup junk) w → Gathers job w
  ends : WellFounded fun w' w =>
    ∃ e, (graph job.setup).Enabled w e ∧ w' = (graph job.setup).next w e

section Correctness

variable {job : CpuJob size} (hstep : Increasing job.length job.stepValue)
  (hbytes : ∀ k < job.length, 0 < job.bytes k)

include hstep hbytes

theorem gathers
    (hcopy : ∀ k < job.length, job.bytes k ≤ 0x7ffff000 ∨ ∀ r, job.nodes.ipcRanks r = [])
    {junk : SetupCell job.setup → UInt8}
    {w : EventGraph.State (Event job.setup) (CellVal job.setup)}
    (h : (graph job.setup).Reachable (initial job.setup junk) w) : Gathers job w := by
  have hruns := runs (S := job.setup) hstep h
  refine ⟨?_, ?_, hruns.reuse, hruns.completes⟩
  · intro e he
    refine check_of_reads (hbytes e.op e.op_lt) (h.reads (lawful hstep) he) ?_ (.inr trivial)
    refine (hcopy e.op e.op_lt).imp (fun hle => ?_) fun hnil => hnil e.rank
    exact (Nat.mul_one _).trans_le hle
  · intro e he hs i j hj
    exact hruns.output e he hs i j ⟨fun h => absurd h Bool.false_ne_true, hj⟩

/-- A rank copies the rows of the others of its node in one call each. -/
theorem bytes_le_of_cpuCorrect (h : CpuCorrect job) {k : ℕ} (hk : k < job.length) {r p : Fin size}
    (hp : p ∈ job.nodes.ipcRanks r) : job.bytes k ≤ 0x7ffff000 := by
  let j : Fin job.capacity := ⟨0, (hbytes k hk).trans_le (job.bytes_le k)⟩
  let e : Event job.setup := ⟨k, r, .vmcopy p j, hk, rfl, hp, hbytes k hk⟩
  obtain ⟨m, hcheck⟩ := exists_check hstep e 0 fun junk w hw => (h.runs junk w hw).checks e
  have hcopy := hcheck.copy p (.vmcopy rfl)
  exact (Nat.mul_one _).symm.trans_le (processVmReadv_eq_iff.mp hcopy)

end Correctness

/-- All-gathers with increasing step values and no empty tensor gather the inputs and end, whatever
the nodes, the devices and the order of the steps, exactly if no row that another rank of a node
copies is larger than what one call moves. -/
theorem cpu_gathers_iff (job : CpuJob size) (hstep : Increasing job.length job.stepValue)
    (hbytes : ∀ k < job.length, 0 < job.bytes k) : CpuCorrect job ↔
      ∀ k < job.length, job.bytes k ≤ 0x7ffff000 ∨ ∀ r, job.nodes.ipcRanks r = [] := by
  constructor
  · intro h k hk
    refine or_iff_not_imp_right.mpr fun hne => ?_
    obtain ⟨r, hr⟩ := not_forall.mp hne
    obtain ⟨p, hp⟩ := List.exists_mem_of_ne_nil _ hr
    exact bytes_le_of_cpuCorrect hstep hbytes h hk hp
  · exact fun hcopy => ⟨fun junk w => gathers hstep hbytes hcopy, EventGraph.wellFounded_next⟩

/-- Two all-gathers with three devices, on a node with two ranks and one with one. -/
def twoGathers (bytes : ℕ) : CpuJob 3 where
  nodes := twoNodes
  devices := 3
  devices_pos := by decide
  length := 2
  bytes _ := bytes
  stepValue k := if k = 0 then 0x1000 else 0x2000
  capacity := bytes
  bytes_le _ := le_rfl
  input k r j := UInt8.ofNat (k + r + j)

theorem increasing_twoGathers (bytes : ℕ) :
    Increasing (twoGathers bytes).length (twoGathers bytes).stepValue where
  isStepValue k _ := by
    unfold twoGathers
    dsimp only
    split_ifs
    · exact ⟨0x1000, .init, rfl⟩
    · exact ⟨0x2000, .next .init, rfl⟩
  lt k k' hlt hk' := by
    have htwo : k' < 2 := hk'
    obtain rfl : k = 0 := by omega
    obtain rfl : k' = 1 := by omega
    exact (by decide : (0x1000 : UInt32).toNat < (0x2000 : UInt32).toNat)

theorem cpu_gathers_iff_twoGathers : CpuCorrect (twoGathers 5) :=
  (cpu_gathers_iff (twoGathers 5) (increasing_twoGathers 5) fun _ _ => (by decide : 0 < 5)).mpr
    fun _ _ => .inl (by decide : 5 ≤ 0x7ffff000)

/-- A row of one byte more than one call moves. -/
theorem large_row_fails : ¬ CpuCorrect (twoGathers 0x7ffff001) := by
  intro h
  have hmem : (2 : Fin 3) ∈ twoNodes.ipcRanks 0 := by decide
  have hle := bytes_le_of_cpuCorrect (increasing_twoGathers 0x7ffff001)
    (fun _ _ => (by decide : 0 < 0x7ffff001)) h (by decide : 0 < 2) hmem
  exact absurd hle (by decide : ¬ 0x7ffff001 ≤ 0x7ffff000)

end AllGather
