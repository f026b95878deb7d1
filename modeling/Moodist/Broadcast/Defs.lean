import Moodist.AllGather.Ring
import Moodist.Broadcast.Pieces
import Moodist.CpuThread.StepValues
import Moodist.Foundation.Works

/-!
# Broadcasts on the CPU

Model of `WorkBroadcastRingCpu` of `core/cputhread.cc`. The source copies its tensor to a buffer and
sends it, piece by piece, to the next rank of the ring; each rank of the ring sends on what it has
got and copies it to its tensor; the other ranks of a node copy the tensor of the source or of the
rank of the ring. All ranks run the same sequence of broadcasts on one concurrency index.

The bytes of a remote write arrive one by one in any order, and its callback is called after the
last of them. A remote write of a step value or of a dyn takes what the buffer holds when it
completes. The tensor of a rank is set by its user before each broadcast.
-/

namespace Broadcast

open Foundation CpuThread

/-! ## Works and their statements -/

structure Work (size : ℕ) where
  sourceRank : Fin size
  bytes : ℕ
  stepValue : UInt32
  deriving DecidableEq, Repr

/-- `capacity` is the size of the buffers and tensors, and `input` what the user of a rank has in
its tensor when it calls a broadcast. -/
structure Setup (size : ℕ) where
  ring : AllGather.Ring size
  devices : ℕ
  devices_pos : 0 < devices
  length : ℕ
  work : ℕ → Work size
  capacity : ℕ
  bytes_le : ∀ k, (work k).bytes ≤ capacity
  input : ℕ → Fin size → Fin capacity → UInt8

/-- The statements. `complete…` and `data` are the completions of remote writes, the latter for each
byte, and `publish v` sets the step value that the ranks of the node see to `stepValue + v`. -/
inductive Stmt (size devices capacity : ℕ) where
  | enter
  | fill (j : Fin capacity)
  | setStepValue
  | copyIn (j : Fin capacity)
  | setDyn
  | writeDyn
  | completeDyn
  | setAddresses
  | waitDyn
  | visit (di : Fin devices) (c : Fin numChunks)
  | data (di : Fin devices) (c : Fin numChunks) (j : Fin capacity)
  | callback (di : Fin devices) (c : Fin numChunks)
  | completeStepValue (di : Fin devices) (c : Fin numChunks)
  | copyOut (di : Fin devices) (c : Fin numChunks) (j : Fin capacity)
  | publish (v : Fin 2)
  | waitProxy
  | vmcopy (j : Fin capacity)
  | waitPeer (i : Fin size)
  | done
  deriving DecidableEq, Fintype

variable {size : ℕ} (S : Setup size)

namespace Setup

def source (k : ℕ) : Fin size := (S.work k).sourceRank

def bytes (k : ℕ) : ℕ := (S.work k).bytes

def stepValue (k : ℕ) : UInt32 := (S.work k).stepValue

def recvFrom (k : ℕ) (r : Fin size) : Fin size := S.ring.recvFrom (S.source k) r

def sendTo (k : ℕ) (r : Fin size) : Fin size := S.ring.sendTo (S.source k) r

def copyFrom (k : ℕ) (r : Fin size) : Option (Fin size) := S.ring.copyFrom (S.source k) r

/-- The rank runs the loop over the pieces. -/
def InLoop (k : ℕ) (r : Fin size) : Prop := S.sendTo k r ≠ r ∨ S.recvFrom k r ≠ r

/-- The number of chunks of a tensor. -/
def chunks (k : ℕ) : ℕ := (visited (S.bytes k)).getD 0

def pieceBytes (k : ℕ) (di : Fin S.devices) (c : Fin numChunks) : ℕ :=
  pieceSize (S.bytes k) S.devices di c

/-- A rank that sends on waits for the pieces that are not empty, the last one for all. -/
def MustWait (k : ℕ) (r : Fin size) (di : Fin S.devices) (c : Fin numChunks) : Prop :=
  S.sendTo k r = r ∨ (0 < S.pieceBytes k di c ∧ r ≠ S.source k)

instance decidableMustWait (k : ℕ) (r : Fin size) (di : Fin S.devices) (c : Fin numChunks) :
    Decidable (S.MustWait k r di c) :=
  inferInstanceAs (Decidable (_ ∨ _))

/-- The byte is in a piece of the tensor. -/
def HasByte (k : ℕ) (di : Fin S.devices) (c : Fin numChunks) (j : Fin S.capacity) : Prop :=
  c < S.chunks k ∧ InPiece (S.bytes k) S.devices di c j

def has (k : ℕ) (r : Fin size) : Stmt size S.devices S.capacity → Prop
  | .enter | .setStepValue | .setAddresses | .publish _ | .done => True
  | .fill j => j < S.bytes k
  | .copyIn j => r = S.source k ∧ j < S.bytes k
  | .setDyn | .writeDyn | .completeDyn => S.recvFrom k r ≠ r
  | .waitDyn => S.sendTo k r ≠ r
  | .visit _ c => S.InLoop k r ∧ c < S.chunks k
  | .data di c j => S.sendTo k r ≠ r ∧ S.HasByte k di c j
  | .callback di c => S.sendTo k r ≠ r ∧ c < S.chunks k ∧ 0 < S.pieceBytes k di c
  | .completeStepValue _ c => S.sendTo k r ≠ r ∧ c < S.chunks k
  | .copyOut di c j => S.InLoop k r ∧ S.HasByte k di c j
  | .waitProxy => ∃ p, S.copyFrom k r = some p
  | .vmcopy j => (∃ p, S.copyFrom k r = some p) ∧ j < S.bytes k
  | .waitPeer i => i ∈ S.ring.ipcRanks r

end Setup

/-- The place of a statement. A completion stands where others may wait for it. -/
def Stmt.stage {devices capacity : ℕ} : Stmt size devices capacity → ℕ
  | .enter => 0
  | .fill _ => 1
  | .setStepValue => 2
  | .copyIn _ => 3
  | .setDyn => 4
  | .writeDyn => 5
  | .completeDyn | .setAddresses => 6
  | .waitDyn => 7
  | .visit _ _ | .data _ _ _ | .callback _ _ | .completeStepValue _ _ | .copyOut _ _ _ => 8
  | .publish v => if v = 0 then 9 else 12
  | .waitProxy => 10
  | .vmcopy _ => 11
  | .waitPeer _ => 13
  | .done => 14

/-- The statements that the thread itself runs. -/
def Stmt.isLocal {devices capacity : ℕ} : Stmt size devices capacity → Bool
  | .completeDyn | .data _ _ _ | .completeStepValue _ _ => false
  | _ => true

/-- What has to happen before a statement on the same rank. Devices go through the chunks
independently, and the callback of a piece sends its step value. -/
inductive Order (r : Fin size) :
    Stmt size S.devices S.capacity → Stmt size S.devices S.capacity → Prop
  | enter {s} (h : s ≠ .enter) : Order r .enter s
  | stage {s s'} (h : s.stage < s'.stage) (hs : s.isLocal = true) (hs' : s'.isLocal = true) :
      Order r s s'
  | completeDyn : Order r .writeDyn .completeDyn
  | visit {di c c'} (h : c < c') : Order r (.visit di c) (.visit di c')
  | copyOut {di c j} : Order r (.visit di c) (.copyOut di c j)
  | copied {di c c' j} (h : c < c') : Order r (.copyOut di c j) (.visit di c')
  | data {di c j} : Order r (.visit di c) (.data di c j)
  | callback {di c j} : Order r (.data di c j) (.callback di c)
  | signal {di c} : Order r (.callback di c) (.completeStepValue di c)
  | empty {di c} : Order r (.visit di c) (.completeStepValue di c)
  | waitPeer {i i'} (h : (S.ring.ipcRanks r).idxOf i < (S.ring.ipcRanks r).idxOf i') :
      Order r (.waitPeer i) (.waitPeer i')

def broadcastWorks : Works (Fin size) (Stmt size S.devices S.capacity) where
  length := S.length
  has := S.has
  enter := .enter
  order _ := Order S
  has_enter _ _ := trivial
  enter_first _ h := .enter h

abbrev Event := (broadcastWorks S).Event

/-! ## The memory -/

/-- `gatherAddress` is the buffer that the rank has for a work. -/
structure DynamicAddresses where
  isBroadcast : Bool
  gatherAddress : ℕ
  gatherBytes : ℕ
  stepValue : UInt32
  deriving DecidableEq, Repr

/-- What the ranks of the node see, without the step value. `inputAddress` is the tensor of a
work. -/
structure CpuAddresses where
  inputAddress : ℕ
  bytes : ℕ
  deriving DecidableEq, Repr

inductive Cell (size devices capacity : ℕ) where
  | outStepValue (r : Fin size)
  | outDyn (r : Fin size)
  | inDyn (r i : Fin size)
  | inStepValue (r source : Fin size) (di : Fin devices) (c : Fin numChunks)
  | addresses (r : Fin size)
  | peerStepValue (r : Fin size)
  | temporary (r : Fin size) (j : Fin capacity)
  | tensor (r : Fin size) (j : Fin capacity)
  deriving DecidableEq

def Cell.Val {devices capacity : ℕ} : Cell size devices capacity → Type
  | .outStepValue _ => UInt32
  | .outDyn _ => DynamicAddresses
  | .inDyn _ _ => DynamicAddresses
  | .inStepValue _ _ _ _ => UInt32
  | .addresses _ => CpuAddresses
  | .peerStepValue _ => UInt32
  | .temporary _ _ => UInt8
  | .tensor _ _ => UInt8

abbrev SetupCell := Cell size S.devices S.capacity

abbrev CellVal : SetupCell S → Type := Cell.Val

abbrev Memory := ∀ c, CellVal S c

/-- The slots are zero at first; buffers and tensors may hold anything. -/
def initial (junk : SetupCell S → UInt8) : Memory S
  | .outStepValue _ => (0 : UInt32)
  | .outDyn _ => (⟨false, 0, 0, 0⟩ : DynamicAddresses)
  | .inDyn _ _ => (⟨false, 0, 0, 0⟩ : DynamicAddresses)
  | .inStepValue _ _ _ _ => (0 : UInt32)
  | .addresses _ => (⟨0, 0⟩ : CpuAddresses)
  | .peerStepValue _ => (0 : UInt32)
  | .temporary r j => junk (.temporary r j)
  | .tensor r j => junk (.tensor r j)

/-- The dyn of a rank in a work. -/
def Setup.dyn (k : ℕ) : DynamicAddresses := ⟨true, k, S.bytes k, S.stepValue k⟩

section Effect

variable {S} (e : Event S)

/-- The slot a statement waits for. -/
def waits : Option (SetupCell S) :=
  match e.stmt with
  | .waitDyn => some (.inDyn e.rank (S.sendTo e.op e.rank))
  | .visit di c =>
    if S.MustWait e.op e.rank di c then some (.inStepValue e.rank (S.source e.op) di c) else none
  | .waitProxy => (S.copyFrom e.op e.rank).map .peerStepValue
  | .waitPeer i => some (.peerStepValue i)
  | _ => none

def pass (m : Memory S) : Prop :=
  match e.stmt with
  | .waitDyn =>
    (m (.inDyn e.rank (S.sendTo e.op e.rank)) : DynamicAddresses).stepValue = S.stepValue e.op
  | .visit di c => S.MustWait e.op e.rank di c →
    (m (.inStepValue e.rank (S.source e.op) di c) : UInt32) = S.stepValue e.op
  | .waitProxy => ∀ p, S.copyFrom e.op e.rank = some p →
    S.stepValue e.op ≤ (m (.peerStepValue p) : UInt32)
  | .waitPeer i => S.stepValue e.op + 1 ≤ (m (.peerStepValue i) : UInt32)
  | _ => True

def takes : Set (SetupCell S) :=
  match e.stmt with
  | .copyIn j => {.tensor e.rank j}
  | .completeDyn => {.outDyn e.rank}
  | .visit di c => {cell | S.sendTo e.op e.rank ≠ e.rank ∧ 0 < S.pieceBytes e.op di c ∧
      cell = .inDyn e.rank (S.sendTo e.op e.rank)}
  | .data _ _ j => {.temporary e.rank j}
  | .completeStepValue _ _ => {.outStepValue e.rank}
  | .copyOut _ _ j => {.temporary e.rank j}
  | .vmcopy j => {cell | ∃ p, S.copyFrom e.op e.rank = some p ∧
      (cell = .addresses p ∨ cell = .tensor p j)}
  | .done => {cell | ∃ j : Fin S.capacity, (j : ℕ) < S.bytes e.op ∧ cell = .tensor e.rank j}
  | _ => ∅

/-- The cell that a statement writes. -/
def target : Option (SetupCell S) :=
  match e.stmt with
  | .fill j => some (.tensor e.rank j)
  | .setStepValue => some (.outStepValue e.rank)
  | .copyIn j => some (.temporary e.rank j)
  | .setDyn => some (.outDyn e.rank)
  | .completeDyn => some (.inDyn (S.recvFrom e.op e.rank) e.rank)
  | .setAddresses => some (.addresses e.rank)
  | .data _ _ j => some (.temporary (S.sendTo e.op e.rank) j)
  | .completeStepValue di c =>
    some (.inStepValue (S.sendTo e.op e.rank) (S.source e.op) di c)
  | .copyOut _ _ j => some (.tensor e.rank j)
  | .publish _ => some (.peerStepValue e.rank)
  | .vmcopy j => some (.tensor e.rank j)
  | _ => none

/-- The byte that a statement writes. -/
def byte (m : Memory S) (j : Fin S.capacity) : UInt8 :=
  match e.stmt with
  | .fill _ => S.input e.op e.rank j
  | .copyIn _ => m (.tensor e.rank j)
  | .vmcopy _ => m (.tensor ((S.copyFrom e.op e.rank).getD e.rank) j)
  | _ => m (.temporary e.rank j)

def value (m : Memory S) : Memory S
  | .outStepValue _ => S.stepValue e.op
  | .outDyn _ => S.dyn e.op
  | .inDyn _ _ => m (.outDyn e.rank)
  | .inStepValue _ _ _ _ => m (.outStepValue e.rank)
  | .addresses _ => (⟨e.op, S.bytes e.op⟩ : CpuAddresses)
  | .peerStepValue _ =>
    match e.stmt with
    | .publish v => S.stepValue e.op + UInt32.ofNat v
    | _ => (0 : UInt32)
  | .temporary _ j => byte e m j
  | .tensor _ j => byte e m j

/-- `CHECK_DYN` after the wait for a dyn, the check of the size before a copy and that of `vmcopy`
on what one call has moved, and that a remote write and a copy go to the buffer and the tensor of
this work. -/
def check (m : Memory S) : Prop :=
  match e.stmt with
  | .waitDyn => (m (.inDyn e.rank (S.sendTo e.op e.rank)) : DynamicAddresses) = S.dyn e.op
  | .visit di c => S.sendTo e.op e.rank ≠ e.rank → 0 < S.pieceBytes e.op di c →
    (m (.inDyn e.rank (S.sendTo e.op e.rank)) : DynamicAddresses) = S.dyn e.op
  | .vmcopy _ => ∀ p, S.copyFrom e.op e.rank = some p →
    (m (.addresses p) : CpuAddresses) = ⟨e.op, S.bytes e.op⟩ ∧
      processVmReadv (S.bytes e.op) = S.bytes e.op
  | _ => True

end Effect

def graph : EventGraph (Event S) (SetupCell S) (CellVal S) where
  ready X b := ∀ a, Works.Before a b → a ∈ X
  waits := waits
  pass := pass
  reads e := {c | waits e = some c ∨ c ∈ takes e}
  target := target
  value := value

end Broadcast
