import Moodist.AllGather.Ring
import Moodist.CpuThread.StepValues
import Moodist.Foundation.Slices
import Moodist.Foundation.Works

/-!
# All-gathers and reduce-scatters on the CPU

Model of `WorkAllGatherCpu` and `WorkReduceScatterCpu` of `core/cputhread.cc`. All ranks run the
same sequence of works on one concurrency index. A rank tells those it receives from where to write,
copies or reads what the ranks of its node have, sends to one rank of each other node, and goes on
when it has got what is sent to it and the ranks of its node have ended the work.

The elements of a remote write arrive one by one in any order, and its callback is called after the
last of them. A remote write of a step value or of a dyn takes what the buffer holds when it
completes. The input of a rank is set by its user before each work. Of a sum only the rank that
forms it sees the steps, so it is formed at once of the parts, each read in its turn.
-/

namespace Collective

open Foundation CpuThread

/-! ## Works -/

inductive Dtype where
  | float32
  | float64
  | int32
  | int64
  | bfloat16
  deriving DecidableEq, Repr

inductive Reduction where
  | sum
  | min
  | max
  | avg
  deriving DecidableEq, Repr

/-- `CpuTypes::bytes` -/
def Dtype.bytes : Dtype → ℕ
  | float32 => 4
  | float64 => 8
  | int32 => 4
  | int64 => 8
  | bfloat16 => 2

/-- `CpuReductions::reduce` and the operators of the type do not call `fatal`. -/
def Supported (dtype : Dtype) (reduction : Reduction) : Prop :=
  dtype ≠ .bfloat16 ∧ reduction ≠ .avg

/-- `inPlace`: the output is the row of the rank in its input. -/
inductive Kind where
  | allGather
  | reduceScatter (dtype : Dtype) (reduction : Reduction) (inPlace : Bool)
  deriving DecidableEq, Repr

namespace Kind

def isReduce : Kind → Bool
  | allGather => false
  | reduceScatter _ _ _ => true

def inPlace : Kind → Bool
  | allGather => false
  | reduceScatter _ _ inPlace => inPlace

def itembytes : Kind → ℕ
  | allGather => 1
  | reduceScatter dtype _ _ => dtype.bytes

end Kind

/-- `numel` is the number of elements of a row. -/
structure Work where
  kind : Kind
  numel : ℕ
  stepValue : UInt32
  deriving DecidableEq, Repr

/-- `capacity` bounds the rows, `combine` is the operator of a reduction, and `input` what the user
of a rank has in the rows of its input when it calls a work. An all-gather has the row of the
rank only. -/
structure Setup (size : ℕ) (α : Type) where
  nodes : AllGather.Nodes size
  devices : ℕ
  devices_pos : 0 < devices
  length : ℕ
  work : ℕ → Work
  capacity : ℕ
  numel_le : ∀ k, (work k).numel ≤ capacity
  combine : Dtype → Reduction → α → α → α
  input : ℕ → Fin size → Fin size → Fin capacity → α

variable {size : ℕ} {α : Type} (S : Setup size α)

namespace Setup

def isReduce (k : ℕ) : Bool := (S.work k).kind.isReduce

def inPlace (k : ℕ) : Bool := (S.work k).kind.inPlace

def numel (k : ℕ) : ℕ := (S.work k).numel

def itembytes (k : ℕ) : ℕ := (S.work k).kind.itembytes

def bytes (k : ℕ) : ℕ := S.numel k * S.itembytes k

def stepValue (k : ℕ) : UInt32 := (S.work k).stepValue

def ipcRanks (r : Fin size) : List (Fin size) := S.nodes.ipcRanks r

/-- `ReduceScatter::init` swaps the lists. -/
def sendRanks (k : ℕ) (r : Fin size) : List (Fin size) :=
  if S.isReduce k then S.nodes.recvRanks r else S.nodes.sendRanks r

def recvRanks (k : ℕ) (r : Fin size) : List (Fin size) :=
  if S.isReduce k then S.nodes.sendRanks r else S.nodes.recvRanks r

/-- `chunkSize` of `writeDataDistributed`. -/
def chunkSize (k : ℕ) : ℕ := S.bytes k / S.devices / 128 * 128

/-- The element is in the part that a device writes. -/
def HasElement (k : ℕ) (di : Fin S.devices) (j : Fin S.capacity) : Prop :=
  InSlice (S.bytes k) (S.chunkSize k) S.devices di (S.itembytes k * j)

/-- The row of the buffer that is sent to a rank; an all-gather sends the same one to all. -/
def sendRow (k : ℕ) (r i : Fin size) : Fin size := if S.isReduce k then i else r

/-- `prevRecvSource` when the entry of `proxyInfo` is at hand. -/
def prevRecvSource (r : Fin size) (info : Fin size × Fin size) : Option (Fin size) :=
  match (S.nodes.proxyInfo r).idxOf info with
  | 0 => none
  | n + 1 => (S.nodes.proxyInfo r)[n]?.map Prod.fst

/-- A proxy waits once for entries with the same source. -/
def MustWait (r source destination : Fin size) : Prop :=
  S.prevRecvSource r (source, destination) ≠ some source

instance decidableMustWait (r source destination : Fin size) :
    Decidable (S.MustWait r source destination) :=
  inferInstanceAs (Decidable (_ ≠ _))

def reduce (k : ℕ) : α → α → α :=
  match (S.work k).kind with
  | .allGather => fun a _ => a
  | .reduceScatter dtype reduction _ => S.combine dtype reduction

/-- `reduceAdd` for the inputs in turn; the first one is copied. -/
def sum (k : ℕ) (first : α) (rest : List α) : α := rest.foldl (S.reduce k) first

/-- `reduce` does not call `fatal`. -/
def ReduceSupported (k : ℕ) : Prop :=
  match (S.work k).kind with
  | .allGather => True
  | .reduceScatter dtype reduction _ => Supported dtype reduction

end Setup

/-! ## Statements -/

/-- The statements. `setDyn` also starts the write of the dyn; `completeDyn`, `completeStepValue`
and `data` are the completions of remote writes, the latter for each element; `publish v` sets the
step value that the ranks of the node see to `stepValue + v`, and `waitPeer v` waits for it.

`readSend` and `read` are the inputs of `reduceAdd`, and `reduceSend` and `reduceOut` its
results. -/
inductive Stmt (size devices capacity : ℕ) where
  | enter
  | fill (row : Fin size) (j : Fin capacity)
  | setStepValue
  | setDyn (i : Fin size)
  | completeDyn (i : Fin size)
  | setAddresses
  | publish (v : Fin 2)
  | copyIn (j : Fin capacity)
  | waitPeer (v : Fin 2) (i : Fin size)
  | readSend (i p : Fin size) (j : Fin capacity)
  | reduceSend (i : Fin size) (j : Fin capacity)
  | waitDyn (i : Fin size)
  | data (i : Fin size) (di : Fin devices) (j : Fin capacity)
  | callback (i : Fin size)
  | completeStepValue (i : Fin size)
  | copyOwn (j : Fin capacity)
  | read (p : Fin size) (j : Fin capacity)
  | vmcopy (p : Fin size) (j : Fin capacity)
  | forward (source destination : Fin size)
  | proxyCopy (source proxy : Fin size) (j : Fin capacity)
  | waitRecv (i : Fin size)
  | copyOut (i : Fin size) (j : Fin capacity)
  | reduceOut (j : Fin capacity)
  | done
  deriving DecidableEq, Fintype

namespace Stmt

variable {devices capacity : ℕ}

def stage : Stmt size devices capacity → ℕ
  | enter => 0
  | fill _ _ => 1
  | setStepValue => 2
  | setDyn _ => 3
  | completeDyn _ | setAddresses => 4
  | publish v => if v.val = 0 then 5 else 15
  | copyIn _ => 6
  | waitPeer v _ => if v.val = 0 then 7 else 16
  | readSend _ _ _ | reduceSend _ _ | waitDyn _ | data _ _ _ | callback _ | completeStepValue _ => 8
  | copyOwn _ | read _ _ => 9
  | vmcopy _ _ => 10
  | forward _ _ => 11
  | proxyCopy _ _ _ => 12
  | waitRecv _ | copyOut _ _ => 13
  | reduceOut _ => 14
  | done => 17

/-- The place of a statement in the body of its loop. -/
def sub : Stmt size devices capacity → ℕ
  | reduceSend _ _ | copyOut _ _ => 1
  | waitDyn _ => 2
  | data _ _ _ => 3
  | callback _ => 4
  | completeStepValue _ => 5
  | _ => 0

/-- The statements that the thread itself runs, one after the other. -/
def isLocal : Stmt size devices capacity → Bool
  | completeDyn _ | data _ _ _ | callback _ | completeStepValue _ => false
  | _ => true

/-- A loop in which a proxy goes through both of its lists. -/
def isForward : Stmt size devices capacity → Bool
  | forward _ _ => true
  | _ => false

def isProxyCopy : Stmt size devices capacity → Bool
  | proxyCopy _ _ _ => true
  | _ => false

end Stmt

namespace Setup

/-- The statements of a work on a rank. -/
def has (k : ℕ) (r : Fin size) : Stmt size S.devices S.capacity → Prop
  | .enter | .setStepValue | .setAddresses | .publish _ | .done => True
  | .fill row j => (S.isReduce k = true ∨ row = r) ∧ j < S.numel k
  | .setDyn i | .completeDyn i | .waitRecv i => i ∈ S.recvRanks k r
  | .copyIn j | .copyOwn j => S.isReduce k = false ∧ j < S.numel k
  | .waitPeer _ i => i ∈ S.ipcRanks r
  | .readSend i p j => S.isReduce k = true ∧ i ∈ S.sendRanks k r ∧ (p = r ∨ p ∈ S.ipcRanks r) ∧
      j < S.numel k
  | .reduceSend i j => S.isReduce k = true ∧ i ∈ S.sendRanks k r ∧ j < S.numel k
  | .waitDyn i | .callback i | .completeStepValue i => i ∈ S.sendRanks k r
  | .data i di j => i ∈ S.sendRanks k r ∧ j < S.numel k ∧ S.HasElement k di j
  | .read p j => S.isReduce k = true ∧ (p = r ∨ p ∈ S.ipcRanks r) ∧ j < S.numel k
  | .vmcopy p j => S.isReduce k = false ∧ p ∈ S.ipcRanks r ∧ j < S.numel k
  | .forward source destination =>
    S.isReduce k = false ∧ (source, destination) ∈ S.nodes.proxyInfo r
  | .proxyCopy source proxy j =>
    S.isReduce k = false ∧ (source, proxy) ∈ S.nodes.proxyDestinationInfo r ∧ j < S.numel k
  | .copyOut i j => i ∈ S.recvRanks k r ∧ j < S.numel k
  | .reduceOut j => S.isReduce k = true ∧ j < S.numel k

/-- The index of the loop that a statement is in. -/
def index (k : ℕ) (r : Fin size) : Stmt size S.devices S.capacity → ℕ
  | .waitPeer _ i => (S.ipcRanks r).idxOf i
  | .readSend i _ _ | .reduceSend i _ | .waitDyn i | .data i _ _ | .callback i
  | .completeStepValue i => (S.sendRanks k r).idxOf i
  | .forward source destination => (S.nodes.proxyInfo r).idxOf (source, destination)
  | .proxyCopy source proxy _ => (S.nodes.proxyDestinationInfo r).idxOf (source, proxy)
  | .waitRecv i | .copyOut i _ => (S.recvRanks k r).idxOf i
  | _ => 0

end Setup

/-- What has to happen before a statement on the same rank. The callback of a write sends the step
value, and the thread waits for all of them before it publishes the end of the work. -/
inductive Order (k : ℕ) (r : Fin size) :
    Stmt size S.devices S.capacity → Stmt size S.devices S.capacity → Prop
  | enter {s} (h : s ≠ .enter) : Order k r .enter s
  | stage {s s'} (h : s.stage < s'.stage) (hs : s.isLocal = true) (hs' : s'.isLocal = true)
      (hproxy : s.isForward = false ∨ s'.isProxyCopy = false) : Order k r s s'
  | loop {s s'} (hstage : s.stage = s'.stage)
      (h : toLex (S.index k r s, s.sub) < toLex (S.index k r s', s'.sub)) (hs : s.isLocal = true)
      (hs' : s'.isLocal = true) : Order k r s s'
  | completeDyn {i} : Order k r (.setDyn i) (.completeDyn i)
  | data {i di j} : Order k r (.waitDyn i) (.data i di j)
  | posted {i} : Order k r (.waitDyn i) (.callback i)
  | callback {i di j} : Order k r (.data i di j) (.callback i)
  | signal {i} : Order k r (.callback i) (.completeStepValue i)
  | drain {i} : Order k r (.callback i) (.publish 1)

def collectiveWorks : Works (Fin size) (Stmt size S.devices S.capacity) where
  length := S.length
  has := S.has
  enter := .enter
  order := Order S
  has_enter _ _ := trivial
  enter_first _ h := .enter h

abbrev Event := (collectiveWorks S).Event

variable {S} in
/-- The write to the rank has been started when the thread last looked at `liveSends` before the
statement. -/
def Started (e : Event S) (i : Fin size) : Prop :=
  i ∈ S.sendRanks e.op e.rank ∧ e.stmt.isLocal = true ∧
    (e.stmt.stage = 8 ∧ (S.sendRanks e.op e.rank).idxOf i < S.index e.op e.rank e.stmt ∨
      8 < e.stmt.stage)

variable {S} in
/-- The callback of a write of the same work has been called. -/
def CalledBack (X : Set (Event S)) (e : Event S) (i : Fin size) : Prop :=
  ∃ a ∈ X, a.op = e.op ∧ a.rank = e.rank ∧ a.stmt = .callback i

variable {S} in
/-- `liveSends < 2`: of two writes that have been started, one has ended. -/
def Throttled (X : Set (Event S)) (e : Event S) : Prop :=
  ∀ i i', i ≠ i' → Started e i → Started e i' → CalledBack X e i ∨ CalledBack X e i'

/-! ## The memory -/

inductive OpType where
  | none
  | allGatherCpu
  | reduceScatterCpu
  deriving DecidableEq, Repr

/-- `gatherAddress` is the buffer that the rank has for a work, and a row in it. -/
structure DynamicAddresses where
  opType : OpType
  gatherAddress : ℕ × ℕ
  gatherBytes : ℕ
  stepValue : UInt32
  deriving DecidableEq, Repr

/-- What the ranks of the node see, without the step value. The addresses are those of a work;
a reduce-scatter does not set `bytes`. -/
structure CpuAddresses where
  inputAddress : ℕ
  outputAddress : ℕ
  bytes : Option ℕ
  deriving DecidableEq, Repr

/-- `sendBuffer` is `inputBuffer` in an all-gather, with the row of the rank only; `received` is
`outputBuffer` or `recvBuffer`, and `part` what `reduceAdd` is called with. -/
inductive Cell (size capacity : ℕ) where
  | outStepValue (r : Fin size)
  | outDyn (r i : Fin size)
  | inDyn (r i : Fin size)
  | inStepValue (r i : Fin size)
  | addresses (r : Fin size)
  | peerStepValue (r : Fin size)
  | proxyReady (r source : Fin size)
  | sendBuffer (r i : Fin size) (j : Fin capacity)
  | received (r i : Fin size) (j : Fin capacity)
  | part (r i p : Fin size) (j : Fin capacity)
  | input (r row : Fin size) (j : Fin capacity)
  | output (r row : Fin size) (j : Fin capacity)
  deriving DecidableEq

def Cell.Val {capacity : ℕ} (α : Type) : Cell size capacity → Type
  | .outStepValue _ => UInt32
  | .outDyn _ _ => DynamicAddresses
  | .inDyn _ _ => DynamicAddresses
  | .inStepValue _ _ => UInt32
  | .addresses _ => CpuAddresses
  | .peerStepValue _ => UInt32
  | .proxyReady _ _ => UInt32
  | .sendBuffer _ _ _ => α
  | .received _ _ _ => α
  | .part _ _ _ _ => α
  | .input _ _ _ => α
  | .output _ _ _ => α

abbrev SetupCell := Cell size S.capacity

abbrev CellVal : SetupCell S → Type := Cell.Val α

abbrev Memory := ∀ c, CellVal S c

/-- The slots are zero at first; buffers and tensors may hold anything. -/
def initial (junk : SetupCell S → α) : Memory S
  | .outStepValue _ => (0 : UInt32)
  | .outDyn _ _ => (⟨.none, (0, 0), 0, 0⟩ : DynamicAddresses)
  | .inDyn _ _ => (⟨.none, (0, 0), 0, 0⟩ : DynamicAddresses)
  | .inStepValue _ _ => (0 : UInt32)
  | .addresses _ => (⟨0, 0, none⟩ : CpuAddresses)
  | .peerStepValue _ => (0 : UInt32)
  | .proxyReady _ _ => (0 : UInt32)
  | .sendBuffer r i j => junk (.sendBuffer r i j)
  | .received r i j => junk (.received r i j)
  | .part r i p j => junk (.part r i p j)
  | .input r row j => junk (.input r row j)
  | .output r row j => junk (.output r row j)

namespace Setup

/-- The dyn that a rank sends to one it receives from. -/
def dyn (k : ℕ) (r i : Fin size) : DynamicAddresses :=
  if S.isReduce k then
    ⟨.reduceScatterCpu, (k, (S.recvRanks k r).idxOf i), S.bytes k, S.stepValue k⟩
  else
    ⟨.allGatherCpu, (k, i), S.bytes k, S.stepValue k⟩

/-- What a rank lets the others of its node know. -/
def cpuAddresses (k : ℕ) : CpuAddresses :=
  ⟨k, k, if S.isReduce k then none else some (S.bytes k)⟩

def outputCell (k : ℕ) (r row : Fin size) (j : Fin S.capacity) : SetupCell S :=
  if S.inPlace k then .input r row j else .output r row j

def HasOutput (k : ℕ) (r row : Fin size) (j : Fin S.capacity) : Prop :=
  (S.isReduce k = true → row = r) ∧ j < S.numel k

end Setup

section Effect

variable {S} (e : Event S)

/-- The slot a statement waits for. -/
def waits : Option (SetupCell S) :=
  match e.stmt with
  | .waitPeer _ i => some (.peerStepValue i)
  | .waitDyn i => some (.inDyn e.rank i)
  | .forward source destination =>
    if S.MustWait e.rank source destination then some (.inStepValue e.rank source) else none
  | .proxyCopy source _ _ => some (.proxyReady e.rank source)
  | .waitRecv i => some (.inStepValue e.rank i)
  | _ => none

def pass (m : Memory S) : Prop :=
  match e.stmt with
  | .waitPeer v i => S.stepValue e.op + UInt32.ofNat v ≤ (m (.peerStepValue i) : UInt32)
  | .waitDyn i => (m (.inDyn e.rank i) : DynamicAddresses).stepValue = S.stepValue e.op
  | .forward source destination => S.MustWait e.rank source destination →
    (m (.inStepValue e.rank source) : UInt32) = S.stepValue e.op
  | .proxyCopy source _ _ => S.stepValue e.op ≤ (m (.proxyReady e.rank source) : UInt32)
  | .waitRecv i => (m (.inStepValue e.rank i) : UInt32) = S.stepValue e.op
  | _ => True

/-- The statement looks at what another rank of the node has published. -/
inductive Looks : Fin size → Prop
  | vmcopy {p j} (hs : e.stmt = .vmcopy p j) : Looks p
  | proxyCopy {source proxy j} (hs : e.stmt = .proxyCopy source proxy j) : Looks proxy
  | readSend {i p j} (hs : e.stmt = .readSend i p j) (hne : p ≠ e.rank) : Looks p
  | read {p j} (hs : e.stmt = .read p j) (hne : p ≠ e.rank) : Looks p

/-- The element of an input that a statement takes. -/
inductive ReadsInput : Fin size → Fin size → Fin S.capacity → Prop
  | copyIn {j} (hs : e.stmt = .copyIn j) : ReadsInput e.rank e.rank j
  | copyOwn {j} (hs : e.stmt = .copyOwn j) : ReadsInput e.rank e.rank j
  | vmcopy {p j} (hs : e.stmt = .vmcopy p j) : ReadsInput p p j
  | readSend {i p j} (hs : e.stmt = .readSend i p j) : ReadsInput p i j
  | read {p j} (hs : e.stmt = .read p j) : ReadsInput p e.rank j

/-- The cells that a statement takes data from. -/
inductive Takes : SetupCell S → Prop
  | outDyn {i} (hs : e.stmt = .completeDyn i) : Takes (.outDyn e.rank i)
  | outStepValue {i} (hs : e.stmt = .completeStepValue i) : Takes (.outStepValue e.rank)
  | addresses {p} (h : Looks e p) : Takes (.addresses p)
  | peerStepValue {p} (h : Looks e p) : Takes (.peerStepValue p)
  | input {p row j} (h : ReadsInput e p row j) : Takes (.input p row j)
  | sendBuffer {i di j} (hs : e.stmt = .data i di j) :
      Takes (.sendBuffer e.rank (S.sendRow e.op e.rank i) j)
  | proxied {source proxy j} (hs : e.stmt = .proxyCopy source proxy j) :
      Takes (.received proxy source j)
  | received {i j} (hs : e.stmt = .copyOut i j) : Takes (.received e.rank i j)
  | partSend {i p j} (hs : e.stmt = .reduceSend i j) (hp : p = e.rank ∨ p ∈ S.ipcRanks e.rank) :
      Takes (.part e.rank i p j)
  | part {p j} (hs : e.stmt = .reduceOut j)
      (hp : (p = e.rank ∨ p ∈ S.ipcRanks e.rank) ∨ p ∈ S.recvRanks e.op e.rank) :
      Takes (.part e.rank e.rank p j)
  | output {row j} (hs : e.stmt = .done) (h : S.HasOutput e.op e.rank row j) :
      Takes (S.outputCell e.op e.rank row j)

/-- The cell that a statement writes. -/
def target : Option (SetupCell S) :=
  match e.stmt with
  | .fill row j => some (.input e.rank row j)
  | .setStepValue => some (.outStepValue e.rank)
  | .setDyn i => some (.outDyn e.rank i)
  | .completeDyn i => some (.inDyn i e.rank)
  | .setAddresses => some (.addresses e.rank)
  | .publish _ => some (.peerStepValue e.rank)
  | .copyIn j => some (.sendBuffer e.rank e.rank j)
  | .readSend i p j => some (.part e.rank i p j)
  | .reduceSend i j => some (.sendBuffer e.rank i j)
  | .data i _ j => some (.received i e.rank j)
  | .completeStepValue i => some (.inStepValue i e.rank)
  | .copyOwn j => some (.output e.rank e.rank j)
  | .read p j => some (.part e.rank e.rank p j)
  | .vmcopy p j => some (.output e.rank p j)
  | .forward source destination => some (.proxyReady destination source)
  | .proxyCopy source _ j => some (.output e.rank source j)
  | .copyOut i j =>
    some (if S.isReduce e.op then .part e.rank e.rank i j else .output e.rank i j)
  | .reduceOut j => some (S.outputCell e.op e.rank e.rank j)
  | _ => none

/-- The ranks whose parts are added to the one of the rank itself. -/
def added : List (Fin size) :=
  match e.stmt with
  | .reduceOut _ => S.ipcRanks e.rank ++ S.recvRanks e.op e.rank
  | _ => S.ipcRanks e.rank

def sumParts (part : Fin size → α) : α := S.sum e.op (part e.rank) ((added e).map part)

/-- The element that a statement writes. -/
def element (m : Memory S) (j : Fin S.capacity) : α :=
  match e.stmt with
  | .fill row _ => S.input e.op e.rank row j
  | .readSend i p _ => m (.input p i j)
  | .reduceSend i _ => sumParts e fun p => m (.part e.rank i p j)
  | .data i _ _ => m (.sendBuffer e.rank (S.sendRow e.op e.rank i) j)
  | .read p _ => m (.input p e.rank j)
  | .vmcopy p _ => m (.input p p j)
  | .proxyCopy source proxy _ => m (.received proxy source j)
  | .copyOut i _ => m (.received e.rank i j)
  | .reduceOut _ => sumParts e fun p => m (.part e.rank e.rank p j)
  | _ => m (.input e.rank e.rank j)

def value (m : Memory S) : Memory S
  | .outStepValue _ => S.stepValue e.op
  | .outDyn _ i => S.dyn e.op e.rank i
  | .inDyn r _ => m (.outDyn e.rank r)
  | .inStepValue _ _ => m (.outStepValue e.rank)
  | .addresses _ => S.cpuAddresses e.op
  | .peerStepValue _ =>
    match e.stmt with
    | .publish v => S.stepValue e.op + UInt32.ofNat v
    | _ => (0 : UInt32)
  | .proxyReady _ _ => S.stepValue e.op
  | .sendBuffer _ _ j => element e m j
  | .received _ _ j => element e m j
  | .part _ _ _ j => element e m j
  | .input _ _ j => element e m j
  | .output _ _ j => element e m j

/-- `CHECK_DYN` and the check of the size after the wait for a dyn, and that the write goes to the
row for the rank; the checks on what another rank of the node has published, and that a copy
takes the tensors of this work; that of `vmcopy` and `vmread` on what one call has moved; those of
`reduceAdd`, unless it only copies. -/
structure Check (m : Memory S) : Prop where
  dyn : ∀ i, e.stmt = .waitDyn i → m (.inDyn e.rank i) = S.dyn e.op i e.rank ∧ 0 < S.bytes e.op
  peer : ∀ p, Looks e p → m (.addresses p) = S.cpuAddresses e.op ∧
    ((m (.peerStepValue p) : UInt32) = S.stepValue e.op ∨
      (m (.peerStepValue p) : UInt32) = S.stepValue e.op + 1)
  copy : ∀ p, Looks e p → processVmReadv (S.bytes e.op) = S.bytes e.op
  reduce : ∀ i j, e.stmt = .reduceSend i j ∨ e.stmt = .reduceOut j → added e ≠ [] →
    S.ReduceSupported e.op ∧ S.bytes e.op % S.itembytes e.op = 0

end Effect

def graph : EventGraph (Event S) (SetupCell S) (CellVal S) where
  ready X b := (∀ a, Works.Before a b → a ∈ X) ∧ Throttled X b
  waits := waits
  pass := pass
  reads e := {c | waits e = some c ∨ Takes e c}
  target := target
  value := value

end Collective
