import Moodist.Foundation.EventGraph

/-!
# Barriers

Model of `WorkBarrier` and `WorkInternalBarrier` of `core/cputhread.cc`, of `ENTER`, `WAIT_CONTROL`
and `CHECK_DYN`, and of `getNextStepValue` of `core/processgroup.cc`. All ranks run the same
sequence of barriers on one concurrency index. A statement of a work is an event; so is the
completion of a remote write, which takes what the buffer holds at that time. The statements of a
rank happen in their order, a remote write completes some time after it was started, and
`WAIT_CONTROL` waits for the completion of those the rank has started.
-/

namespace CpuThread

open Foundation List Prod.Lex

/-! ## Step values -/

/-- The step value and the next `nextStepValue`. -/
def getNextStepValue (nextStepValue : UInt32) : UInt32 × UInt32 :=
  if nextStepValue < 0x80000000 then (nextStepValue, nextStepValue + 0x1000) else (1, 0x1000)

/-- The values `nextStepValue` takes. -/
inductive NextStepValue : UInt32 → Prop
  | init : NextStepValue 0x1000
  | next {v : UInt32} (h : NextStepValue v) : NextStepValue (getNextStepValue v).2

def IsStepValue (v : UInt32) : Prop := ∃ next, NextStepValue next ∧ (getNextStepValue next).1 = v

variable {v : UInt32}

theorem NextStepValue.pos (h : NextStepValue v) : 0 < v.toNat := by
  induction h with
  | init => decide
  | @next v _ ih =>
    rw [getNextStepValue]
    split_ifs with hlt
    · rw [UInt32.lt_iff_toNat_lt] at hlt
      have hv : v.toNat < 0x80000000 := hlt
      have hadd : (v + 0x1000).toNat = (v.toNat + 0x1000) % 2 ^ 32 := UInt32.toNat_add v 0x1000
      rw [hadd]
      omega
    · decide

theorem NextStepValue.mod_eq_zero (h : NextStepValue v) : v.toNat % 0x1000 = 0 := by
  induction h with
  | init => decide
  | @next v _ ih =>
    rw [getNextStepValue]
    split_ifs
    · have hadd : (v + 0x1000).toNat = (v.toNat + 0x1000) % 2 ^ 32 := UInt32.toNat_add v 0x1000
      rw [hadd]
      omega
    · decide

theorem IsStepValue.toNat_cases (h : IsStepValue v) :
    0 < v.toNat ∧ v.toNat < 0x80000000 ∧ (v.toNat = 1 ∨ v.toNat % 0x1000 = 0) := by
  obtain ⟨next, hnext, rfl⟩ := h
  rw [getNextStepValue]
  split_ifs with hlt
  · exact ⟨hnext.pos, UInt32.lt_iff_toNat_lt.mp hlt, .inr hnext.mod_eq_zero⟩
  · exact ⟨by decide, by decide, .inl rfl⟩

theorem IsStepValue.succ_lt {v' : UInt32} (h : IsStepValue v) (h' : IsStepValue v')
    (hlt : v.toNat < v'.toNat) : v.toNat + 1 < v'.toNat := by
  obtain ⟨hpos, -, hv⟩ := h.toNat_cases
  obtain ⟨-, -, hv'⟩ := h'.toNat_cases
  omega

theorem IsStepValue.ne_zero (h : IsStepValue v) : v ≠ 0 := by
  obtain ⟨next, hnext, rfl⟩ := h
  rw [getNextStepValue]
  split_ifs
  · rintro rfl
    exact absurd hnext.pos (by decide)
  · decide

/-! ## Works and their statements -/

inductive Work where
  | barrier (stepValue : UInt32)
  | internalBarrier
  deriving DecidableEq, Repr

/-- The value of `nextInternalStepValue` after the works of a list. -/
def nextInternalStepValue (works : List Work) : UInt32 :=
  works.foldl (fun next work =>
    match work with
    | .barrier _ => next
    | .internalBarrier => next + 4) 0

/-- `stepValue` in the `k`-th work. -/
def stepValue (works : List Work) (k : ℕ) : UInt32 :=
  match works[k]? with
  | some (.barrier v) => v
  | _ => nextInternalStepValue (works.take k) + 1

variable {n : ℕ}

/-- Statements, with the loop variable. `complete…` are the completions of remote writes. -/
inductive Stmt (n : ℕ) where
  | enter
  | setDyn
  | setStepValue (j : Fin 3)
  | writeDyn (i : Fin n)
  | completeDyn (i : Fin n)
  | waitDyn (i : Fin n)
  | writeStepValue (i : Fin n)
  | completeStepValue (i : Fin n)
  | waitStepValue (i : Fin n)
  | writeInternal (j : Fin 2) (i : Fin n)
  | completeInternal (j : Fin 2) (i : Fin n)
  | waitInternal (j : Fin 2) (i : Fin n)
  | waitControl (j : Fin 2)
  | done
  deriving DecidableEq, Fintype

def Work.isBarrier : Work → Bool
  | .barrier _ => true
  | .internalBarrier => false

def has (work : Work) (rank : Fin n) : Stmt n → Prop
  | .enter | .setDyn | .done => True
  | .setStepValue j => work.isBarrier = true → j = 0
  | .writeDyn i | .completeDyn i | .waitDyn i => work.isBarrier = true ∧ i ≠ rank
  | .writeStepValue i | .completeStepValue i | .waitStepValue i => work.isBarrier = true ∧ i ≠ rank
  | .writeInternal _ i | .completeInternal _ i | .waitInternal _ i =>
    work.isBarrier = false ∧ i ≠ rank
  | .waitControl _ => work.isBarrier = false

/-- The place of a statement in the work: the loop that waits for the dyn of a rank answers it in
the same iteration. A completion stands where the others may wait for it. -/
def Stmt.line : Stmt n → ℕ × ℕ
  | .enter => (0, 0)
  | .setDyn => (1, 0)
  | .setStepValue j => (2, j)
  | .writeDyn i => (3, i)
  | .completeDyn i => (4, i)
  | .waitDyn i => (5, 2 * i)
  | .writeStepValue i => (5, 2 * i + 1)
  | .completeStepValue i => (6, i)
  | .waitStepValue i => (7, i)
  | .writeInternal j i => (8 + 4 * j, i)
  | .completeInternal j i => (9 + 4 * j, i)
  | .waitInternal j i => (10 + 4 * j, i)
  | .waitControl j => (11 + 4 * j, 0)
  | .done => (16, 0)

def Stmt.origin : Stmt n → Option (Stmt n)
  | .completeDyn i => some (.writeDyn i)
  | .completeStepValue i => some (.writeStepValue i)
  | .completeInternal j i => some (.writeInternal j i)
  | _ => none

/-- `ENTER` and `WAIT_CONTROL`. -/
def Stmt.isControl : Stmt n → Bool
  | .enter => true
  | .waitControl _ => true
  | _ => false

structure Event (works : List Work) (n : ℕ) where
  op : ℕ
  rank : Fin n
  stmt : Stmt n
  work : Work
  work_eq : works[op]? = some work
  has : has work rank stmt

open Event

variable {works : List Work} {a b e : Event works n}

def Event.label (e : Event works n) : ℕ ×ₗ ℕ ×ₗ ℕ := toLex (e.op, toLex e.stmt.line)

/-- What has to happen before a statement. -/
inductive Before : Event works n → Event works n → Prop
  | program {a b : Event works n} (hrank : a.rank = b.rank) (hlt : a.label < b.label)
      (ha : a.stmt.origin = none) (hb : b.stmt.origin = none) : Before a b
  | complete {a b : Event works n} (hrank : a.rank = b.rank) (hop : a.op = b.op)
      (hb : b.stmt.origin = some a.stmt) : Before a b
  | control {a b : Event works n} (hrank : a.rank = b.rank) (hlt : a.label < b.label)
      (ha : a.stmt.origin ≠ none) (hb : b.stmt.isControl = true) : Before a b

/-! ## The memory -/

inductive OpType where
  | unset
  | barrier
  | internalBarrier
  deriving DecidableEq, Repr

structure DynamicAddresses where
  opType : OpType
  gatherBytes : ℕ
  stepValue : UInt32
  deriving DecidableEq, Repr

/-- The out-buffers of a rank, and the slots of a rank for the others. -/
inductive Cell (n : ℕ) where
  | outDyn (rank : Fin n)
  | outStepValue (rank : Fin n) (j : Fin 3)
  | inDyn (rank i : Fin n)
  | inStepValue (rank i : Fin n)
  | internalInStepValue (rank i : Fin n) (j : Fin 2)
  deriving DecidableEq

def Cell.Val : Cell n → Type
  | .outDyn _ => DynamicAddresses
  | .inDyn _ _ => DynamicAddresses
  | .outStepValue _ _ => UInt32
  | .inStepValue _ _ => UInt32
  | .internalInStepValue _ _ _ => UInt32

def zeroMemory : ∀ c : Cell n, c.Val
  | .outDyn _ => (⟨.unset, 0, 0⟩ : DynamicAddresses)
  | .inDyn _ _ => (⟨.unset, 0, 0⟩ : DynamicAddresses)
  | .outStepValue _ _ => (0 : UInt32)
  | .inStepValue _ _ => (0 : UInt32)
  | .internalInStepValue _ _ _ => (0 : UInt32)

def Work.dyn (work : Work) (stepValue : UInt32) : DynamicAddresses :=
  match work with
  | .barrier _ => ⟨.barrier, 0, stepValue⟩
  | .internalBarrier => ⟨.internalBarrier, 0, stepValue⟩

def Event.waits (e : Event works n) : Option (Cell n) :=
  match e.stmt with
  | .waitDyn i => some (.inDyn e.rank i)
  | .waitStepValue i => some (.inStepValue e.rank i)
  | .waitInternal j i => some (.internalInStepValue e.rank i j)
  | _ => none

def Event.pass (e : Event works n) (m : ∀ c : Cell n, c.Val) : Prop :=
  match e.stmt with
  | .waitDyn i => (m (.inDyn e.rank i) : DynamicAddresses).stepValue = stepValue works e.op
  | .waitStepValue i => (m (.inStepValue e.rank i) : UInt32) = stepValue works e.op
  | .waitInternal j i =>
    (m (.internalInStepValue e.rank i j) : UInt32) = stepValue works e.op + (UInt32.ofNat j + 1)
  | _ => True

def Event.source (e : Event works n) : Option (Cell n) :=
  match e.stmt with
  | .completeDyn _ => some (.outDyn e.rank)
  | .completeStepValue _ => some (.outStepValue e.rank 0)
  | .completeInternal j _ => some (.outStepValue e.rank j.succ)
  | _ => none

def Event.target (e : Event works n) : Option (Cell n) :=
  match e.stmt with
  | .setDyn => some (.outDyn e.rank)
  | .setStepValue j => some (.outStepValue e.rank j)
  | .completeDyn i => some (.inDyn i e.rank)
  | .completeStepValue i => some (.inStepValue i e.rank)
  | .completeInternal j i => some (.internalInStepValue i e.rank j)
  | _ => none

def Event.value (e : Event works n) (m : ∀ c : Cell n, c.Val) : ∀ c : Cell n, c.Val
  | .outDyn _ => e.work.dyn (stepValue works e.op)
  | .outStepValue _ j => stepValue works e.op + UInt32.ofNat j
  | .inDyn _ _ => m (.outDyn e.rank)
  | .inStepValue _ _ => m (.outStepValue e.rank 0)
  | .internalInStepValue _ _ j => m (.outStepValue e.rank j.succ)

/-- `CHECK_DYN` after the wait for a dyn. -/
def Event.check (e : Event works n) (m : ∀ c : Cell n, c.Val) : Prop :=
  ∀ i, e.stmt = .waitDyn i →
    (m (.inDyn e.rank i) : DynamicAddresses) = ⟨.barrier, 0, stepValue works e.op⟩

def graph (works : List Work) (n : ℕ) : EventGraph (Event works n) (Cell n) Cell.Val where
  ready X b := ∀ a, Before a b → a ∈ X
  waits := Event.waits
  pass := Event.pass
  reads e := {c | e.waits = some c ∨ e.source = some c}
  target := Event.target
  value := Event.value

/-! ## The order of the events -/

def content (works : List Work) : ∀ c : Cell n, ℕ → c.Val
  | .outDyn _, k => (works[k]?.getD .internalBarrier).dyn (stepValue works k)
  | .inDyn _ _, k => (works[k]?.getD .internalBarrier).dyn (stepValue works k)
  | .outStepValue _ j, k => stepValue works k + UInt32.ofNat j
  | .inStepValue _ _, k => stepValue works k
  | .internalInStepValue _ _ j, k => stepValue works k + (UInt32.ofNat j + 1)

def turns (works : List Work) (n : ℕ) :
    EventGraph.Turns (Event works n) (Cell.Val (n := n)) (ℕ ×ₗ ℕ ×ₗ ℕ) where
  turn e _ := e.op
  latest e _ := e.op
  content := content works
  before := Before
  label := Event.label

section Order

variable {r i : Fin n}

theorem Event.ext_of (hop : a.op = b.op) (hrank : a.rank = b.rank) (hstmt : a.stmt = b.stmt) :
    a = b := by
  cases a with
  | mk op rank stmt work work_eq has =>
    cases b with
    | mk op' rank' stmt' work' work_eq' has' =>
      obtain rfl := hop
      obtain rfl := hrank
      obtain rfl := hstmt
      obtain rfl := Option.some.inj (work_eq.symm.trans work_eq')
      rfl

theorem label_lt_of_op (h : a.op < b.op) : a.label < b.label := by
  rw [label, label, toLex_lt_toLex]
  exact .inl h

theorem label_lt_of_line (hop : a.op = b.op) (h : toLex a.stmt.line < toLex b.stmt.line) :
    a.label < b.label := by
  rw [label, label, toLex_lt_toLex]
  exact .inr ⟨hop, h⟩

def Event.other (e : Event works n) (rank : Fin n) (stmt : Stmt n)
    (h : CpuThread.has e.work rank stmt) : Event works n :=
  ⟨e.op, rank, stmt, e.work, e.work_eq, h⟩

abbrev Hb (a b : Event works n) : Prop := (graph works n).Hb (turns works n) a b

theorem hb_of_before (h : Before a b) : Hb a b := .single (.before h)

theorem hb_program (hrank : a.rank = b.rank) (hop : a.op = b.op)
    (h : toLex a.stmt.line < toLex b.stmt.line) (ha : a.stmt.origin = none)
    (hb : b.stmt.origin = none) : Hb a b :=
  hb_of_before (.program hrank (label_lt_of_line hop h) ha hb)

variable {stmt stmt' : Stmt n}

theorem has_origin {work : Work} (h : has work r stmt)
    (horigin : stmt.origin = some stmt') : has work r stmt' := by
  cases stmt <;> cases horigin <;> exact h

theorem origin_origin (horigin : stmt.origin = some stmt') :
    stmt'.origin = none := by
  cases stmt <;> cases horigin <;> rfl

theorem enter_line_lt (h : stmt ≠ .enter) :
    toLex (Stmt.line (.enter : Stmt n)) < toLex stmt.line := by
  rw [toLex_lt_toLex]
  cases stmt with
  | enter => exact absurd rfl h
  | _ => exact .inl (by simp [Stmt.line])

/-- The events of a rank in different works are ordered. -/
theorem hb_of_op_lt (hrank : a.rank = b.rank) (hop : a.op < b.op) : Hb a b := by
  have henter : Hb a (b.other b.rank .enter trivial) := by
    by_cases ha : a.stmt.origin = none
    · exact hb_of_before (.program hrank (label_lt_of_op hop) ha rfl)
    · exact hb_of_before (.control hrank (label_lt_of_op hop) ha rfl)
  have hstmt {c : Event works n} (hrank : b.rank = c.rank) (hop : b.op = c.op)
      (hc : c.stmt.origin = none) : Hb a c := by
    by_cases hne : c.stmt = .enter
    · rwa [← ext_of (a := b.other b.rank .enter trivial) hop hrank hne.symm]
    · exact henter.trans (hb_program hrank hop (enter_line_lt hne) rfl hc)
  cases hb : b.stmt.origin with
  | none => exact hstmt rfl rfl hb
  | some stmt =>
    have hwrite : Hb a (b.other b.rank stmt (has_origin b.has hb)) :=
      hstmt rfl rfl (origin_origin hb)
    exact hwrite.trans (hb_of_before (.complete rfl rfl hb))

/-! ## Who writes and reads a cell -/

def Cell.writer : Cell n → Fin n × Stmt n
  | .outDyn r => (r, .setDyn)
  | .outStepValue r j => (r, .setStepValue j)
  | .inDyn r i => (i, .completeDyn r)
  | .inStepValue r i => (i, .completeStepValue r)
  | .internalInStepValue r i j => (i, .completeInternal j r)

variable {c : Cell n}

theorem target_eq_some : e.target = some c ↔ (e.rank, e.stmt) = c.writer := by
  unfold target
  cases c <;> cases hs : e.stmt <;> simp [Cell.writer] <;> grind

theorem writer_unique (ha : a.target = some c) (hb : b.target = some c) (hop : a.op = b.op) :
    a = b := by
  obtain ⟨hrank, hstmt⟩ := Prod.mk.inj ((target_eq_some.1 ha).trans (target_eq_some.1 hb).symm)
  exact ext_of hop hrank hstmt

theorem write_hb (ha : a.target = some c) (hb : b.target = some c) (hop : a.op < b.op) :
    Hb a b := by
  have hrank := (Prod.mk.inj ((target_eq_some.1 ha).trans (target_eq_some.1 hb).symm)).1
  exact hb_of_op_lt hrank hop

theorem hb_wait (hop : a.op = b.op) (hb : b.waits = some c) (ha : a.target = some c) : Hb a b :=
  .single (.wait hb ha hop)

theorem hb_set (h : has e.work e.rank stmt) (hnone : stmt.origin = none)
    (horigin : e.stmt.origin = some stmt') (hlt : toLex stmt.line < toLex stmt'.line) :
    Hb (e.other e.rank stmt h) e := by
  have hwrite : Hb (e.other e.rank stmt h) (e.other e.rank stmt' (has_origin e.has horigin)) :=
    hb_program rfl rfl hlt hnone (origin_origin horigin)
  exact hwrite.trans (hb_of_before (.complete rfl rfl horigin))

theorem waits_cases (h : e.waits = some c) : (∃ i, e.stmt = .waitDyn i ∧ c = .inDyn e.rank i) ∨
    (∃ i, e.stmt = .waitStepValue i ∧ c = .inStepValue e.rank i) ∨
    (∃ j i, e.stmt = .waitInternal j i ∧ c = .internalInStepValue e.rank i j) := by
  unfold waits at h
  split at h <;> simp_all

theorem source_cases (h : e.source = some c) : (∃ i, e.stmt = .completeDyn i ∧ c = .outDyn e.rank) ∨
    (∃ i, e.stmt = .completeStepValue i ∧ c = .outStepValue e.rank 0) ∨
    (∃ j i, e.stmt = .completeInternal j i ∧ c = .outStepValue e.rank j.succ) := by
  unfold source at h
  split at h <;> simp_all

theorem read_after (h : c ∈ (graph works n).reads e) :
    ∃ a : Event works n, a.target = some c ∧ a.op = e.op ∧ Hb a e := by
  have hhas := e.has
  obtain h | h := h
  · obtain ⟨i, hs, rfl⟩ | ⟨i, hs, rfl⟩ | ⟨j, i, hs, rfl⟩ := waits_cases h <;> rw [hs] at hhas
    · exact ⟨e.other i (.completeDyn e.rank) ⟨hhas.1, hhas.2.symm⟩, rfl, rfl, hb_wait rfl h rfl⟩
    · exact ⟨e.other i (.completeStepValue e.rank) ⟨hhas.1, hhas.2.symm⟩, rfl, rfl,
        hb_wait rfl h rfl⟩
    · exact ⟨e.other i (.completeInternal j e.rank) ⟨hhas.1, hhas.2.symm⟩, rfl, rfl,
        hb_wait rfl h rfl⟩
  obtain ⟨i, hs, rfl⟩ | ⟨i, hs, rfl⟩ | ⟨j, i, hs, rfl⟩ := source_cases h <;> rw [hs] at hhas
  · refine ⟨e.other e.rank .setDyn trivial, rfl, rfl, hb_set _ rfl (by rw [hs]; rfl) ?_⟩
    simp [Stmt.line, toLex_lt_toLex]
  · refine ⟨e.other e.rank (.setStepValue 0) fun _ => rfl, rfl, rfl,
      hb_set _ rfl (by rw [hs]; rfl) ?_⟩
    simp [Stmt.line, toLex_lt_toLex]
  · refine ⟨e.other e.rank (.setStepValue j.succ) fun hb => ?_, rfl, rfl,
      hb_set _ rfl (by rw [hs]; rfl) ?_⟩
    · rw [hhas.1] at hb
      cases hb
    · rw [toLex_lt_toLex]
      exact .inl (by simp only [Stmt.line]; omega)

/-- A rank that has seen another's dyn answers, and the other waits for the answer. -/
theorem waitDyn_hb (hs : b.stmt = .waitDyn i) (hrank : a.rank = i) (hop : b.op < a.op) :
    Hb b a := by
  have hhas := b.has
  rw [hs] at hhas
  calc Hb b (b.other b.rank (.writeStepValue i) hhas) := by
        refine hb_program rfl rfl ?_ (by rw [hs]; rfl) rfl
        rw [hs]
        simp [other, Stmt.line, toLex_lt_toLex]
    Hb _ (b.other b.rank (.completeStepValue i) hhas) := hb_of_before (.complete rfl rfl rfl)
    Hb _ (b.other i (.waitStepValue b.rank) ⟨hhas.1, hhas.2.symm⟩) := hb_wait rfl rfl rfl
    Hb _ a := hb_of_op_lt hrank.symm hop

/-- A rank answers only one that has entered the work. -/
theorem waitStepValue_hb (hrank : a.rank = i) (hs : a.stmt = .completeStepValue r)
    (hb : b.rank = r) (hop : b.op < a.op) : Hb b a := by
  have hhas := a.has
  rw [hs, hrank] at hhas
  calc Hb b (a.other r (.completeDyn i) ⟨hhas.1, hhas.2.symm⟩) := hb_of_op_lt hb hop
    Hb _ (a.other i (.waitDyn r) hhas) := hb_wait rfl rfl rfl
    Hb _ (a.other i (.writeStepValue r) hhas) := by
        refine hb_program rfl rfl ?_ rfl rfl
        simp [other, Stmt.line, toLex_lt_toLex]
    Hb _ a := hb_of_before (.complete hrank.symm rfl (by rw [hs]; rfl))

/-- The second round of an internal barrier answers the first. -/
theorem waitInternal_hb (hs : b.stmt = .waitInternal 0 i) (hrank : a.rank = i)
    (hop : b.op < a.op) : Hb b a := by
  have hhas := b.has
  rw [hs] at hhas
  calc Hb b (b.other b.rank (.writeInternal 1 i) hhas) := by
        refine hb_program rfl rfl ?_ (by rw [hs]; rfl) rfl
        rw [hs]
        simp [other, Stmt.line, toLex_lt_toLex]
    Hb _ (b.other b.rank (.completeInternal 1 i) hhas) := hb_of_before (.complete rfl rfl rfl)
    Hb _ (b.other i (.waitInternal 1 b.rank) ⟨hhas.1, hhas.2.symm⟩) := hb_wait rfl rfl rfl
    Hb _ a := hb_of_op_lt hrank.symm hop

/-- The second round of an internal barrier starts when all have entered it. -/
theorem waitInternal_one_hb (hrank : a.rank = i) (hs : a.stmt = .completeInternal 1 r)
    (hb : b.rank = r) (hop : b.op < a.op) : Hb b a := by
  have hhas := a.has
  rw [hs, hrank] at hhas
  calc Hb b (a.other r (.completeInternal 0 i) ⟨hhas.1, hhas.2.symm⟩) := hb_of_op_lt hb hop
    Hb _ (a.other i (.waitInternal 0 r) hhas) := hb_wait rfl rfl rfl
    Hb _ (a.other i (.writeInternal 1 r) hhas) := by
        refine hb_program rfl rfl ?_ rfl rfl
        simp [other, Stmt.line, toLex_lt_toLex]
    Hb _ a := hb_of_before (.complete hrank.symm rfl (by rw [hs]; rfl))

/-- What a rank has read is written again only after it has gone on. -/
theorem read_before (h : c ∈ (graph works n).reads b) (ha : a.target = some c) (hop : b.op < a.op) :
    Hb b a := by
  rw [target_eq_some] at ha
  obtain h | h := h
  · obtain ⟨i, hs, rfl⟩ | ⟨i, hs, rfl⟩ | ⟨j, i, hs, rfl⟩ := waits_cases h <;>
      obtain ⟨hrank, hs'⟩ := Prod.mk.inj ha
    · exact waitDyn_hb hs hrank hop
    · exact waitStepValue_hb hrank hs' rfl hop
    · obtain rfl | rfl : j = 0 ∨ j = 1 := by omega
      · exact waitInternal_hb hs hrank hop
      · exact waitInternal_one_hb hrank hs' rfl hop
  · obtain ⟨i, hs, rfl⟩ | ⟨i, hs, rfl⟩ | ⟨j, i, hs, rfl⟩ := source_cases h <;>
      exact hb_of_op_lt (Prod.mk.inj ha).1.symm hop

end Order

/-! ## The values in the slots -/

/-- The works use different step values, and `nextInternalStepValue` does not wrap around. -/
structure Issued (works : List Work) : Prop where
  isStepValue : ∀ v, .barrier v ∈ works → IsStepValue v
  distinct : works.Pairwise fun a b => a.isBarrier = true → a ≠ b
  internal : works.count .internalBarrier < 2 ^ 30

theorem Issued.eq_of_barrier (h : Issued works) {k k' : ℕ} (hk : works[k]? = some (.barrier v))
    (hk' : works[k']? = some (.barrier v)) : k = k' := by
  obtain ⟨hlt, heq⟩ := List.getElem?_eq_some_iff.mp hk
  obtain ⟨hlt', heq'⟩ := List.getElem?_eq_some_iff.mp hk'
  have hpair := pairwise_iff_getElem.mp h.distinct
  obtain hless | hequal | hmore := Nat.lt_trichotomy k k'
  · refine absurd (heq.trans heq'.symm) (hpair k k' hlt hlt' hless ?_)
    rw [heq]
    rfl
  · exact hequal
  · refine absurd (heq'.trans heq.symm) (hpair k' k hlt' hlt hmore ?_)
    rw [heq']
    rfl

theorem nextInternalStepValue_barrier (works : List Work) (v : UInt32) :
    nextInternalStepValue (works ++ [.barrier v]) = nextInternalStepValue works := by
  rw [nextInternalStepValue, foldl_append]
  rfl

theorem nextInternalStepValue_internal (works : List Work) :
    nextInternalStepValue (works ++ [.internalBarrier]) = nextInternalStepValue works + 4 := by
  rw [nextInternalStepValue, foldl_append]
  rfl

theorem nextInternalStepValue_toNat (works : List Work)
    (h : works.count .internalBarrier < 2 ^ 30) :
    (nextInternalStepValue works).toNat = 4 * works.count .internalBarrier := by
  induction works using List.reverseRecOn with
  | nil => rfl
  | append_singleton works work ih =>
    rw [count_append] at h ⊢
    have ih := ih (by omega)
    cases work with
    | barrier v =>
      rw [nextInternalStepValue_barrier]
      simpa using ih
    | internalBarrier =>
      rw [count_singleton_self] at h ⊢
      have hfour : (4 : UInt32).toNat = 4 := rfl
      rw [nextInternalStepValue_internal, UInt32.toNat_add, ih, hfour]
      omega

section Values

variable {k k' : ℕ} {m : ∀ c : Cell n, c.Val}

theorem stepValue_barrier {v : UInt32} (h : works[k]? = some (.barrier v)) :
    stepValue works k = v := by
  rw [stepValue, h]

theorem count_take_lt (hlt : k < k') (h : works[k]? = some .internalBarrier) :
    (works.take k).count .internalBarrier < (works.take k').count .internalBarrier := by
  have hsucc : (works.take (k + 1)).count .internalBarrier =
      (works.take k).count .internalBarrier + 1 := by
    rw [take_add_one, h, count_append]
    rfl
  have hle : (works.take (k + 1)).count .internalBarrier ≤
      (works.take k').count .internalBarrier :=
    (take_prefix_take_left (by omega)).sublist.count_le _
  omega

theorem stepValue_internal (hI : Issued works) (h : works[k]? = some .internalBarrier) (j : Fin 2) :
    (stepValue works k + (UInt32.ofNat j + 1)).toNat =
      4 * (works.take k).count .internalBarrier + j + 2 := by
  have hcount : (works.take k).count .internalBarrier < works.count .internalBarrier := by
    have hlt := count_take_lt (List.getElem?_eq_some_iff.mp h).1 h
    rwa [take_length] at hlt
  have hfew := hI.internal
  have hnext := nextInternalStepValue_toNat (works.take k) (by omega)
  have hj : (UInt32.ofNat j).toNat = j := by
    rw [UInt32.toNat_ofNat']
    omega
  have hone : (1 : UInt32).toNat = 1 := rfl
  rw [stepValue, h, UInt32.toNat_add, UInt32.toNat_add, UInt32.toNat_add, hnext, hj, hone]
  omega

theorem Event.work_of_isBarrier (h : e.work.isBarrier = true) :
    works[e.op]? = some (.barrier (stepValue works e.op)) := by
  have hwork := e.work_eq
  cases hw : e.work with
  | barrier v =>
    rw [hw] at hwork
    rw [hwork, stepValue_barrier hwork]
  | internalBarrier =>
    rw [hw] at h
    cases h

theorem Event.work_of_not_isBarrier (h : e.work.isBarrier = false) :
    works[e.op]? = some .internalBarrier := by
  have hwork := e.work_eq
  cases hw : e.work with
  | barrier v =>
    rw [hw] at h
    cases h
  | internalBarrier => rwa [hw] at hwork

theorem stepValue_ne_of_barrier (hI : Issued works) (ha : a.work.isBarrier = true)
    (hb : b.work.isBarrier = true) (hop : a.op ≠ b.op) :
    stepValue works a.op ≠ stepValue works b.op := by
  intro heq
  have hwork := a.work_of_isBarrier ha
  rw [heq] at hwork
  exact hop (hI.eq_of_barrier hwork (b.work_of_isBarrier hb))

theorem stepValue_ne_of_internal (hI : Issued works) (ha : a.work.isBarrier = false)
    (hb : b.work.isBarrier = false) (hop : a.op < b.op) (j : Fin 2) :
    stepValue works a.op + (UInt32.ofNat j + 1) ≠ stepValue works b.op + (UInt32.ofNat j + 1) := by
  intro heq
  have hvalue := congrArg UInt32.toNat heq
  rw [stepValue_internal hI (a.work_of_not_isBarrier ha),
    stepValue_internal hI (b.work_of_not_isBarrier hb)] at hvalue
  have hlt := count_take_lt hop (a.work_of_not_isBarrier ha)
  omega

theorem dyn_stepValue (work : Work) (v : UInt32) : (work.dyn v).stepValue = v := by
  cases work <;> rfl

/-- With what an earlier work has left in the slot, a rank still waits. -/
theorem early (hI : Issued works) {c : Cell n} (hb : b.waits = some c)
    (h : m c = zeroMemory c ∨ ∃ a : Event works n, a.target = some c ∧ a.op < b.op ∧
      m c = content works c a.op) : ¬ b.pass m := by
  intro hpass
  have hhas := b.has
  obtain ⟨i, hs, rfl⟩ | ⟨i, hs, rfl⟩ | ⟨j, i, hs, rfl⟩ := waits_cases hb <;>
    rw [hs] at hhas <;> simp only [Event.pass, hs] at hpass <;>
    obtain hzero | ⟨a, ha, hop, hcontent⟩ := h
  · rw [hzero] at hpass
    exact (hI.isStepValue _ (mem_of_getElem? (b.work_of_isBarrier hhas.1))).ne_zero hpass.symm
  · rw [hcontent] at hpass
    have hhas' := a.has
    rw [(Prod.mk.inj (target_eq_some.1 ha)).2] at hhas'
    refine stepValue_ne_of_barrier hI hhas'.1 hhas.1 hop.ne (Eq.trans ?_ hpass)
    exact (dyn_stepValue _ _).symm
  · rw [hzero] at hpass
    exact (hI.isStepValue _ (mem_of_getElem? (b.work_of_isBarrier hhas.1))).ne_zero hpass.symm
  · rw [hcontent] at hpass
    have hhas' := a.has
    rw [(Prod.mk.inj (target_eq_some.1 ha)).2] at hhas'
    exact stepValue_ne_of_barrier hI hhas'.1 hhas.1 hop.ne hpass
  · rw [hzero] at hpass
    have hvalue := congrArg UInt32.toNat hpass
    rw [stepValue_internal hI (b.work_of_not_isBarrier hhas.1)] at hvalue
    have hnat : (zeroMemory (Cell.internalInStepValue b.rank i j) : UInt32).toNat = 0 := rfl
    omega
  · rw [hcontent] at hpass
    have hhas' := a.has
    rw [(Prod.mk.inj (target_eq_some.1 ha)).2] at hhas'
    exact stepValue_ne_of_internal hI hhas'.1 hhas.1 hop j hpass

/-- With what is written in the same work, a rank goes on. -/
theorem pass_content
    (h : ∀ c ∈ (graph works n).reads b, m c = content works c b.op) : b.pass m := by
  unfold Event.pass
  split
  · rename_i i hs
    have hread := h (.inDyn b.rank i) (.inl (by rw [waits, hs]))
    rw [hread]
    exact dyn_stepValue _ _
  · rename_i i hs
    exact h (.inStepValue b.rank i) (.inl (by rw [waits, hs]))
  · rename_i j i hs
    exact h (.internalInStepValue b.rank i j) (.inl (by rw [waits, hs]))
  · trivial

theorem value_content {c : Cell n}
    (h : ∀ c ∈ (graph works n).reads b, m c = content works c b.op) (hb : b.target = some c) :
    b.value m c = content works c b.op := by
  obtain ⟨hrank, hs⟩ := Prod.mk.inj (target_eq_some.1 hb)
  cases c with
  | outDyn r =>
    rw [value, content, b.work_eq]
    rfl
  | outStepValue r j => rfl
  | inDyn r i => exact h (.outDyn b.rank) (.inr (by rw [source, hs]))
  | inStepValue r i =>
    refine (h (.outStepValue b.rank 0) (.inr (by rw [source, hs]))).trans ?_
    exact UInt32.add_zero _
  | internalInStepValue r i j =>
    refine (h (.outStepValue b.rank j.succ) (.inr (by rw [source, hs]))).trans ?_
    rw [content, content, Fin.val_succ, UInt32.ofNat_add]
    rfl

end Values

/-! ## The barriers -/

theorem origin_line_lt {stmt stmt' : Stmt n} (h : stmt.origin = some stmt') :
    toLex stmt'.line < toLex stmt.line := by
  rw [toLex_lt_toLex]
  cases stmt <;> cases h <;> exact .inl (by simp only [Stmt.line]; omega)

theorem Before.label_lt (h : Before a b) : a.label < b.label := by
  cases h with
  | program _ hlt | control _ hlt => exact hlt
  | complete _ hop hb => exact label_lt_of_line hop (origin_line_lt hb)

theorem label_lt_of_waits {c : Cell n} (hb : b.waits = some c)
    (ha : a.target = some c) (hop : a.op = b.op) : a.label < b.label := by
  refine label_lt_of_line hop ?_
  rw [toLex_lt_toLex]
  obtain ⟨i, hs, rfl⟩ | ⟨i, hs, rfl⟩ | ⟨j, i, hs, rfl⟩ := waits_cases hb <;>
    rw [hs, (Prod.mk.inj (target_eq_some.1 ha)).2] <;>
    exact .inl (by simp only [Stmt.line]; omega)

theorem content_of_reads {m : ∀ c : Cell n, c.Val} (h : (graph works n).Reads (turns works n) e m) :
    ∀ c ∈ (graph works n).reads e, m c = content works c e.op :=
  fun _ hc => h.content hc rfl

theorem lawful (hI : Issued works) :
    (graph works n).Lawful (turns works n) (zeroMemory (n := n)) where
  ready_before hready hbefore := hready _ hbefore
  ready_of_label h a hbefore := h a hbefore.label_lt
  label_lt h := by
    cases h with
    | before hbefore => exact hbefore.label_lt
    | wait hb ha hop => exact label_lt_of_waits hb ha hop
  writer_unique := writer_unique
  write_hb := write_hb
  read_after h := .inl (read_after h)
  turn_le_latest _ := le_rfl
  read_before := read_before
  waits_reads h := .inl h
  pass_content h := pass_content (content_of_reads h)
  value_content h := value_content (content_of_reads h)
  early := early hI

def Entered (w : EventGraph.State (Event works n) (Cell.Val (n := n))) (k : ℕ) (r : Fin n) : Prop :=
  ∃ e ∈ w.done, e.op = k ∧ e.rank = r ∧ e.stmt = .enter

def Completed (w : EventGraph.State (Event works n) (Cell.Val (n := n))) (k : ℕ) (r : Fin n) :
    Prop :=
  ∃ e ∈ w.done, e.op = k ∧ e.rank = r ∧ e.stmt = .done

/-- No rank completes a barrier before all have entered it, checks hold when they are made, and
when nothing more can happen all ranks have completed all barriers. -/
structure Barriers (works : List Work) (n : ℕ)
    (w : EventGraph.State (Event works n) (Cell.Val (n := n))) : Prop where
  safe : ∀ k r, Completed w k r → ∀ i, Entered w k i
  checks : ∀ e, (graph works n).Enabled w e → e.check w.memory
  completes : (¬ ∃ e, (graph works n).Enabled w e) → ∀ k < works.length, ∀ r, Completed w k r

instance finite_event (works : List Work) (n : ℕ) : Finite (Event works n) := by
  refine Finite.of_injective (β := Fin works.length × Fin n × Stmt n)
    (fun e => (⟨e.op, (List.getElem?_eq_some_iff.mp e.work_eq).1⟩, e.rank, e.stmt)) ?_
  intro a b heq
  obtain ⟨hop, hrest⟩ := Prod.mk.inj heq
  obtain ⟨hrank, hstmt⟩ := Prod.mk.inj hrest
  exact Event.ext_of (Fin.mk.inj hop) hrank hstmt

/-- A rank completes a barrier only after every other one has entered it. -/
theorem enter_hb_done (hs : e.stmt = .done) (i : Fin n) :
    Hb (e.other i .enter trivial) e := by
  have hdone {b : Event works n} (hrank : b.rank = e.rank) (hop : b.op = e.op)
      (hline : b.stmt.line.1 < 16) (hb : b.stmt.origin = none) : Hb b e := by
    refine hb_program hrank hop ?_ hb (by rw [hs]; rfl)
    rw [hs, toLex_lt_toLex]
    exact .inl hline
  by_cases hi : i = e.rank
  · exact hdone hi rfl (by simp [other, Stmt.line]) rfl
  cases hwork : e.work.isBarrier with
  | true =>
    have hhas : e.work.isBarrier = true ∧ i ≠ e.rank := ⟨hwork, hi⟩
    calc Hb (e.other i .enter trivial)
          (e.other i (.writeDyn e.rank) ⟨hwork, Ne.symm hi⟩) :=
          hb_program rfl rfl (enter_line_lt nofun) rfl rfl
      Hb _ (e.other i (.completeDyn e.rank) ⟨hwork, Ne.symm hi⟩) :=
          hb_of_before (.complete rfl rfl rfl)
      Hb _ (e.other e.rank (.waitDyn i) hhas) := hb_wait rfl rfl rfl
      Hb _ e := hdone rfl rfl (by simp [other, Stmt.line]) rfl
  | false =>
    have hhas : e.work.isBarrier = false ∧ i ≠ e.rank := ⟨hwork, hi⟩
    calc Hb (e.other i .enter trivial)
          (e.other i (.writeInternal 0 e.rank) ⟨hwork, Ne.symm hi⟩) :=
          hb_program rfl rfl (enter_line_lt nofun) rfl rfl
      Hb _ (e.other i (.completeInternal 0 e.rank) ⟨hwork, Ne.symm hi⟩) :=
          hb_of_before (.complete rfl rfl rfl)
      Hb _ (e.other e.rank (.waitInternal 0 i) hhas) := hb_wait rfl rfl rfl
      Hb _ e := hdone rfl rfl (by simp [other, Stmt.line]) rfl

/-- In every run no rank completes a barrier before all have entered it, the checks hold, and every
run ends with all barriers completed by all ranks. -/
theorem barriers (hI : Issued works) (n : ℕ) :
    (∀ w, (graph works n).Reachable zeroMemory w → Barriers works n w) ∧
      WellFounded fun w' w => ∃ e, (graph works n).Enabled w e ∧ w' = (graph works n).next w e := by
  refine ⟨fun w h => ⟨?_, ?_, ?_⟩, EventGraph.wellFounded_next⟩
  · rintro k r ⟨e, he, rfl, rfl, hs⟩ i
    exact ⟨_, h.closed (lawful hI) (enter_hb_done hs i) he, rfl, rfl, rfl⟩
  · intro e he i hs
    have hreads := content_of_reads (h.reads (lawful hI) he)
    have hhas := e.has
    rw [hs] at hhas
    refine (hreads (.inDyn e.rank i) (.inl (by rw [waits, hs]))).trans ?_
    rw [content, e.work_of_isBarrier hhas.1]
    rfl
  · intro hstuck k hk r
    refine ⟨⟨k, r, .done, works[k], List.getElem?_eq_getElem hk, trivial⟩, ?_, rfl, rfl, rfl⟩
    rw [h.done_eq_univ (lawful hI) hstuck]
    trivial

def threeWorks : List Work := [.barrier 0x1000, .internalBarrier, .barrier 0x2000]

theorem barriers_threeWorks :
    (∀ w, (graph threeWorks 4).Reachable zeroMemory w → Barriers threeWorks 4 w) ∧
      WellFounded fun w' w =>
        ∃ e, (graph threeWorks 4).Enabled w e ∧ w' = (graph threeWorks 4).next w e := by
  refine barriers ⟨fun v hv => ?_, by decide, by decide⟩ 4
  have hvalue : v = 0x1000 ∨ v = 0x2000 := by simpa [threeWorks] using hv
  obtain rfl | rfl := hvalue
  · exact ⟨0x1000, .init, by decide⟩
  · exact ⟨0x2000, .next .init, by decide⟩

end CpuThread
