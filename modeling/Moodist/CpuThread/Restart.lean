import Moodist.CpuThread.Barrier
import Moodist.CpuThread.Scheduler

/-!
# The restart of the step values

Operations of a process group take their step values from `getNextStepValue` of
`core/processgroup.cc` and their concurrency indices in turn, as every collective there does. A work
publishes values of its operation in slots that belong to its concurrency index and waits for the
slots of other ranks, by `<` or by `!=`, as the works of `core/cputhread.cc` do. The slots start at
zero and are not cleared. What a work publishes and waits for, and when, is left open: a program is
any list of these for each operation and rank. Works of one concurrency index run one after
another, all others at any time.

The values of an operation are its step value and a few more that follow it, such as
`stepValue + 1`. They are below the next step value, until the counter restarts at `1`.
-/

namespace CpuThread.Restart

open UInt32

open Scheduler (maxConcurrency)

/-! ## Step values -/

/-- `nextStepValue` when so many operations have been issued. -/
def counter : ℕ → UInt32
  | 0 => 0x1000
  | n + 1 => (getNextStepValue (counter n)).2

def stepValue (n : ℕ) : UInt32 := (getNextStepValue (counter n)).1

def concurrencyIndex (n : ℕ) : ℕ := n % maxConcurrency

def value (n : ℕ) (offset : Fin 0x1000) : UInt32 := stepValue n + UInt32.ofNat offset

variable {n : ℕ}

theorem counter_toNat (h : n < 2 ^ 19) : (counter n).toNat = (n + 1) * 0x1000 := by
  induction n with
  | zero => rfl
  | succ n ih =>
    have hn := ih (Nat.lt_of_succ_lt h)
    have hlt : counter n < 0x80000000 := by
      rw [lt_iff_toNat_lt, hn]
      have : (0x80000000 : UInt32).toNat = 0x80000000 := rfl
      omega
    have hadd : (counter n + 0x1000).toNat = ((counter n).toNat + 0x1000) % 2 ^ 32 :=
      UInt32.toNat_add _ _
    rw [counter, getNextStepValue, if_pos hlt, hadd, hn]
    omega

theorem stepValue_toNat (h : n + 1 < 2 ^ 19) : (stepValue n).toNat = (n + 1) * 0x1000 := by
  have hn := counter_toNat (Nat.lt_of_succ_lt h)
  have hlt : counter n < 0x80000000 := by
    rw [lt_iff_toNat_lt, hn]
    have : (0x80000000 : UInt32).toNat = 0x80000000 := rfl
    omega
  rw [stepValue, getNextStepValue, if_pos hlt, hn]

theorem stepValue_restart : stepValue (2 ^ 19 - 1) = 1 := by
  have hn := counter_toNat (n := 2 ^ 19 - 1) (by norm_num)
  have hge : ¬ counter (2 ^ 19 - 1) < 0x80000000 := by
    rw [lt_iff_toNat_lt, hn]
    decide
  rw [stepValue, getNextStepValue, if_neg hge]

theorem value_toNat (h : n + 1 < 2 ^ 19) (offset : Fin 0x1000) :
    (value n offset).toNat = (n + 1) * 0x1000 + offset := by
  have hoffset : (UInt32.ofNat (offset : ℕ)).toNat = offset :=
    UInt32.toNat_ofNat_of_lt' (offset.isLt.trans (by decide))
  rw [value, UInt32.toNat_add, stepValue_toNat h, hoffset]
  have := offset.isLt
  omega

/-! ## Slots -/

/-- How a wait tests a slot. -/
inductive Test
  | atLeast
  | equal
  deriving DecidableEq, Repr

/-- Whether the loop of the wait ends: `while (slot < value)` or `while (slot != value)`. -/
def Test.holds : Test → UInt32 → UInt32 → Bool
  | .atLeast, slot, value => !decide (slot < value)
  | .equal, slot, value => slot == value

inductive Action (size : ℕ)
  | publish (slot : ℕ) (offset : Fin 0x1000)
  | await (peer : Fin size) (slot : ℕ) (offset : Fin 0x1000) (test : Test)
  deriving DecidableEq, Repr

abbrev Program (size : ℕ) := ℕ → Fin size → List (Action size)

/-- How many actions of each operation a rank has done, and the slots it has written. -/
structure State (size : ℕ) where
  done : Fin size → ℕ → ℕ
  content : Fin size → ℕ → ℕ → UInt32

variable {size : ℕ}

def init : State size := ⟨fun _ _ => 0, fun _ _ _ => 0⟩

namespace State

def advance (s : State size) (r : Fin size) (n : ℕ) : State size :=
  ⟨fun r' m => if r' = r ∧ m = n then s.done r n + 1 else s.done r' m, s.content⟩

def write (s : State size) (r : Fin size) (index slot : ℕ) (v : UInt32) : State size :=
  ⟨s.done, fun r' i k => if r' = r ∧ i = index ∧ k = slot then v else s.content r' i k⟩

def Turn (s : State size) (prog : Program size) (r : Fin size) (n : ℕ) : Prop :=
  ∀ m < n, concurrencyIndex m = concurrencyIndex n → s.done r m = (prog m r).length

def next (s : State size) (prog : Program size) (r : Fin size) (n : ℕ) : Option (Action size) :=
  (prog n r)[s.done r n]?

def Satisfied (s : State size) (n : ℕ) (peer : Fin size) (slot : ℕ) (offset : Fin 0x1000)
    (test : Test) : Prop :=
  test.holds (s.content peer (concurrencyIndex n) slot) (value n offset) = true

/-- The peer has published this or a later value of the operation, or of a later one. -/
def Reached (s : State size) (prog : Program size) (peer : Fin size) (n slot : ℕ)
    (offset : Fin 0x1000) : Prop :=
  ∃ m a offset', n ≤ m ∧ concurrencyIndex m = concurrencyIndex n ∧ a < s.done peer m ∧
    (prog m peer)[a]? = some (.publish slot offset') ∧ (m = n → offset ≤ offset')

end State

/-- A rank does the next action of an operation, of those that are issued. -/
inductive Step (count : ℕ) (prog : Program size) : State size → State size → Prop
  | publish {s : State size} {r : Fin size} {n slot : ℕ} {offset : Fin 0x1000} (hn : n < count)
      (hturn : s.Turn prog r n) (hnext : s.next prog r n = some (.publish slot offset)) :
      Step count prog s
        ((s.write r (concurrencyIndex n) slot (value n offset)).advance r n)
  | await {s : State size} {r peer : Fin size} {n slot : ℕ} {offset : Fin 0x1000} {test : Test}
      (hn : n < count) (hturn : s.Turn prog r n)
      (hnext : s.next prog r n = some (.await peer slot offset test))
      (hsatisfied : s.Satisfied n peer slot offset test) : Step count prog s (s.advance r n)

inductive Reachable (count : ℕ) (prog : Program size) : State size → Prop
  | init : Reachable count prog init
  | step {s s' : State size} (h : Reachable count prog s) (hstep : Step count prog s s') :
      Reachable count prog s'

/-- Whatever the operations do, a wait that is satisfied tells that the peer has got there. -/
def Separates (count : ℕ) : Prop :=
  ∀ (size : ℕ) (prog : Program size) (s : State size), Reachable count prog s →
    ∀ (r peer : Fin size) (n slot : ℕ) (offset : Fin 0x1000) (test : Test), n < count →
      s.Turn prog r n → s.next prog r n = some (.await peer slot offset test) →
      s.Satisfied n peer slot offset test → s.Reached prog peer n slot offset

/-! ## Before the restart -/

def Written (count : ℕ) (prog : Program size) (s : State size) : Prop :=
  ∀ r index slot, s.content r index slot = 0 ∨
    ∃ m a offset, m < count ∧ concurrencyIndex m = index ∧ a < s.done r m ∧
      (prog m r)[a]? = some (.publish slot offset) ∧ s.content r index slot = value m offset

theorem State.le_done_advance (s : State size) (r r' : Fin size) (n m : ℕ) :
    s.done r' m ≤ (s.advance r n).done r' m := by
  rw [State.advance]
  dsimp only
  split_ifs with h
  · rw [h.1, h.2]
    exact Nat.le_succ _
  · exact le_rfl

variable {count : ℕ} {prog : Program size} {s : State size}

theorem Written.advance (h : Written count prog s) (r : Fin size) (n : ℕ) :
    Written count prog (s.advance r n) := by
  intro r' index slot
  refine (h r' index slot).imp_right ?_
  rintro ⟨m, a, offset, hm, hindex, ha, hpublish, heq⟩
  exact ⟨m, a, offset, hm, hindex, ha.trans_le (s.le_done_advance r r' n m), hpublish, heq⟩

theorem Written.publish (h : Written count prog s) {r : Fin size} {slot : ℕ}
    {offset : Fin 0x1000} (hn : n < count) (hnext : s.next prog r n = some (.publish slot offset)) :
    Written count prog
      ((s.write r (concurrencyIndex n) slot (value n offset)).advance r n) := by
  intro r' index slot'
  by_cases hslot : r' = r ∧ index = concurrencyIndex n ∧ slot' = slot
  · obtain ⟨rfl, rfl, rfl⟩ := hslot
    refine .inr ⟨n, s.done r' n, offset, hn, rfl, ?_, hnext, ?_⟩
    · simp [State.advance, State.write]
    · simp [State.advance, State.write]
  · have hsame : ((s.write r (concurrencyIndex n) slot (value n offset)).advance r n).content
        r' index slot' = s.content r' index slot' := by
      simp [State.advance, State.write, hslot]
    rw [hsame]
    refine (h r' index slot').imp_right ?_
    rintro ⟨m, a, offset', hm, hindex, ha, hpublish, heq⟩
    exact ⟨m, a, offset', hm, hindex, ha.trans_le (State.le_done_advance _ r r' n m), hpublish, heq⟩

theorem Reachable.written (h : Reachable count prog s) : Written count prog s := by
  induction h with
  | init => exact fun _ _ _ => .inl rfl
  | step _ hstep ih =>
    cases hstep with
    | publish hn _ hnext => exact ih.publish hn hnext
    | await => exact ih.advance _ _

theorem Test.le_of_holds {test : Test} {slot v : UInt32} (h : test.holds slot v = true) :
    v.toNat ≤ slot.toNat := by
  cases test with
  | atLeast =>
    rw [Test.holds, Bool.not_eq_true', decide_eq_false_iff_not, lt_iff_toNat_lt] at h
    omega
  | equal =>
    rw [Test.holds, beq_iff_eq] at h
    rw [h]

/-- The values of later operations are larger, so what is large enough is not of an earlier one. -/
theorem separates_of_lt (hcount : count < 2 ^ 19) : Separates count := by
  intro size prog s hreach r peer n slot offset test hn _ _ hsatisfied
  have hle := Test.le_of_holds hsatisfied
  rw [value_toNat (by omega)] at hle
  obtain hzero | ⟨m, a, offset', hm, hindex, ha, hpublish, heq⟩ :=
    hreach.written peer (concurrencyIndex n) slot
  · rw [hzero] at hle
    have : (0 : UInt32).toNat = 0 := rfl
    omega
  · rw [heq, value_toNat (by omega)] at hle
    have hoffset := offset'.isLt
    refine ⟨m, a, offset', by omega, hindex, ha, hpublish, fun hmn => ?_⟩
    subst hmn
    exact Fin.le_def.mpr (by omega)

/-! ## The restart -/

/-- All-gathers of two ranks of one node: each rank publishes `stepValue` and waits for the other,
and does the same with `stepValue + 1` when it is done. -/
def gathers : Program 2 := fun _ r =>
  [.publish 0 0, .await r.rev 0 0 .atLeast, .publish 0 1, .await r.rev 0 1 .atLeast]

/-- Both ranks have done so many actions of an operation, when it is their turn. -/
structure At (s : State 2) (n a : ℕ) : Prop where
  earlier : ∀ r m, m < n → s.done r m = 4
  now : ∀ r, s.done r n = a
  later : ∀ r m, n < m → s.done r m = 0

variable {s : State 2}

theorem At.turn {a : ℕ} (h : At s n a) (r : Fin 2) : s.Turn gathers r n :=
  fun m hm _ => h.earlier r m hm

theorem gathers_publish (n : ℕ) (r p : Fin 2) :
    (gathers n r)[2 * (p : ℕ)]? = some (.publish 0 (p.castLE (by decide))) := by
  fin_cases p <;> rfl

theorem gathers_await (n : ℕ) (r p : Fin 2) :
    (gathers n r)[2 * (p : ℕ) + 1]? =
      some (.await r.rev 0 (p.castLE (by decide)) .atLeast) := by
  fin_cases p <;> rfl

section

variable (hn : n < count) (hreach : Reachable count gathers s) {r p : Fin 2}

include hn hreach

theorem Reachable.gathers_publish (hturn : s.Turn gathers r n) (hdone : s.done r n = 2 * p) :
    Reachable count gathers
      ((s.write r (concurrencyIndex n) 0 (value n (p.castLE (by decide)))).advance r n) := by
  refine hreach.step (.publish hn hturn ?_)
  rw [State.next, hdone]
  exact Restart.gathers_publish n r p

/-- A rank sees the value of the other. -/
theorem Reachable.gathers_await (hturn : s.Turn gathers r n) (hdone : s.done r n = 2 * p + 1)
    (hcontent : s.content r.rev (concurrencyIndex n) 0 = value n (p.castLE (by decide))) :
    Reachable count gathers (s.advance r n) := by
  have hnext : s.next gathers r n = some (.await r.rev 0 (p.castLE (by decide)) .atLeast) := by
    rw [State.next, hdone]
    exact Restart.gathers_await n r p
  refine hreach.step (.await hn hturn hnext ?_)
  rw [State.Satisfied, hcontent]
  simp [Test.holds]

/-- Both ranks publish the next value and see that of the other. -/
theorem At.phase {p : Fin 2}
    (h : At s n (2 * p)) : ∃ s', Reachable count gathers s' ∧ At s' n (2 * p + 2) ∧
      ∀ r index slot, s'.content r index slot =
        if index = concurrencyIndex n ∧ slot = 0 then value n (p.castLE (by decide))
        else s.content r index slot := by
  have hnow := h.now
  have hturn : ∀ r m, m < n → s.done r m = 4 := h.earlier
  have h₁ := hreach.gathers_publish hn (h.turn 0) (h.now 0)
  have h₂ := h₁.gathers_publish hn (r := 1) (p := p)
    (fun m hm _ => by simp [State.advance, State.write, hm.ne, hturn 1 m hm, gathers])
    (by simp [State.advance, State.write, h.now])
  have h₃ := h₂.gathers_await hn (r := 0) (p := p)
    (fun m hm _ => by simp [State.advance, State.write, hm.ne, hturn 0 m hm, gathers])
    (by simp [State.advance, State.write, h.now]) (by simp [State.advance, State.write])
  have h₄ := h₃.gathers_await hn (r := 1) (p := p)
    (fun m hm _ => by simp [State.advance, State.write, hm.ne, hturn 1 m hm, gathers])
    (by simp [State.advance, State.write, h.now]) (by simp [State.advance, State.write])
  refine ⟨_, h₄, ⟨?_, ?_, ?_⟩, ?_⟩
  · intro r m hm
    simp [State.advance, State.write, hm.ne, h.earlier r m hm]
  · intro r
    fin_cases r <;> simp [State.advance, State.write, h.now]
  · intro r m hm
    simp [State.advance, State.write, hm.ne', h.later r m hm]
  · intro r index slot
    fin_cases r <;> simp [State.advance, State.write]

end

/-- The last operation of each concurrency index has left its values in the slots. -/
theorem exists_after (count : ℕ) (hn : n ≤ count) : ∃ s, Reachable count gathers s ∧ At s n 0 ∧
      ∀ r m, m < n → n ≤ m + maxConcurrency →
        s.content r (concurrencyIndex m) 0 = value m 1 := by
  induction n with
  | zero =>
    refine ⟨init, .init, ⟨?_, ?_, ?_⟩, ?_⟩
    · intro r m hm
      omega
    · exact fun _ => rfl
    · exact fun _ _ _ => rfl
    · intro r m hm
      omega
  | succ n ih =>
    obtain ⟨s, hreach, hat, hlast⟩ := ih (Nat.le_of_succ_le hn)
    obtain ⟨s₁, hreach₁, hat₁, hcontent₁⟩ := hat.phase hn (p := 0) hreach
    obtain ⟨s₂, hreach₂, hat₂, hcontent₂⟩ := hat₁.phase hn (p := 1) hreach₁
    refine ⟨s₂, hreach₂, ⟨?_, ?_, ?_⟩, ?_⟩
    · intro r m hm
      obtain hm | rfl := Nat.lt_succ_iff_lt_or_eq.mp hm
      · exact hat₂.earlier r m hm
      · exact hat₂.now r
    · exact fun r => hat₂.later r (n + 1) (Nat.lt_succ_self n)
    · exact fun r m hm => hat₂.later r m (Nat.lt_of_succ_lt hm)
    · intro r m hm hle
      rw [hcontent₂, hcontent₁]
      by_cases hmn : m = n
      · subst hmn
        simp
      · -- another operation of the last sixteen has another concurrency index
        have hne : concurrencyIndex m ≠ concurrencyIndex n := by
          unfold concurrencyIndex maxConcurrency at *
          omega
        simp only [hne, false_and, if_false]
        exact hlast r m (by omega) (by omega)

/-- If an operation has a smaller value than an earlier one of its concurrency index, the first of
the two ranks does not wait for the other. -/
theorem not_separates_of_value_le {m : ℕ} (hn : n < count) (hm : m < n)
    (hlast : n ≤ m + maxConcurrency) (hindex : concurrencyIndex m = concurrencyIndex n)
    (hle : (value n 0).toNat ≤ (value m 1).toNat) : ¬ Separates count := by
  intro hsep
  obtain ⟨s, hreach, hat, hcontent⟩ := exists_after count hn.le
  have hpublished := hreach.gathers_publish hn (hat.turn 0) (p := 0) (hat.now 0)
  have hreached := hsep 2 gathers _ hpublished 0 1 n 0 0 .atLeast hn ?_ ?_ ?_
  · -- the other rank has not started the operation
    obtain ⟨m', a, offset, hm', -, ha, -⟩ := hreached
    obtain hlt | rfl := hm'.lt_or_eq
    · simp [State.advance, State.write, hlt.ne', hat.later 1 m' hlt] at ha
    · simp [State.advance, State.write, hat.now 1] at ha
  · intro m' hm' _
    simp [State.advance, State.write, hm'.ne, hat.earlier 0 m' hm', gathers]
  · simp [State.next, State.advance, State.write, hat.now 0, gathers]
  · have hold : s.content 1 (concurrencyIndex n) 0 = value m 1 := by
      rw [← hindex]
      exact hcontent 1 m hm hlast
    simp [State.Satisfied, State.advance, State.write, hold, Test.holds, le_iff_toNat_le, hle]

/-- The operation that restarts the counter has the value `1`. -/
theorem not_separates_of_le (hcount : 2 ^ 19 ≤ count) : ¬ Separates count := by
  refine not_separates_of_value_le (n := 2 ^ 19 - 1) (m := 2 ^ 19 - 17) (by omega) (by norm_num)
    (by decide) (by decide) ?_
  rw [value_toNat (n := 2 ^ 19 - 17) (by norm_num), value, stepValue_restart]
  decide

/-- Waits tell that the peer has got there exactly as long as the counter has not restarted. -/
theorem separates_iff (count : ℕ) : Separates count ↔ count < 2 ^ 19 :=
  ⟨fun h => Nat.lt_of_not_le fun hle => not_separates_of_le hle h, separates_of_lt⟩

theorem restart_satisfies : ¬ Separates (2 ^ 19) := not_separates_of_le le_rfl

end CpuThread.Restart
