import Moodist.CpuThread.Barrier

/-!
# The step values of a sequence of works

The step values of the works on one concurrency index, and what the ranks of a node publish: the
step value of a work when it has begun, and the one after it at the end. The ranks of a node copy
from each other with `process_vm_readv`.
-/

namespace CpuThread

/-- The step values of the works are increasing. -/
structure Increasing (length : ℕ) (stepValue : ℕ → UInt32) : Prop where
  isStepValue : ∀ k < length, IsStepValue (stepValue k)
  lt : ∀ k k', k < k' → k' < length → (stepValue k).toNat < (stepValue k').toNat

/-- What `process_vm_readv` returns for one buffer: Linux moves at most `0x7ffff000` bytes in a
call. -/
def processVmReadv (bytes : ℕ) : ℕ := min bytes 0x7ffff000

theorem processVmReadv_eq_iff {bytes : ℕ} : processVmReadv bytes = bytes ↔ bytes ≤ 0x7ffff000 :=
  min_eq_left_iff

/-- What a rank has published last, after it has published `t + 1` times. -/
def published (stepValue : ℕ → UInt32) (t : ℕ) : UInt32 :=
  stepValue (t / 2) + UInt32.ofNat (t % 2)

variable {length : ℕ} {stepValue : ℕ → UInt32} {k k' t t' : ℕ}

namespace Increasing

variable (h : Increasing length stepValue) {x : UInt32}

include h

theorem pos (hk : k < length) : 0 < (stepValue k).toNat := (h.isStepValue k hk).toNat_cases.1

theorem succ_lt (hlt : k < k') (hk' : k' < length) :
    (stepValue k).toNat + 1 < (stepValue k').toNat :=
  (h.isStepValue k (hlt.trans hk')).succ_lt (h.isStepValue k' hk') (h.lt k k' hlt hk')

theorem add_toNat (hk : k < length) {v : ℕ} (hv : v ≤ 1) :
    (stepValue k + UInt32.ofNat v).toNat = (stepValue k).toNat + v := by
  have hlt := (h.isStepValue k hk).toNat_cases.2.1
  have hofNat : (UInt32.ofNat v).toNat = v := by
    rw [UInt32.toNat_ofNat']
    omega
  rw [UInt32.toNat_add, hofNat]
  omega

theorem published_toNat (ht : t / 2 < length) :
    (published stepValue t).toNat = (stepValue (t / 2)).toNat + t % 2 :=
  h.add_toNat ht (by omega)

/-- What a rank publishes is increasing. -/
theorem published_lt (hlt : t < t') (ht' : t' / 2 < length) :
    (published stepValue t).toNat < (published stepValue t').toNat := by
  have hle : t / 2 ≤ t' / 2 := Nat.div_le_div_right hlt.le
  rw [h.published_toNat (hle.trans_lt ht'), h.published_toNat ht']
  obtain hop | hop := Nat.lt_or_eq_of_le hle
  · have hsucc := h.succ_lt hop ht'
    omega
  · rw [hop]
    omega

theorem published_le (hle : t ≤ t') (ht' : t' / 2 < length) :
    published stepValue t ≤ published stepValue t' := by
  rw [UInt32.le_iff_toNat_le]
  obtain hlt | rfl := Nat.lt_or_eq_of_le hle
  · exact (h.published_lt hlt ht').le
  · exact le_rfl

/-- What is in a slot before its turn is too small. -/
theorem not_published_le (ht' : t' / 2 < length)
    (hx : x = 0 ∨ ∃ t < t', x = published stepValue t) : ¬ published stepValue t' ≤ x := by
  rw [UInt32.le_iff_toNat_le, not_le]
  obtain rfl | ⟨t, hlt, rfl⟩ := hx
  · rw [h.published_toNat ht']
    exact Nat.add_pos_left (h.pos ht') _
  · exact h.published_lt hlt ht'

theorem not_le_of_earlier (hk' : k' < length)
    (hx : x = 0 ∨ ∃ k < k', x = stepValue k) : ¬ stepValue k' ≤ x := by
  rw [UInt32.le_iff_toNat_le, not_le]
  obtain rfl | ⟨k, hlt, rfl⟩ := hx
  · exact h.pos hk'
  · exact h.lt k k' hlt hk'

end Increasing

theorem exists_earlier {E β : Type*} {op : E → ℕ} {P : E → Prop} {n : ℕ} {x : β} {f : ℕ → β}
    (h : ∃ a, P a ∧ 2 * op a < 2 * n ∧ x = f (2 * op a / 2)) : ∃ k < n, x = f k := by
  obtain ⟨a, -, hlt, hx⟩ := h
  exact ⟨op a, by omega, by rwa [Nat.mul_div_cancel_left _ two_pos] at hx⟩

theorem published_add (stepValue : ℕ → UInt32) (k : ℕ) {v : ℕ} (hv : v ≤ 1) :
    published stepValue (2 * k + v) = stepValue k + UInt32.ofNat v := by
  have hdiv : (2 * k + v) / 2 = k := by omega
  have hmod : (2 * k + v) % 2 = v := by omega
  rw [published, hdiv, hmod]

theorem published_zero (stepValue : ℕ → UInt32) (k : ℕ) :
    published stepValue (2 * k + 0) = stepValue k :=
  (published_add stepValue k (Nat.zero_le 1)).trans (UInt32.add_zero _)

theorem published_one (stepValue : ℕ → UInt32) (k : ℕ) :
    published stepValue (2 * k + 1) = stepValue k + 1 :=
  published_add stepValue k le_rfl

theorem published_cases (stepValue : ℕ → UInt32) (hle : 2 * k ≤ t) (hle' : t ≤ 2 * k + 1) :
    published stepValue t = stepValue k ∨ published stepValue t = stepValue k + 1 := by
  obtain rfl | rfl : t = 2 * k + 0 ∨ t = 2 * k + 1 := by omega
  · exact .inl (published_zero stepValue k)
  · exact .inr (published_one stepValue k)

end CpuThread
