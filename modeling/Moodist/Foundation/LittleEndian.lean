import Mathlib

/-!
# Little-endian numbers

Natural numbers as lists of bytes of a fixed length, least significant byte first.
-/

namespace Foundation

/-- The `k` low bytes of `x`. -/
def toLE : ℕ → ℕ → List UInt8
  | 0, _ => []
  | k + 1, x => UInt8.ofNat x :: toLE k (x / 256)

def ofLE : List UInt8 → ℕ
  | [] => 0
  | b :: bs => b.toNat + 256 * ofLE bs

@[simp] theorem length_toLE (k x : ℕ) : (toLE k x).length = k := by
  induction k generalizing x with
  | zero => rfl
  | succ k ih => rw [toLE, List.length_cons, ih]

theorem ofLE_toLE_mod (k x : ℕ) : ofLE (toLE k x) = x % 256 ^ k := by
  induction k generalizing x with
  | zero => simp [toLE, ofLE, Nat.mod_one]
  | succ k ih =>
    rw [toLE, ofLE, ih, pow_succ', Nat.mod_mul]
    simp

theorem ofLE_toLE {k x : ℕ} (h : x < 256 ^ k) : ofLE (toLE k x) = x := by
  rw [ofLE_toLE_mod, Nat.mod_eq_of_lt h]

theorem ofLE_lt (bs : List UInt8) : ofLE bs < 256 ^ bs.length := by
  induction bs with
  | nil => simp [ofLE]
  | cons b bs ih =>
    have hb := b.toNat_lt
    rw [ofLE, List.length_cons, pow_succ']
    omega

end Foundation
