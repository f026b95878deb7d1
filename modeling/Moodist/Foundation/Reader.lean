import Mathlib

/-!
# Readers of byte strings

A reader takes a value off the front of a byte string, or fails. `Reads` says that a reader takes
exactly the given bytes for the given value, whatever follows them, and `Misreads` that it does
not get the value from them. Both are proved of a reader from its parts.
-/

namespace Foundation

open List

variable {ε α β : Type}

theorem except_bind_eq_ok {x : Except ε α} {f : α → Except ε β} {b : β} :
    (x >>= f) = .ok b ↔ ∃ a, x = .ok a ∧ f a = .ok b := by
  cases x with
  | error e =>
    constructor
    · intro h
      cases h
    · rintro ⟨a, ha, -⟩
      cases ha
  | ok a =>
    constructor
    · intro h
      exact ⟨a, rfl, h⟩
    · rintro ⟨a', ha, h⟩
      cases ha
      exact h

abbrev Reader (ε α : Type) := StateT (List UInt8) (Except ε) α

/-- The next `n` bytes, or the error `eod` if there are fewer. -/
def Reader.take (eod : ε) (n : ℕ) : Reader ε (List UInt8) := fun bs =>
  if bs.length < n then .error eod else .ok (bs.take n, bs.drop n)

/-- The values of `n` runs of the reader. -/
def Reader.repeat (r : Reader ε α) : ℕ → Reader ε (List α)
  | 0 => pure []
  | n + 1 => do
    let a ← r
    let as ← Reader.repeat r n
    return a :: as

/-- The reader takes exactly `bs`, and gets `a` from it. -/
def Reads (r : Reader ε α) (bs : List UInt8) (a : α) : Prop :=
  ∀ rest, r.run (bs ++ rest) = .ok (a, rest)

/-- The reader does not get `a` from a string that starts with `bs`. -/
def Misreads (r : Reader ε α) (bs : List UInt8) (a : α) : Prop :=
  ∀ rest a' rest', r.run (bs ++ rest) = .ok (a', rest') → a' ≠ a

variable {r : Reader ε α} {f : α → Reader ε β} {b : β} {s s' : List UInt8}

/-- The parts of a reader that succeeds. -/
theorem Reader.exists_of_bind (h : (r >>= f).run s = .ok (b, s')) :
    ∃ a t, r.run s = .ok (a, t) ∧ (f a).run t = .ok (b, s') := by
  rw [StateT.run_bind] at h
  obtain ⟨p, hr, h⟩ := except_bind_eq_ok.1 h
  exact ⟨p.1, p.2, hr, h⟩

theorem Reads.pure (a : α) : Reads (pure a : Reader ε α) [] a := fun _ => rfl

variable {bs bs' : List UInt8} {a : α} {as : List α} {rs : Reader ε (List α)} {g : α → β}

theorem Reads.bind (h : Reads r bs a) (h' : Reads (f a) bs' b) :
    Reads (r >>= f) (bs ++ bs') b := by
  intro rest
  rw [StateT.run_bind, append_assoc, h]
  exact h' rest

theorem Reads.map (h : Reads r bs a) (g : α → β) : Reads (g <$> r) bs (g a) := by
  intro rest
  rw [StateT.run_map, h]
  rfl

theorem Reads.take (eod : ε) (bs : List UInt8) : Reads (Reader.take eod bs.length) bs bs := by
  intro rest
  show (if _ then _ else _) = _
  rw [if_neg (by simp), take_left, drop_left]

theorem Reads.cons {bs bs' : List UInt8} {a : α} (h : Reads r bs a) (hs : Reads rs bs' as) :
    Reads (do let a ← r; let as ← rs; return a :: as) (bs ++ bs') (a :: as) := by
  refine h.bind ?_
  have hrest := hs.bind (f := fun as => Pure.pure (a :: as)) (Reads.pure (a :: as))
  rwa [append_nil] at hrest

theorem Reads.repeat {enc : α → List UInt8} (h : ∀ a ∈ as, Reads r (enc a) a) :
    Reads (r.repeat as.length) (as.flatMap enc) as := by
  induction as with
  | nil => exact Reads.pure []
  | cons a as ih =>
    obtain ⟨ha, has⟩ := forall_mem_cons.mp h
    exact ha.cons (ih has)

theorem Misreads.of_reads (h : Reads r bs a) (h' : Misreads (f a) bs' b) :
    Misreads (r >>= f) (bs ++ bs') b := by
  intro rest b' rest' hrun
  rw [StateT.run_bind, append_assoc, h] at hrun
  exact h' rest b' rest' hrun

theorem Misreads.bind (h : Misreads r bs a) (bs' : List UInt8)
    (hf : ∀ a' s b' s', (f a').run s = .ok (b', s') → b' = b → a' = a) :
    Misreads (r >>= f) (bs ++ bs') b := by
  intro rest b' rest' hrun heq
  obtain ⟨a', s, hr, hfrun⟩ := Reader.exists_of_bind hrun
  rw [append_assoc] at hr
  exact h _ a' s hr (hf a' s b' rest' hfrun heq)

theorem Reader.exists_of_map (h : (g <$> r).run s = .ok (b, s')) :
    ∃ a, r.run s = .ok (a, s') ∧ g a = b := by
  rw [← bind_pure_comp] at h
  obtain ⟨a, t, hr, hpure⟩ := Reader.exists_of_bind h
  cases hpure
  exact ⟨a, hr, rfl⟩

theorem Misreads.map (h : Misreads r bs a) (hg : Function.Injective g) :
    Misreads (g <$> r) bs (g a) := by
  intro rest b' rest' hrun heq
  obtain ⟨a', hr, hb⟩ := Reader.exists_of_map hrun
  exact h rest a' rest' hr (hg (hb.trans heq))

theorem Misreads.head {bs : List UInt8} {a : α} (h : Misreads r bs a)
    (rs : Reader ε (List α)) (bs' : List UInt8) (as : List α) :
    Misreads (do let a ← r; let as ← rs; return a :: as) (bs ++ bs') (a :: as) := by
  refine h.bind bs' fun a' s b' s' hrun heq => ?_
  obtain ⟨as', -, rfl⟩ := Reader.exists_of_map (g := (a' :: ·)) hrun
  exact (List.cons.inj heq).1

theorem Misreads.tail (h : Reads r bs a) (hs : Misreads rs bs' as) :
    Misreads (do let a ← r; let as ← rs; return a :: as) (bs ++ bs') (a :: as) :=
  Misreads.of_reads h (hs.map (g := (a :: ·)) (cons_injective))

end Foundation
