import Mathlib

/-!
# Pre- and postconditions for state and exceptions

A computation of `EStateM` ends with a value or an error, and with a state in both cases. `wp`
is its weakest precondition for one condition on each of the two ends.
-/

namespace Foundation

variable {ε σ α β : Type}

/-- Started in `w`, the computation ends with a value and a state that satisfy `Q`, or with an
error and a state that satisfy `E`. -/
def wp (m : EStateM ε σ α) (Q : α → σ → Prop) (E : ε → σ → Prop) (w : σ) : Prop :=
  match m w with
  | .ok a w' => Q a w'
  | .error e w' => E e w'

variable {Q Q' : α → σ → Prop} {E E' : ε → σ → Prop} {w : σ}

variable {m : EStateM ε σ α} {w' : σ} {f : α → EStateM ε σ β}

theorem wp_ok {a : α} (h : m w = .ok a w') : wp m Q E w ↔ Q a w' := by
  rw [wp, h]

theorem wp_error {e : ε} (h : m w = .error e w') : wp m Q E w ↔ E e w' := by
  rw [wp, h]

theorem wp.mono (h : wp m Q E w) (hQ : ∀ a w', Q a w' → Q' a w') (hE : ∀ e w', E e w' → E' e w') :
    wp m Q' E' w := by
  unfold wp at *
  cases hm : m w with
  | ok a w' =>
    rw [hm] at h
    exact hQ a w' h
  | error e w' =>
    rw [hm] at h
    exact hE e w' h

@[simp] theorem wp_get {Q : σ → σ → Prop} : wp get Q E w ↔ Q w w := Iff.rfl

@[simp] theorem wp_modify {Q : PUnit → σ → Prop} {f : σ → σ} :
    wp (modify f) Q E w ↔ Q ⟨⟩ (f w) := Iff.rfl

@[simp] theorem wp_bind {m : EStateM ε σ α} {Q : β → σ → Prop} :
    wp (m >>= f) Q E w ↔ wp m (fun a w' => wp (f a) Q E w') E w := by
  show wp (EStateM.bind m f) Q E w ↔ _
  unfold wp EStateM.bind
  cases m w <;> rfl

theorem bind_ok {a : α} (h : m w = .ok a w') : (m >>= f) w = f a w' := by
  show EStateM.bind m f w = _
  rw [EStateM.bind, h]

theorem bind_error {e : ε} (h : m w = .error e w') :
    (m >>= f) w = .error e w' := by
  show EStateM.bind m f w = _
  rw [EStateM.bind, h]

theorem get_bind {f : σ → EStateM ε σ β} : ((get : EStateM ε σ σ) >>= f) w = f w w := rfl

theorem set_bind {f : PUnit → EStateM ε σ β} :
    ((set w' : EStateM ε σ PUnit) >>= f) w = f ⟨⟩ w' := rfl

theorem modify_bind {g : σ → σ} {f : PUnit → EStateM ε σ β} :
    ((modify g : EStateM ε σ PUnit) >>= f) w = f ⟨⟩ (g w) := rfl

/-- A loop over a list keeps an invariant that each iteration keeps. -/
theorem wp_forM {I : List α → σ → Prop} {f : α → EStateM ε σ PUnit}
    (hstep : ∀ a l w, I (a :: l) w → wp (f a) (fun _ w' => I l w') E w) :
    ∀ (l : List α) (w : σ), I l w → wp (l.forM f) (fun _ w' => I [] w') E w := by
  intro l
  induction l with
  | nil =>
    intro w h
    exact h
  | cons a l ih =>
    intro w h
    show wp (f a >>= fun _ => l.forM f) _ _ w
    rw [wp_bind]
    exact (hstep a l w h).mono (fun _ w' h' => ih w' h') fun _ _ h' => h'

end Foundation
