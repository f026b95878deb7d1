import Moodist.Foundation.EventGraph

/-!
# Sequences of works

Ranks that run the same sequence of works, one after the other.
-/

namespace Foundation

/-- `order` is what has to happen before a statement on the same rank in the same work. -/
structure Works (R S : Type*) where
  length : ℕ
  has : ℕ → R → S → Prop
  enter : S
  order : ℕ → R → S → S → Prop
  has_enter : ∀ k r, has k r enter
  enter_first : ∀ {k r s}, has k r s → s ≠ enter → order k r enter s

namespace Works

variable {R S : Type*} (W : Works R S)

structure Event where
  op : ℕ
  rank : R
  stmt : S
  op_lt : op < W.length
  has : W.has op rank stmt

variable {W} {a b : W.Event}

theorem Event.ext_of (hop : a.op = b.op) (hrank : a.rank = b.rank)
    (hstmt : a.stmt = b.stmt) : a = b := by
  cases a
  cases b
  obtain rfl := hop
  obtain rfl := hrank
  obtain rfl := hstmt
  rfl

instance finite_event [Finite R] [Finite S] : Finite W.Event := by
  refine Finite.of_injective (β := Fin W.length × R × S)
    (fun e => (⟨e.op, e.op_lt⟩, e.rank, e.stmt)) fun a b heq => ?_
  obtain ⟨hop, hrest⟩ := Prod.mk.inj heq
  obtain ⟨hrank, hstmt⟩ := Prod.mk.inj hrest
  exact Event.ext_of (Fin.mk.inj hop) hrank hstmt

def Event.other (e : W.Event) (rank : R) (stmt : S) (h : W.has e.op rank stmt) : W.Event :=
  ⟨e.op, rank, stmt, e.op_lt, h⟩

/-- What has to happen before a statement. -/
inductive Before : W.Event → W.Event → Prop
  | order {a b : W.Event} (hop : a.op = b.op) (hrank : a.rank = b.rank)
      (h : W.order b.op b.rank a.stmt b.stmt) : Before a b
  | enter {a b : W.Event} (hop : a.op < b.op) (hrank : a.rank = b.rank) (hb : b.stmt = W.enter) :
      Before a b

theorem before_of_op_lt (hop : a.op < b.op) (hrank : a.rank = b.rank) :
    Relation.TransGen Before a b := by
  have henter : Before a (b.other b.rank W.enter (W.has_enter _ _)) := .enter hop hrank rfl
  by_cases hb : b.stmt = W.enter
  · have heq : b.other b.rank W.enter (W.has_enter _ _) = b := Event.ext_of rfl rfl hb.symm
    rw [heq] at henter
    exact .single henter
  · exact .tail (.single henter) (.order rfl rfl (W.enter_first b.has hb))

section Label

variable {L : Type*} [LinearOrder L] (line : ℕ → R → S → L)

def label (e : W.Event) : ℕ ×ₗ L := toLex (e.op, line e.op e.rank e.stmt)

theorem label_lt_of_line (hop : a.op = b.op)
    (h : line a.op a.rank a.stmt < line b.op b.rank b.stmt) : label line a < label line b := by
  rw [label, label, Prod.Lex.toLex_lt_toLex]
  exact .inr ⟨hop, h⟩

theorem label_lt (hline : ∀ {k r s s'}, W.order k r s s' → line k r s < line k r s')
    (h : Before a b) : label line a < label line b := by
  cases h with
  | order hop hrank h =>
    refine label_lt_of_line line hop ?_
    rw [hop, hrank]
    exact hline h
  | enter hop hrank hb =>
    rw [label, label, Prod.Lex.toLex_lt_toLex]
    exact .inl hop

end Label

end Works

end Foundation
