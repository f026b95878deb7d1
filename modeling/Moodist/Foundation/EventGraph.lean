import Mathlib

/-!
# Events on a shared memory

A finite set of events, each of which happens once: it has to be ready, by what has happened before,
and may wait for a cell of the memory to have a value; it then reads cells and may write one.
-/

namespace Foundation

structure EventGraph (E C : Type*) (V : C → Type*) where
  ready : Set E → E → Prop
  /-- The cell the event waits for. -/
  waits : E → Option C
  pass : E → (∀ c, V c) → Prop
  reads : E → Set C
  target : E → Option C
  value : E → (∀ c, V c) → ∀ c, V c

namespace EventGraph

variable {E C : Type*} {V : C → Type*} (G : EventGraph E C V)

open Classical in
noncomputable def run (e : E) (m : ∀ c, V c) : ∀ c, V c :=
  fun c => if G.target e = some c then G.value e m c else m c

variable {c : C}

theorem run_of_target {e : E} (h : G.target e = some c) (m : ∀ c, V c) :
    G.run e m c = G.value e m c :=
  if_pos h

theorem run_of_ne {e : E} (h : G.target e ≠ some c) (m : ∀ c, V c) : G.run e m c = m c :=
  if_neg h

structure State (E : Type*) (V : C → Type*) where
  done : Set E
  memory : ∀ c, V c

/-- The event can happen. -/
structure Enabled (w : State E V) (e : E) : Prop where
  new : e ∉ w.done
  ready : G.ready w.done e
  pass : G.pass e w.memory

noncomputable def next (w : State E V) (e : E) : State E V := ⟨insert e w.done, G.run e w.memory⟩

inductive Reachable (m₀ : ∀ c, V c) : State E V → Prop
  | init : Reachable m₀ ⟨∅, m₀⟩
  | step {w : State E V} {e : E} (h : Reachable m₀ w) (he : G.Enabled w e) :
      Reachable m₀ (G.next w e)

/-- The turns of the accesses, with the latest one whose content an event may read, and what a cell
holds in a turn. `before` is what readiness asks for, and `label` orders the events such that
none waits for a later one. -/
structure Turns (E : Type*) (V : C → Type*) (Λ : Type*) where
  turn : E → C → ℕ
  latest : E → C → ℕ
  content : ∀ c, ℕ → V c
  before : E → E → Prop
  label : E → Λ

variable {Λ : Type*} [LinearOrder Λ] (T : Turns E V Λ)

/-- The event is ready only after the other one, or waits for what it writes. -/
inductive Edge : E → E → Prop
  | before {a b : E} (h : T.before a b) : Edge a b
  | wait {a b : E} {c : C} (hb : G.waits b = some c) (ha : G.target a = some c)
      (hturn : T.turn a c = T.turn b c) : Edge a b

abbrev Hb : E → E → Prop := Relation.TransGen (G.Edge T)

/-- The memory has, in the cells an event reads, what it may read. -/
def Reads (b : E) (m : ∀ c, V c) : Prop :=
  ∀ c ∈ G.reads b, ∃ t, T.turn b c ≤ t ∧ t ≤ T.latest b c ∧ m c = T.content c t

/-- The events keep to the turns. -/
structure Lawful (m₀ : ∀ c, V c) : Prop where
  ready_before : ∀ {X : Set E} {a b : E}, G.ready X b → T.before a b → a ∈ X
  ready_of_label : ∀ {X : Set E} {b : E}, (∀ a, T.label a < T.label b → a ∈ X) → G.ready X b
  label_lt : ∀ {a b : E}, G.Edge T a b → T.label a < T.label b
  /-- In one turn a cell is written once. -/
  writer_unique : ∀ {a b : E} {c : C}, G.target a = some c → G.target b = some c →
    T.turn a c = T.turn b c → a = b
  write_hb : ∀ {a b : E} {c : C}, G.target a = some c → G.target b = some c →
    T.turn a c < T.turn b c → G.Hb T a b
  /-- What is read has been written in the same turn, or is never written. -/
  read_after : ∀ {b : E} {c : C}, c ∈ G.reads b →
    (∃ a, G.target a = some c ∧ T.turn a c = T.turn b c ∧ G.Hb T a b) ∨
      ((∀ a, G.target a ≠ some c) ∧ T.content c (T.turn b c) = m₀ c)
  turn_le_latest : ∀ {b : E} {c : C}, c ∈ G.reads b → T.turn b c ≤ T.latest b c
  /-- It is not written in a turn after the latest one until it has been read. -/
  read_before : ∀ {a b : E} {c : C}, c ∈ G.reads b → G.target a = some c →
    T.latest b c < T.turn a c → G.Hb T b a
  waits_reads : ∀ {b : E} {c : C}, G.waits b = some c → c ∈ G.reads b
  /-- With what it may read, an event passes and writes the content of its turn. -/
  pass_content : ∀ {b : E} {m : ∀ c, V c}, G.Reads T b m → G.pass b m
  value_content : ∀ {b : E} {m : ∀ c, V c} {c : C}, G.Reads T b m → G.target b = some c →
    G.value b m c = T.content c (T.turn b c)
  /-- With the content of an earlier turn, or none, an event still waits. -/
  early : ∀ {b : E} {m : ∀ c, V c} {c : C}, G.waits b = some c →
    (m c = m₀ c ∨ ∃ a, G.target a = some c ∧ T.turn a c < T.turn b c ∧
      m c = T.content c (T.turn a c)) → ¬ G.pass b m

variable {G T} {m₀ : ∀ c, V c}

variable {a : E}

theorem Lawful.label_lt_of_hb (L : G.Lawful T m₀) {b : E} (h : G.Hb T a b) :
    T.label a < T.label b := by
  induction h with
  | single h => exact L.label_lt h
  | tail _ h ih => exact ih.trans (L.label_lt h)

/-- The memory holds, for each cell, the content of the last turn in which it was written. -/
structure Inv (G : EventGraph E C V) (T : Turns E V Λ) (m₀ : ∀ c, V c)
    (w : State E V) : Prop where
  closed : ∀ {a b : E}, G.Hb T a b → b ∈ w.done → a ∈ w.done
  initial : ∀ c, (∀ a ∈ w.done, G.target a ≠ some c) → w.memory c = m₀ c
  written : ∀ {a : E} {c : C}, a ∈ w.done → G.target a = some c →
    (∀ b ∈ w.done, G.target b = some c → T.turn b c ≤ T.turn a c) →
      w.memory c = T.content c (T.turn a c)

variable {w : State E V} {e : E}

omit [LinearOrder Λ] in
/-- What may be read in one turn only is the content of that turn. -/
theorem Reads.content {m : ∀ c, V c} (h : G.Reads T e m) (hc : c ∈ G.reads e)
    (hlatest : T.latest e c = T.turn e c) : m c = T.content c (T.turn e c) := by
  obtain ⟨t, hle, hge, hm⟩ := h c hc
  rw [hm, le_antisymm (hge.trans hlatest.le) hle]

omit [LinearOrder Λ] in
theorem Inv.init : G.Inv T m₀ ⟨∅, m₀⟩ where
  closed _ h := absurd h (Set.notMem_empty _)
  initial _ _ := rfl
  written h := absurd h (Set.notMem_empty _)

omit [LinearOrder Λ] in
/-- Of the events that write a cell and have happened, the one of the last turn. -/
theorem Inv.exists_last [Finite E] (h : G.Inv T m₀ w) (hex : ∃ a ∈ w.done, G.target a = some c) :
    ∃ a ∈ w.done, G.target a = some c ∧ w.memory c = T.content c (T.turn a c) ∧
      ∀ b ∈ w.done, G.target b = some c → T.turn b c ≤ T.turn a c := by
  obtain ⟨a, ⟨ha, htarget⟩, hmax⟩ := Set.exists_max_image {a | a ∈ w.done ∧ G.target a = some c}
    (fun a => T.turn a c) (Set.toFinite _) hex
  have hlast : ∀ b ∈ w.done, G.target b = some c → T.turn b c ≤ T.turn a c :=
    fun b hb htarget' => hmax b ⟨hb, htarget'⟩
  exact ⟨a, ha, htarget, h.written ha htarget hlast, hlast⟩

section

variable (L : G.Lawful T m₀) (h : G.Inv T m₀ w)

include L h

theorem Inv.turn_le_of_new (hnew : e ∉ w.done) (hc : c ∈ G.reads e) (ha : a ∈ w.done)
    (htarget : G.target a = some c) : T.turn a c ≤ T.latest e c := by
  by_contra hlt
  exact hnew (h.closed (L.read_before hc htarget (not_le.mp hlt)) ha)

/-- An event that has not happened reads what was written in its turn, or up to the latest. -/
theorem Inv.reads [Finite E] (hnew : e ∉ w.done) (hbefore : ∀ a, G.Hb T a e → a ∈ w.done) :
    G.Reads T e w.memory := by
  intro c hc
  obtain ⟨a, ha, hturn, hhb⟩ | ⟨hnone, hcontent⟩ := L.read_after hc
  · obtain ⟨b, hb, htarget, hmem, hlast⟩ := h.exists_last ⟨a, hbefore a hhb, ha⟩
    have hle := hlast a (hbefore a hhb) ha
    exact ⟨T.turn b c, hturn ▸ hle, h.turn_le_of_new L hnew hc hb htarget, hmem⟩
  · refine ⟨T.turn e c, le_rfl, L.turn_le_latest hc, ?_⟩
    rw [hcontent]
    exact h.initial c fun a _ => hnone a

/-- If the cell an event waits for has not been written in its turn, it was not written later. -/
theorem Inv.early_of_not_done [Finite E] (htarget : G.target a = some c)
    (hturn : T.turn a c = T.turn e c) (hdone : a ∉ w.done) :
    w.memory c = m₀ c ∨ ∃ a, G.target a = some c ∧ T.turn a c < T.turn e c ∧
      w.memory c = T.content c (T.turn a c) := by
  by_cases hex : ∃ a ∈ w.done, G.target a = some c
  · obtain ⟨b, hb, htarget', hmem, -⟩ := h.exists_last hex
    refine .inr ⟨b, htarget', ?_, hmem⟩
    by_contra hle
    obtain hlt | heq := Nat.lt_or_eq_of_le (hturn ▸ not_lt.mp hle)
    · exact hdone (h.closed (L.write_hb htarget htarget' hlt) hb)
    · rw [← L.writer_unique htarget htarget' heq] at hb
      exact hdone hb
  · exact .inl (h.initial c fun a ha htarget => hex ⟨a, ha, htarget⟩)

/-- All that has to happen before an event has happened when it does. -/
theorem Inv.before_of_enabled [Finite E] (he : G.Enabled w e) (ha : G.Hb T a e) : a ∈ w.done := by
  have hedge : ∀ a, G.Edge T a e → a ∈ w.done := by
    intro a ha
    cases ha with
    | before hbefore => exact L.ready_before he.ready hbefore
    | wait hc htarget hturn =>
      by_contra hdone
      exact L.early hc (h.early_of_not_done L htarget hturn hdone) he.pass
  cases ha with
  | single h => exact hedge a h
  | tail hab hbe => exact h.closed hab (hedge _ hbe)

theorem Inv.step [Finite E] (he : G.Enabled w e) : G.Inv T m₀ (G.next w e) where
  closed {a b} hab hb := by
    obtain rfl | hb := Set.mem_insert_iff.mp hb
    · exact Set.mem_insert_of_mem _ (h.before_of_enabled L he hab)
    · exact Set.mem_insert_of_mem _ (h.closed hab hb)
  initial c hnone := by
    have hne : G.target e ≠ some c := hnone e (Set.mem_insert _ _)
    refine (G.run_of_ne hne w.memory).trans (h.initial c fun a ha => ?_)
    exact hnone a (Set.mem_insert_of_mem _ ha)
  written {a c} ha htarget hlast := by
    obtain rfl | ha := Set.mem_insert_iff.mp ha
    · refine (G.run_of_target htarget w.memory).trans (L.value_content ?_ htarget)
      exact h.reads L he.new fun _ hb => h.before_of_enabled L he hb
    · have hne : G.target e ≠ some c := by
        intro htarget'
        have hle := hlast e (Set.mem_insert _ _) htarget'
        obtain hlt | heq := Nat.lt_or_eq_of_le hle
        · exact he.new (h.closed (L.write_hb htarget' htarget hlt) ha)
        · rw [L.writer_unique htarget' htarget heq] at he
          exact he.new ha
      refine (G.run_of_ne hne w.memory).trans (h.written ha htarget fun b hb => ?_)
      exact hlast b (Set.mem_insert_of_mem _ hb)

omit h

theorem Reachable.inv [Finite E] (h : G.Reachable m₀ w) : G.Inv T m₀ w := by
  induction h with
  | init => exact Inv.init
  | step _ he ih => exact ih.step L he

theorem Reachable.closed [Finite E] (h : G.Reachable m₀ w) {b : E} (hab : G.Hb T a b)
    (hb : b ∈ w.done) : a ∈ w.done :=
  (h.inv L).closed hab hb

theorem Reachable.reads [Finite E] (h : G.Reachable m₀ w) (he : G.Enabled w e) :
    G.Reads T e w.memory :=
  (h.inv L).reads L he.new fun _ ha => (h.inv L).before_of_enabled L he ha

/-- The event with the smallest label of those that have not happened can happen. -/
theorem Reachable.exists_step [Finite E] (h : G.Reachable m₀ w) (hall : w.done ≠ Set.univ) :
    ∃ e, G.Enabled w e := by
  obtain ⟨e, hnew, hmin⟩ := Set.exists_min_image (w.done)ᶜ T.label (Set.toFinite _)
    (Set.nonempty_compl.mpr hall)
  have hlabel : ∀ a, T.label a < T.label e → a ∈ w.done := by
    intro a hlt
    by_contra hdone
    exact absurd (hmin a hdone) (not_le.mpr hlt)
  have hbefore : ∀ a, G.Hb T a e → a ∈ w.done := fun a ha => hlabel a (L.label_lt_of_hb ha)
  exact ⟨e, hnew, L.ready_of_label hlabel, L.pass_content ((h.inv L).reads L hnew hbefore)⟩

theorem Reachable.done_eq_univ [Finite E] (h : G.Reachable m₀ w)
    (hstuck : ¬ ∃ e, G.Enabled w e) : w.done = Set.univ := by
  by_contra hall
  exact hstuck (h.exists_step L hall)

end

theorem wellFounded_next [Finite E] :
    WellFounded fun w' w : State E V => ∃ e, G.Enabled w e ∧ w' = G.next w e := by
  refine Subrelation.wf ?_ (measure fun w : State E V => (w.done)ᶜ.ncard).wf
  rintro _ w ⟨e, he, rfl⟩
  refine Set.ncard_lt_ncard ⟨Set.compl_subset_compl.mpr (Set.subset_insert e w.done), ?_⟩
    (Set.toFinite _)
  intro hsub
  exact hsub he.new (Set.mem_insert e w.done)

theorem Reachable.exists_all [Finite E] (L : G.Lawful T m₀) (h : G.Reachable m₀ w) :
    ∃ w, G.Reachable m₀ w ∧ w.done = Set.univ := by
  induction w using (wellFounded_next (G := G)).induction with
  | _ w ih =>
    by_cases hall : w.done = Set.univ
    · exact ⟨w, h, hall⟩
    · obtain ⟨e, he⟩ := h.exists_step L hall
      exact ih (G.next w e) ⟨e, he, rfl⟩ (h.step he)

theorem Reachable.exists_enabled_of_done (h : G.Reachable m₀ w) (he : e ∈ w.done) :
    ∃ w, G.Reachable m₀ w ∧ G.Enabled w e := by
  induction h with
  | init => exact absurd he (Set.notMem_empty e)
  | step h henabled ih =>
    obtain rfl | he := Set.mem_insert_iff.mp he
    · exact ⟨_, h, henabled⟩
    · exact ih he

theorem exists_enabled [Finite E] (L : G.Lawful T m₀) (e : E) :
    ∃ w, G.Reachable m₀ w ∧ G.Enabled w e := by
  have hinit : G.Reachable m₀ ⟨∅, m₀⟩ := .init
  obtain ⟨w, h, hall⟩ := hinit.exists_all L
  exact h.exists_enabled_of_done (hall ▸ Set.mem_univ e)

end EventGraph

end Foundation
