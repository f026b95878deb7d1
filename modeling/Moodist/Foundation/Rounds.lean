import Mathlib

/-!
# Exchange in rounds

`n` parties go through the same rounds. In each they wait at a barrier, put a message for each party
into its queue, take `n` messages from their own in any order, and compute their next state, or
fail. Every run ends (`Step.wellFounded`). If who fails does not depend on the order (`Predicts`),
all get to the end (`done_of_stuck`), or those that do not fail wait at the barrier behind the first
failure (`blocked_of_stuck`).
-/

namespace Foundation

open Function List Multiset

/-- A protocol of `n` parties with states `σ`, messages `M` and errors `ε`. -/
structure Rounds (n : ℕ) (σ M ε : Type) where
  rounds : ℕ
  start : Fin n → Except ε σ
  message : ℕ → Fin n → σ → Fin n → M
  finish : ℕ → Fin n → σ → List M → Except ε σ

namespace Rounds

variable {n : ℕ} {σ M ε : Type}

/-- Where a party is. -/
inductive Phase (n : ℕ) (σ M ε : Type) where
  | waiting (k : ℕ) (s : σ)
  | sending (k : ℕ) (todo : List (Fin n)) (s : σ)
  | receiving (k : ℕ) (got : List M) (s : σ)
  | failed (k : ℕ) (e : ε)
  | done (s : σ)

/-- The party has computed a state before barrier `k`, or failed to. -/
def Phase.arrive (k : ℕ) : Except ε σ → Phase n σ M ε
  | .ok s => .waiting k s
  | .error e => .failed k e

structure State (n : ℕ) (σ M ε : Type) where
  phase : Fin n → Phase n σ M ε
  queue : Fin n → Multiset M

variable (pr : Rounds n σ M ε)

def init : State n σ M ε where
  phase p := .arrive 0 (pr.start p)
  queue _ := 0

def level : Phase n σ M ε → ℕ
  | .waiting k _ => k + 1
  | .sending k _ _ => k + 1
  | .receiving k _ _ => k + 1
  | .failed k _ => k
  | .done _ => pr.rounds + 1

/-- One step of one party. -/
inductive Step (st : State n σ M ε) : State n σ M ε → Prop
  | pass (p : Fin n) (k : ℕ) (s : σ) (h : st.phase p = .waiting k s) (hk : k < pr.rounds)
      (hall : ∀ q, k < pr.level (st.phase q)) :
      Step st { st with phase := update st.phase p (.sending k (List.finRange n) s) }
  | leave (p : Fin n) (s : σ) (h : st.phase p = .waiting pr.rounds s)
      (hall : ∀ q, pr.rounds < pr.level (st.phase q)) :
      Step st { st with phase := update st.phase p (.done s) }
  | put (p : Fin n) (k : ℕ) (q : Fin n) (todo : List (Fin n)) (s : σ)
      (h : st.phase p = .sending k (q :: todo) s) :
      Step st
        { phase := update st.phase p (.sending k todo s)
          queue := update st.queue q (pr.message k p s q ::ₘ st.queue q) }
  | turn (p : Fin n) (k : ℕ) (s : σ) (h : st.phase p = .sending k [] s) :
      Step st { st with phase := update st.phase p (.receiving k [] s) }
  | get (p : Fin n) (k : ℕ) (got : List M) (s : σ) (m : M) (rest : Multiset M)
      (h : st.phase p = .receiving k got s) (hgot : got.length < n)
      (hm : st.queue p = m ::ₘ rest) :
      Step st
        { phase := update st.phase p (.receiving k (got ++ [m]) s)
          queue := update st.queue p rest }
  | finish (p : Fin n) (k : ℕ) (got : List M) (s : σ) (h : st.phase p = .receiving k got s)
      (hgot : got.length = n) :
      Step st { st with
        phase := update st.phase p (.arrive (k + 1) (pr.finish k p s got)) }

def Reachable (st : State n σ M ε) : Prop := Relation.ReflTransGen pr.Step pr.init st

def Stuck (st : State n σ M ε) : Prop := ∀ st', ¬ pr.Step st st'

/-! ## Every run ends -/

def work : Phase n σ M ε → ℕ
  | .waiting k _ => (pr.rounds - k) * (2 * n + 3) + 1
  | .sending k todo _ => (pr.rounds - k - 1) * (2 * n + 3) + todo.length + n + 3
  | .receiving k got _ => (pr.rounds - k - 1) * (2 * n + 3) + (n - got.length) + 2
  | .failed _ _ => 0
  | .done _ => 0

variable {f : Fin n → Phase n σ M ε} {p : Fin n} {ph : Phase n σ M ε}

theorem sum_update_lt (h : pr.work ph < pr.work (f p)) :
    ∑ q, pr.work (update f p ph q) < ∑ q, pr.work (f q) := by
  refine Finset.sum_lt_sum (fun q _ => ?_) ⟨p, Finset.mem_univ p, by simpa using h⟩
  by_cases hq : q = p
  · subst hq
    simpa using h.le
  · rw [update_of_ne hq]

theorem Step.work_lt {st st' : State n σ M ε} (h : pr.Step st st') :
    ∑ q, pr.work (st'.phase q) < ∑ q, pr.work (st.phase q) := by
  cases h with
  | pass p k s h hk hall =>
    apply sum_update_lt
    have hsplit : pr.rounds - k = pr.rounds - k - 1 + 1 := by omega
    rw [h, work, work, hsplit, length_finRange, Nat.add_sub_cancel, Nat.add_mul]
    omega
  | leave p s h hall =>
    apply sum_update_lt
    rw [h, work, work]
    omega
  | put p k q todo s h =>
    apply sum_update_lt
    rw [h, work, work, length_cons]
    omega
  | turn p k s h =>
    apply sum_update_lt
    rw [h, work, work, length_nil]
    omega
  | get p k got s m rest h hgot hm =>
    apply sum_update_lt
    rw [h, work, work, length_append, length_singleton]
    omega
  | finish p k got s h hgot =>
    apply sum_update_lt
    rw [h]
    cases pr.finish k p s got with
    | ok s' =>
      rw [Phase.arrive, work, work, Nat.sub_sub]
      omega
    | error e =>
      rw [Phase.arrive, work, work]
      omega

theorem Step.wellFounded : WellFounded fun st' st => pr.Step st st' :=
  Subrelation.wf (fun h => Step.work_lt pr h)
    (InvImage.wf (fun st : State n σ M ε => ∑ q, pr.work (st.phase q)) Nat.lt_wfRel.wf)

/-- From every state some run goes on to a state where nobody can go on. -/
theorem exists_stuck (st : State n σ M ε) : ∃ st', Relation.ReflTransGen pr.Step st st' ∧
    pr.Stuck st' := by
  induction st using (Step.wellFounded pr).induction with
  | _ st ih =>
    by_cases hstuck : pr.Stuck st
    · exact ⟨st, .refl, hstuck⟩
    · obtain ⟨st₁, hstep⟩ : ∃ st₁, pr.Step st st₁ := by
        simpa [Stuck] using hstuck
      obtain ⟨st', hrun, hstuck'⟩ := ih st₁ hstep
      exact ⟨st', .head hstep hrun, hstuck'⟩

/-! ## Who fails -/

/-- The messages for `p` in round `k`, from parties in the states `s`. -/
def inbox (k : ℕ) (s : Fin n → σ) (p : Fin n) : Multiset M :=
  Finset.univ.val.map fun q => pr.message k q (s q) p

/-- `Fails k p` says that `p` fails before barrier `k` if nobody has failed before. The states
that can occur at barrier `k` satisfy `Ok k`. -/
structure Predicts (Ok : ℕ → Fin n → σ → Prop) (Fails : ℕ → Fin n → Prop) : Prop where
  start_ok : ∀ p s, pr.start p = .ok s → Ok 0 p s ∧ ¬ Fails 0 p
  start_error : ∀ p e, pr.start p = .error e → Fails 0 p
  finish_ok : ∀ k < pr.rounds, ∀ s : Fin n → σ, (∀ q, Ok k q (s q)) →
    ∀ p (got : List M), (got : Multiset M) = pr.inbox k s p →
      ∀ s', pr.finish k p (s p) got = .ok s' →
      Ok (k + 1) p s' ∧ ¬ Fails (k + 1) p
  finish_error : ∀ k < pr.rounds, ∀ s : Fin n → σ, (∀ q, Ok k q (s q)) →
    ∀ p (got : List M), (got : Multiset M) = pr.inbox k s p →
      ∀ e, pr.finish k p (s p) got = .error e →
      Fails (k + 1) p

/-- Where a party can be once all have arrived at barrier `k`, this one in the state `s`. -/
inductive InRound (Ok : ℕ → Fin n → σ → Prop) (Fails : ℕ → Fin n → Prop) (k : ℕ) (p : Fin n)
    (s : σ) : Phase n σ M ε → Prop
  | waiting : InRound Ok Fails k p s (.waiting k s)
  | sending (todo : List (Fin n)) (hk : k < pr.rounds) (htodo : todo.Nodup) :
      InRound Ok Fails k p s (.sending k todo s)
  | receiving (got : List M) (hk : k < pr.rounds) : InRound Ok Fails k p s (.receiving k got s)
  | next (s' : σ) (hk : k < pr.rounds) (hok : Ok (k + 1) p s') (hfails : ¬ Fails (k + 1) p) :
      InRound Ok Fails k p s (.waiting (k + 1) s')
  | failed (e : ε) (hk : k < pr.rounds) (hfails : Fails (k + 1) p) :
      InRound Ok Fails k p s (.failed (k + 1) e)
  | done (hk : k = pr.rounds) : InRound Ok Fails k p s (.done s)

/-- The parties for which there is still a message of round `k` to be put. -/
def unsent (k : ℕ) : Phase n σ M ε → Finset (Fin n)
  | .waiting k' _ => if k' = k then Finset.univ else ∅
  | .sending _ todo _ => todo.toFinset
  | .receiving _ _ _ => ∅
  | .failed _ _ => ∅
  | .done _ => Finset.univ

/-- The messages of round `k` that the party has taken. -/
def taken (k : ℕ) (all : Multiset M) : Phase n σ M ε → Multiset M
  | .waiting k' _ => if k' = k then 0 else all
  | .sending _ _ _ => 0
  | .receiving _ got _ => got
  | .failed _ _ => all
  | .done _ => 0

/-- The messages for `p` that are still to be put. -/
def pending (k : ℕ) (s : Fin n → σ) (f : Fin n → Phase n σ M ε) (p : Fin n) : Multiset M :=
  (Finset.univ.filter fun q => p ∈ unsent k (f q)).val.map fun q => pr.message k q (s q) p

/-- All have arrived at barrier `k` in the states `s`, and every message of the round has been
taken, or is in its queue, or is still to be put. -/
structure InRoundAll (Ok : ℕ → Fin n → σ → Prop) (Fails : ℕ → Fin n → Prop) (k : ℕ)
    (s : Fin n → σ) (st : State n σ M ε) : Prop where
  le : k ≤ pr.rounds
  ok : ∀ p, Ok k p (s p)
  before : ∀ i ≤ k, ∀ p, ¬ Fails i p
  phase : ∀ p, pr.InRound Ok Fails k p (s p) (st.phase p)
  messages : ∀ p, taken k (pr.inbox k s p) (st.phase p) + st.queue p +
    pr.pending k s st.phase p = pr.inbox k s p

variable {pr} {Ok : ℕ → Fin n → σ → Prop} {Fails : ℕ → Fin n → Prop} {k : ℕ} {s : Fin n → σ}
  {st : State n σ M ε} {g : Fin n → Phase n σ M ε} {q : Fin n}

theorem card_inbox (p : Fin n) : (pr.inbox k s p).card = n := by
  simp [inbox]

theorem pending_congr (h : ∀ q, p ∈ unsent k (f q) ↔ p ∈ unsent k (g q)) :
    pr.pending k s f p = pr.pending k s g p := by
  simp only [pending, h]

/-- One party has put its message for `q`. -/
theorem pending_cons (hf : q ∈ unsent k (f p))
    (hg : q ∉ unsent k (g p)) (h : ∀ x, x ≠ p → (q ∈ unsent k (f x) ↔ q ∈ unsent k (g x))) :
    pr.pending k s f q = pr.message k p (s p) q ::ₘ pr.pending k s g q := by
  have hset : (Finset.univ.filter fun x => q ∈ unsent k (f x)) =
      insert p (Finset.univ.filter fun x => q ∈ unsent k (g x)) := by
    ext x
    by_cases hx : x = p
    · subst hx
      simp [hf]
    · simp [hx, h x hx]
  rw [pending, hset, Finset.insert_val_of_notMem (by simpa using hg), Multiset.map_cons]
  rfl

variable {sp : σ} {todo : List (Fin n)}

theorem InRound.lt_level (h : pr.InRound Ok Fails k p sp ph) : k < pr.level ph := by
  cases h <;> simp only [level] <;> omega

section

variable (h : pr.InRoundAll Ok Fails k s st)

include h

theorem InRoundAll.update {queue : Fin n → Multiset M} (hph : pr.InRound Ok Fails k p (s p) ph)
    (hunsent : unsent k ph = unsent k (st.phase p)) (htaken : taken k (pr.inbox k s p) ph + queue
      p = taken k (pr.inbox k s p) (st.phase p) + st.queue p)
    (hqueue : ∀ q, q ≠ p → queue q = st.queue q) :
    pr.InRoundAll Ok Fails k s ⟨update st.phase p ph, queue⟩ := by
  refine ⟨h.le, h.ok, h.before, fun q => ?_, fun q => ?_⟩
  · show pr.InRound Ok Fails k q (s q) (Function.update st.phase p ph q)
    by_cases hq : q = p
    · subst hq
      simpa using hph
    · rw [update_of_ne hq]
      exact h.phase q
  · have hpending : pr.pending k s (Function.update st.phase p ph) q =
        pr.pending k s st.phase q := by
      refine pending_congr fun x => ?_
      by_cases hx : x = p
      · subst hx
        rw [update_self, hunsent]
      · rw [update_of_ne hx]
    show taken k (pr.inbox k s q) (Function.update st.phase p ph q) + queue q +
      pr.pending k s (Function.update st.phase p ph) q = _
    rw [hpending]
    by_cases hq : q = p
    · subst hq
      rw [update_self, htaken]
      exact h.messages q
    · rw [update_of_ne hq, hqueue q hq]
      exact h.messages q

variable (hp : st.phase p = .waiting k sp)

include hp

theorem InRoundAll.eq_of_waiting : sp = s p := by
  have hin := h.phase p
  rw [hp] at hin
  cases hin with
  | waiting => rfl

theorem InRoundAll.pass (hk : k < pr.rounds) :
    pr.InRoundAll Ok Fails k s
      { st with phase := Function.update st.phase p (.sending k (List.finRange n) sp) } := by
  obtain rfl := h.eq_of_waiting hp
  refine h.update (.sending _ hk (nodup_finRange n)) ?_ ?_ fun _ _ => rfl
  · ext q
    simp [unsent, hp]
  · simp [taken, hp]

theorem InRoundAll.leave (hk : k = pr.rounds) :
    pr.InRoundAll Ok Fails k s { st with phase := Function.update st.phase p (.done sp) } := by
  obtain rfl := h.eq_of_waiting hp
  refine h.update (.done hk) ?_ ?_ fun _ _ => rfl
  · simp [unsent, hp]
  · simp [taken, hp]

omit hp

theorem InRoundAll.next (hall : ∀ q, k + 1 < pr.level (st.phase q)) (hk : k < pr.rounds) :
    ∃ s', pr.InRoundAll Ok Fails (k + 1) s' st := by
  have hphase : ∀ q, ∃ sq, st.phase q = .waiting (k + 1) sq ∧ Ok (k + 1) q sq ∧
      ¬ Fails (k + 1) q := by
    intro q
    have hlevel := hall q
    have hin := h.phase q
    generalize st.phase q = ph at hlevel hin
    cases hin with
    | next sq _ hok hfails => exact ⟨sq, rfl, hok, hfails⟩
    | waiting | sending | receiving | failed => simp [level] at hlevel
    | done => simp only [level] at hlevel; omega
  choose s' hs' hok hfails using hphase
  have hqueue : ∀ q, st.queue q = 0 := by
    intro q
    have hmsg := h.messages q
    rw [hs' q, taken, if_neg (by omega), add_assoc, add_eq_left] at hmsg
    exact (add_eq_zero.mp hmsg).1
  refine ⟨s', by omega, hok, fun i hi p => ?_, fun q => ?_, fun q => ?_⟩
  · rcases Nat.lt_or_ge i (k + 1) with hi' | hi'
    · exact h.before i (by omega) p
    · obtain rfl : i = k + 1 := by omega
      exact hfails p
  · rw [hs' q]
    exact .waiting
  · have hfilter : (Finset.univ.filter fun x => q ∈ unsent (k + 1) (st.phase x)) = Finset.univ := by
      refine Finset.filter_true_of_mem fun x _ => ?_
      rw [hs' x]
      simp [unsent]
    rw [hqueue q, hs' q, taken, if_pos rfl, pending, hfilter, zero_add, zero_add]
    rfl

/-- A party has put one more message. -/
theorem InRoundAll.put (hp : st.phase p = .sending k (q :: todo) (s p)) (hk : k < pr.rounds)
    (htodo : (q :: todo).Nodup) : pr.InRoundAll Ok Fails k s
      { phase := Function.update st.phase p (.sending k todo (s p))
        queue := Function.update st.queue q (pr.message k p (s p) q ::ₘ st.queue q) } := by
  have hnot : q ∉ todo := (nodup_cons.mp htodo).1
  refine ⟨h.le, h.ok, h.before, fun x => ?_, fun x => ?_⟩
  · show pr.InRound Ok Fails k x (s x) (Function.update st.phase p (.sending k todo (s p)) x)
    by_cases hx : x = p
    · subst hx
      rw [update_self]
      exact .sending todo hk htodo.of_cons
    · rw [update_of_ne hx]
      exact h.phase x
  · have htaken : taken k (pr.inbox k s x) (Function.update st.phase p (.sending k todo (s p)) x) =
        taken k (pr.inbox k s x) (st.phase x) := by
      by_cases hx : x = p
      · subst hx
        rw [update_self, hp]
        rfl
      · rw [update_of_ne hx]
    have hmsg := h.messages x
    show taken k (pr.inbox k s x) (Function.update st.phase p (.sending k todo (s p)) x) +
      Function.update st.queue q (pr.message k p (s p) q ::ₘ st.queue q) x +
      pr.pending k s (Function.update st.phase p (.sending k todo (s p))) x = _
    rw [htaken]
    by_cases hx : x = q
    · subst hx
      rw [update_self]
      rw [pending_cons (g := Function.update st.phase p (.sending k todo (s p))) (p := p)
        (by simp [hp, unsent]) (by simpa [unsent] using hnot)
        (fun y hy => by rw [update_of_ne hy])] at hmsg
      refine Eq.trans ?_ hmsg
      rw [add_cons, add_cons, cons_add]
    · rw [update_of_ne hx]
      refine Eq.trans (congrArg _ (pending_congr fun y => ?_)) hmsg
      by_cases hy : y = p
      · subst hy
        simp [hp, unsent, hx]
      · rw [update_of_ne hy]

end

variable {got : List M}

/-- A party that has taken `n` messages has taken all of the round. -/
theorem InRoundAll.got_eq (h : pr.InRoundAll Ok Fails k s st)
    (hp : st.phase p = .receiving k got sp) (hgot : got.length = n) :
    (got : Multiset M) = pr.inbox k s p := by
  have hmsg := h.messages p
  rw [hp, taken] at hmsg
  have hcard := congrArg Multiset.card hmsg
  rw [card_inbox, card_add, card_add, coe_card, hgot] at hcard
  have hqueue : st.queue p = 0 := card_eq_zero.mp (by omega)
  have hpending : pr.pending k s st.phase p = 0 := card_eq_zero.mp (by omega)
  rwa [hqueue, hpending, add_zero, add_zero] at hmsg

variable (hpr : pr.Predicts Ok Fails)

include hpr

/-- A party has computed its next state, or failed to. -/
theorem InRoundAll.finish (h : pr.InRoundAll Ok Fails k s st)
    (hp : st.phase p = .receiving k got (s p)) (hk : k < pr.rounds) (hgot : got.length = n) :
    pr.InRoundAll Ok Fails k s
      { st with
        phase := Function.update st.phase p (.arrive (k + 1) (pr.finish k p (s p) got)) } := by
  have hall := h.got_eq hp hgot
  cases hres : pr.finish k p (s p) got with
  | ok s' =>
    obtain ⟨hok, hfails⟩ := hpr.finish_ok k hk s h.ok p got hall s' hres
    refine h.update (.next s' hk hok hfails) ?_ ?_ fun _ _ => rfl
    · simp [unsent, Phase.arrive, hp]
    · simp [taken, Phase.arrive, hp, hall]
  | error e =>
    refine h.update (.failed e hk (hpr.finish_error k hk s h.ok p got hall e hres)) ?_ ?_
      fun _ _ => rfl
    · simp [unsent, Phase.arrive, hp]
    · simp [taken, Phase.arrive, hp, hall]

theorem InRoundAll.step (h : pr.InRoundAll Ok Fails k s st)
    {st' : State n σ M ε} (hstep : pr.Step st st') : ∃ k' s', pr.InRoundAll Ok Fails k' s' st' := by
  cases hstep with
  | pass p k' sp hp hk hall =>
    have hin := h.phase p
    rw [hp] at hin
    cases hin with
    | waiting => exact ⟨k, s, h.pass hp hk⟩
    -- the first party that passes begins the next round for all
    | next _ hk' =>
      obtain ⟨s', h'⟩ := h.next hall hk'
      exact ⟨k + 1, s', h'.pass hp hk⟩
  | leave p sp hp hall =>
    have hin := h.phase p
    rw [hp] at hin
    generalize hR : pr.rounds = R at hin
    cases hin with
    | waiting => exact ⟨k, s, h.leave (hR ▸ hp) hR.symm⟩
    | next _ hk' =>
      obtain ⟨s', h'⟩ := h.next (hR ▸ hall) hk'
      exact ⟨k + 1, s', h'.leave (hR ▸ hp) hR.symm⟩
  | put p k' q todo sp hp =>
    have hin := h.phase p
    rw [hp] at hin
    cases hin with
    | sending _ hk htodo => exact ⟨k, s, h.put hp hk htodo⟩
  | turn p k' sp hp =>
    have hin := h.phase p
    rw [hp] at hin
    cases hin with
    | sending _ hk _ =>
      refine ⟨k, s, h.update (.receiving [] hk) ?_ ?_ fun _ _ => rfl⟩
      · simp [unsent, hp]
      · simp [taken, hp]
  | get p k' got sp m rest hp hgot hm =>
    have hin := h.phase p
    rw [hp] at hin
    cases hin with
    | receiving _ hk =>
      refine ⟨k, s, h.update (.receiving (got ++ [m]) hk) ?_ ?_ fun q hq => update_of_ne hq _ _⟩
      · simp [unsent, hp]
      · simp [taken, hp, hm, ← coe_add, add_assoc]
  | finish p k' got sp hp hgot =>
    have hin := h.phase p
    rw [hp] at hin
    cases hin with
    | receiving _ hk => exact ⟨k, s, h.finish hpr hp hk hgot⟩

omit hpr

/-! ## How a run ends -/

theorem init_phase_ok (h : pr.start p = .ok sp) :
    pr.init.phase p = .waiting 0 sp := congrArg (Phase.arrive 0) h

theorem init_phase_error {e : ε} (h : pr.start p = .error e) :
    pr.init.phase p = .failed 0 e := congrArg (Phase.arrive 0) h

include hpr

/-- All have arrived at the first barrier. -/
theorem Predicts.init_inRound (h : ∀ p, ¬ Fails 0 p) :
    ∃ s, pr.InRoundAll Ok Fails 0 s pr.init := by
  have hstart : ∀ p, ∃ sp, pr.start p = .ok sp := by
    intro p
    cases hp : pr.start p with
    | ok sp => exact ⟨sp, rfl⟩
    | error e => exact absurd (hpr.start_error p e hp) (h p)
  choose s hs using hstart
  have hphase : ∀ p, pr.init.phase p = .waiting 0 (s p) := fun p => init_phase_ok (hs p)
  refine ⟨s, Nat.zero_le _, fun p => (hpr.start_ok p (s p) (hs p)).1, fun i hi p => ?_,
    fun p => ?_, fun p => ?_⟩
  · obtain rfl : i = 0 := by omega
    exact h p
  · rw [hphase p]
    exact .waiting
  · have hfilter : (Finset.univ.filter fun x => p ∈ unsent 0 (pr.init.phase x)) = Finset.univ := by
      refine Finset.filter_true_of_mem fun x _ => ?_
      rw [hphase x]
      simp [unsent]
    rw [hphase p, taken, if_pos rfl, pending, hfilter]
    simp [init, inbox]

theorem Predicts.exists_inRound (h : ∀ p, ¬ Fails 0 p)
    (hst : pr.Reachable st) : ∃ k s, pr.InRoundAll Ok Fails k s st := by
  induction hst with
  | refl => exact ⟨0, hpr.init_inRound h⟩
  | tail _ hstep ih =>
    obtain ⟨k, s, hin⟩ := ih
    exact hin.step hpr hstep

/-- If someone fails at the start, nobody passes the first barrier. -/
theorem Predicts.init_stuck (hp : Fails 0 p) : pr.Stuck pr.init := by
  have harrive : ∀ q, (∃ s, pr.init.phase q = .waiting 0 s) ∨
      ∃ e, pr.init.phase q = .failed 0 e := by
    intro q
    cases hq : pr.start q with
    | ok s => exact .inl ⟨s, init_phase_ok hq⟩
    | error e => exact .inr ⟨e, init_phase_error hq⟩
  have hlevel : pr.level (pr.init.phase p) = 0 := by
    cases hs : pr.start p with
    | ok s => exact absurd hp (hpr.start_ok p s hs).2
    | error e => rw [init_phase_error hs, level]
  intro st' hstep
  cases hstep with
  | pass q k s h hk hall | leave q s h hall =>
    have := hall p
    omega
  | put q k q' todo s h | turn q k s h | get q k got s m rest h | finish q k got s h =>
    rcases harrive q with ⟨_, hq⟩ | ⟨_, hq⟩ <;> simp [h] at hq

omit hpr

theorem InRoundAll.not_sending (hstuck : pr.Stuck st) {j : ℕ} :
    st.phase p ≠ .sending j todo sp := by
  intro hp
  cases todo with
  | nil => exact hstuck _ (.turn p j sp hp)
  | cons q todo => exact hstuck _ (.put p j q todo sp hp)

section

variable (h : pr.InRoundAll Ok Fails k s st) (hstuck : pr.Stuck st)

include h hstuck

theorem InRoundAll.not_waiting :
    st.phase p ≠ .waiting k sp := by
  intro hp
  have hall : ∀ q, k < pr.level (st.phase q) := fun q => (h.phase q).lt_level
  rcases h.le.lt_or_eq with hk | rfl
  · exact hstuck _ (.pass p k sp hp hk hall)
  · exact hstuck _ (.leave p sp hp hall)

/-- A party that still takes messages finds one, or someone has one to put. -/
theorem InRoundAll.not_receiving (hk : k < pr.rounds) : st.phase p ≠ .receiving k got sp := by
  intro hp
  have hmsg := h.messages p
  rw [hp, taken] at hmsg
  have hcard := congrArg Multiset.card hmsg
  rw [card_inbox, card_add, card_add, coe_card] at hcard
  have hlt : got.length < n := by
    refine lt_of_le_of_ne (by omega) fun hn => ?_
    exact hstuck _ (.finish p k got sp hp hn)
  have hqueue : st.queue p = 0 := by
    by_contra hne
    obtain ⟨m, hm⟩ := exists_mem_of_ne_zero hne
    obtain ⟨rest, hrest⟩ := exists_cons_of_mem hm
    exact hstuck _ (.get p k got sp m rest hp hlt hrest)
  have hpending : pr.pending k s st.phase p ≠ 0 := by
    intro hzero
    rw [hqueue, hzero] at hcard
    simp at hcard
    omega
  obtain ⟨m, hm⟩ := exists_mem_of_ne_zero hpending
  obtain ⟨q, hq, -⟩ := Multiset.mem_map.mp hm
  replace hq : p ∈ unsent k (st.phase q) := by simpa using hq
  have hin := h.phase q
  generalize hph : st.phase q = ph at hq hin
  cases hin with
  | waiting => exact h.not_waiting hstuck hph
  | sending => exact not_sending hstuck hph
  | receiving | next | failed => simp [unsent] at hq
  | done hk' => omega

/-- Where the parties are when nobody can go on: all behind the last barrier, or before the next
one, where someone has failed. -/
theorem InRoundAll.stuck :
    (∀ p, k = pr.rounds ∧ (∃ sp, st.phase p = .done sp ∧ Ok k p sp) ∧ st.queue p = 0) ∨
      k < pr.rounds ∧ (∃ p, Fails (k + 1) p) ∧
        ∀ p, st.queue p = 0 ∧ (Fails (k + 1) p → ∃ e, st.phase p = .failed (k + 1) e) ∧
          (¬ Fails (k + 1) p → ∃ sp, st.phase p = .waiting (k + 1) sp) := by
  rcases h.le.lt_or_eq with hk | hk
  · have hphase : ∀ p, (∃ sp, st.phase p = .waiting (k + 1) sp ∧ ¬ Fails (k + 1) p) ∨
        ∃ e, st.phase p = .failed (k + 1) e ∧ Fails (k + 1) p := by
      intro p
      have hin := h.phase p
      generalize hph : st.phase p = ph at hin
      cases hin with
      | waiting => exact absurd hph (h.not_waiting hstuck)
      | sending => exact absurd hph (not_sending hstuck)
      | receiving => exact absurd hph (h.not_receiving hstuck hk)
      | next sp _ _ hfails => exact .inl ⟨sp, rfl, hfails⟩
      | failed e _ hfails => exact .inr ⟨e, rfl, hfails⟩
      | done hk' => omega
    -- if no one has failed, all wait for the same barrier, and it opens
    by_cases hsome : ∃ p, Fails (k + 1) p
    · refine .inr ⟨hk, hsome, fun p => ⟨?_, fun hf => ?_, fun hf => ?_⟩⟩
      · have hmsg := h.messages p
        have htaken : taken k (pr.inbox k s p) (st.phase p) = pr.inbox k s p := by
          rcases hphase p with ⟨sp, hp, -⟩ | ⟨e, hp, -⟩
          · rw [hp, taken, if_neg (by omega)]
          · rw [hp, taken]
        rw [htaken, add_assoc, add_eq_left] at hmsg
        exact (add_eq_zero.mp hmsg).1
      · rcases hphase p with ⟨sp, hp, hnot⟩ | ⟨e, hp, -⟩
        · exact absurd hf hnot
        · exact ⟨e, hp⟩
      · rcases hphase p with ⟨sp, hp, -⟩ | ⟨e, hp, hfails⟩
        · exact ⟨sp, hp⟩
        · exact absurd hfails hf
    · refine .inl fun p => absurd hstuck fun hstuck => ?_
      have hnext : ∀ q, ∃ sq, st.phase q = .waiting (k + 1) sq := by
        intro q
        rcases hphase q with ⟨sq, hq, -⟩ | ⟨e, -, hfails⟩
        · exact ⟨sq, hq⟩
        · exact absurd ⟨q, hfails⟩ hsome
      have hall : ∀ q, k + 1 < pr.level (st.phase q) := by
        intro q
        obtain ⟨sq, hq⟩ := hnext q
        rw [hq, level]
        omega
      obtain ⟨s', h'⟩ := h.next hall hk
      obtain ⟨sp, hp⟩ := hnext p
      exact h'.not_waiting hstuck hp
  · have hphase : ∀ p, ∃ sp, st.phase p = .done sp ∧ Ok k p sp := by
      intro p
      have hin := h.phase p
      generalize hph : st.phase p = ph at hin
      cases hin with
      | waiting => exact absurd hph (h.not_waiting hstuck)
      | sending => exact absurd hph (not_sending hstuck)
      | receiving => omega
      | next => omega
      | failed => omega
      | done => exact ⟨s p, rfl, h.ok p⟩
    refine .inl fun p => ⟨hk, hphase p, ?_⟩
    have hmsg := h.messages p
    -- everything that was sent has been taken
    have hfilter : (Finset.univ.filter fun x => p ∈ unsent k (st.phase x)) = Finset.univ := by
      refine Finset.filter_true_of_mem fun x _ => ?_
      obtain ⟨sx, hx, -⟩ := hphase x
      rw [hx]
      simp [unsent]
    obtain ⟨sp, hp, -⟩ := hphase p
    rw [hp, taken, pending, hfilter, zero_add] at hmsg
    exact add_eq_right.mp hmsg

end

include hpr

theorem Predicts.done_of_stuck
    (h : ∀ k ≤ pr.rounds, ∀ p, ¬ Fails k p) (hst : pr.Reachable st) (hstuck : pr.Stuck st)
    (p : Fin n) : (∃ sp, st.phase p = .done sp ∧ Ok pr.rounds p sp) ∧ st.queue p = 0 := by
  obtain ⟨k, s, hin⟩ := hpr.exists_inRound (h 0 (Nat.zero_le _)) hst
  rcases hin.stuck hstuck with hdone | ⟨hk, ⟨q, hq⟩, -⟩
  · obtain ⟨rfl, hend⟩ := hdone p
    exact hend
  · exact absurd hq (h (k + 1) hk q)

/-- If the first failures are before barrier `j`, every run ends with the others waiting there
and all queues empty. -/
theorem Predicts.blocked_of_stuck {j : ℕ} (hj : j ≤ pr.rounds)
    (hbefore : ∀ i < j, ∀ p, ¬ Fails i p) (hsome : ∃ p, Fails j p) (hst : pr.Reachable st)
    (hstuck : pr.Stuck st) (p : Fin n) :
    st.queue p = 0 ∧ (Fails j p → ∃ e, st.phase p = .failed j e) ∧
      (¬ Fails j p → ∃ sp, st.phase p = .waiting j sp) := by
  obtain ⟨p₀, hp₀⟩ := hsome
  cases j with
  | zero =>
    have heq : st = pr.init := by
      cases hst.cases_head with
      | inl h => exact h.symm
      | inr h =>
        obtain ⟨st₁, hstep, -⟩ := h
        exact absurd hstep (hpr.init_stuck hp₀ st₁)
    subst heq
    refine ⟨rfl, fun hf => ?_, fun hf => ?_⟩
    · cases hs : pr.start p with
      | ok s => exact absurd hf (hpr.start_ok p s hs).2
      | error e => exact ⟨e, init_phase_error hs⟩
    · cases hs : pr.start p with
      | ok s => exact ⟨s, init_phase_ok hs⟩
      | error e => exact absurd (hpr.start_error p e hs) hf
  | succ j =>
    obtain ⟨k, s, hin⟩ := hpr.exists_inRound (hbefore 0 (Nat.succ_pos j)) hst
    have hkj : k < j + 1 := by
      by_contra hle
      exact hin.before (j + 1) (by omega) p₀ hp₀
    rcases hin.stuck hstuck with hdone | ⟨hk, ⟨q, hq⟩, hend⟩
    · have := (hdone p₀).1
      omega
    · have hjk : ¬ k + 1 < j + 1 := fun hlt => hbefore (k + 1) hlt q hq
      obtain rfl : k = j := by omega
      exact hend p

end Rounds

end Foundation
