import Moodist.HashMap.Erase

/-!
# `HashMap` refines a finite map

`try_emplace` grows the tables by moving every entry with `try_emplace` itself, which may grow them
again. Tables that are being filled have nothing erased from them, so a chain covers occupied slots
only.
-/

namespace Moodist.HashMap

open Foundation Slots List Finmap

universe u v

variable {κ : Type u} {ν : Type v} {value : ν}

/-! ## The loop of `reserve` -/

theorem le_grow (n k : ℕ) {bs : ℕ} (hbs : 0 < bs) (h : n ≤ bs + k) : n ≤ grow n k bs := by
  induction k generalizing bs with
  | zero => exact h
  | succ k ih =>
    rw [grow]
    split_ifs with hlt
    · exact ih (by omega) (by omega)
    · omega

theorem grow_eq_pow (n k e : ℕ) : ∃ e', e ≤ e' ∧ grow n k (2 ^ e) = 2 ^ e' := by
  induction k generalizing e with
  | zero => exact ⟨e, le_refl e, rfl⟩
  | succ k ih =>
    rw [grow]
    split_ifs
    · obtain ⟨e', he, heq⟩ := ih (e + 1)
      exact ⟨e', by omega, by rw [← heq, pow_succ]⟩
    · exact ⟨e, le_refl e, rfl⟩

/-! ## The invariant of a map -/

/-- Either nothing was ever stored and the tables are not allocated, or they are well
formed. -/
def Inv (hash : κ → UInt64) (m : HashMap κ ν) : Prop := m = {} ∨ Wf hash m

section Invariant

variable {hash : κ → UInt64} {m : HashMap κ ν} {key : κ}

theorem not_contains_empty (n : ℕ) (b : Bool) :
    ¬ Contains ({ ksize := n, allocated := b } : HashMap κ ν) key value := by
  rintro (⟨_, _, h, -⟩ | ⟨_, _, h, -⟩) <;> cases h

theorem wf_empty (hash : κ → UInt64) (e : ℕ) :
    Wf hash ({ ksize := 2 ^ e, allocated := true } : HashMap κ ν) where
  allocated := rfl
  pow := ⟨e, rfl⟩
  home h := by cases h
  chain h := by cases h
  last h := by cases h
  disjoint h := by cases h
  unique h := by cases h
  count := by simp [occupied]

theorem compact_empty (n : ℕ) (b : Bool) :
    Compact ({ ksize := n, allocated := b } : HashMap κ ν) := by
  intro k pv h
  cases h

theorem Inv.contains_iff_mem (h : Inv hash m) :
    Contains m key value ↔ (key, value) ∈ m.entries := by
  obtain rfl | h := h
  · simp [not_contains_empty, HashMap.entries, Slots.entries]
  · exact h.contains_iff_mem

theorem Inv.length_entries (h : Inv hash m) : m.entries.length = m.msize := by
  obtain rfl | h := h
  · rfl
  · exact h.length_entries

theorem Wf.nodup_entries (h : Wf hash m) : (m.entries.map Prod.fst).Nodup := by
  simp only [HashMap.entries, map_append, map_map]
  refine List.Nodup.append ?_ ?_ ?_
  · refine nodup_map_entries (fun hx hy heq => ?_) m.ksize
    rw [← h.home hx, ← h.home hy]
    exact congrArg _ heq
  · exact nodup_map_entries (fun hx hy heq => h.unique hx hy heq) m.ksize
  · intro a hp hs
    obtain ⟨pv, hpv, rfl⟩ := mem_map.1 hp
    obtain ⟨sv, hsv, heq⟩ := mem_map.1 hs
    obtain ⟨k, -, hk⟩ := mem_entries.1 hpv
    obtain ⟨j, -, hj⟩ := mem_entries.1 hsv
    exact h.disjoint hk hj heq.symm

theorem Inv.nodup_entries (h : Inv hash m) : (m.entries.map Prod.fst).Nodup := by
  obtain rfl | h := h
  · simp [HashMap.entries, Slots.entries]
  · exact h.nodup_entries

/-- The size that `reserve` asks for. -/
theorem Inv.reserveSize (h : Inv hash m) (n : ℕ) :
    ∃ e, m.reserveSize n = 2 ^ e ∧ n ≤ 2 ^ e ∧ m.ksize ≤ 2 ^ e := by
  have hbase : ∃ e, (if m.ksize = 0 then 1 else m.ksize) = 2 ^ e := by
    obtain rfl | h := h
    · exact ⟨0, rfl⟩
    · rw [if_neg h.ksize_pos.ne']
      exact h.pow
  obtain ⟨e, he⟩ := hbase
  obtain ⟨e', hle, heq⟩ := grow_eq_pow n n e
  have hpow : 2 ^ e ≤ 2 ^ e' := Nat.pow_le_pow_right (by norm_num) hle
  refine ⟨e', by rw [HashMap.reserveSize, he, heq], ?_, ?_⟩
  · rw [← heq]
    exact le_grow n n (by positivity) (by omega)
  · split_ifs at he <;> omega

/-- The entries of the secondary table lie within the chains of their home slots. -/
def Chained (hash : κ → UInt64) (m : HashMap κ ν) : Prop :=
  ∀ j sv, m.secondary j = some sv →
    ∃ pv d, m.primary (slot hash m.ksize sv.key) = some pv ∧ d < pv.size ∧
      j = (slot hash m.ksize sv.key + d) % m.ksize

theorem Inv.chained (h : Inv hash m) : Chained hash m := by
  intro j sv hj
  obtain rfl | hwf := h
  · cases hj
  · obtain ⟨hindex, hchain⟩ := hwf.chain hj
    rwa [hindex] at hchain

end Invariant

/-! ## Moving the entries into new tables -/

/-- A map with the same entries in tables that nothing was erased from. -/
structure Rebuilt (hash : κ → UInt64) (m : HashMap κ ν) (newBs : ℕ) (m' : HashMap κ ν) :
    Prop where
  wf : Wf hash m'
  compact : Compact m'
  contains : ∀ k v, Contains m' k v ↔ Contains m k v
  msize : m'.msize = m.msize
  ksize : newBs ≤ m'.ksize

/-- What the calls that move the entries have to do, on tables of at least `bs` slots with
less than `n` entries. -/
def Inserts (hash : κ → UInt64) (insert : HashMap κ ν → κ → ν → Option (Emplaced κ ν))
    (bs n : ℕ) : Prop :=
  ∀ t key value, Wf hash t → Compact t → bs ≤ t.ksize → t.msize + 1 ≤ n →
    (∀ v, ¬ Contains t key v) →
    ∃ r, insert t key value = some r ∧ Wf.Inserted hash t key value r.1 ∧ Compact r.1

section Rehash

variable {hash : κ → UInt64} {insert : HashMap κ ν → κ → ν → Option (Emplaced κ ν)}
  {bs n e : ℕ} {m t : HashMap κ ν}

theorem exists_foldlM (hins : Inserts hash insert bs n) (es : List (κ × ν))
    (hwf : Wf hash t) (hcompact : Compact t) (hbs : bs ≤ t.ksize)
    (hn : t.msize + es.length ≤ n) (hnodup : (es.map Prod.fst).Nodup)
    (habsent : ∀ x ∈ es, ∀ v, ¬ Contains t x.1 v) :
    ∃ t', es.foldlM (fun t x => (insert t x.1 x.2).map Prod.fst) t = some t' ∧
      Wf hash t' ∧ Compact t' ∧ (∀ k v, Contains t' k v ↔ (k, v) ∈ es ∨ Contains t k v) ∧
      t'.msize = t.msize + es.length ∧ bs ≤ t'.ksize := by
  induction es generalizing t with
  | nil => exact ⟨t, rfl, hwf, hcompact, by simp, rfl, hbs⟩
  | cons x es ih =>
    rw [length_cons] at hn
    rw [map_cons, nodup_cons] at hnodup
    obtain ⟨r, hr, hinserted, hcompact'⟩ := hins t x.1 x.2 hwf hcompact hbs (by omega)
      (habsent x (by simp))
    have hrest : ∀ y ∈ es, ∀ v, ¬ Contains r.1 y.1 v := by
      intro y hy v hc
      obtain ⟨heq, -⟩ | hc := (hinserted.contains _ _).1 hc
      · exact hnodup.1 (heq ▸ mem_map_of_mem hy)
      · exact habsent y (by simp [hy]) v hc
    have hsize := hinserted.msize
    obtain ⟨t', hfold, hwf', hcomp', hcontains, hmsize, hksize⟩ :=
      ih hinserted.wf hcompact' (hbs.trans hinserted.ksize) (by omega) hnodup.2 hrest
    refine ⟨t', ?_, hwf', hcomp', ?_, by rw [length_cons]; omega, hksize⟩
    · simp only [foldlM_cons, hr, Option.map_some, Option.bind_eq_bind, Option.bind_some]
      exact hfold
    · intro k v
      rw [hcontains, hinserted.contains, mem_cons, Prod.ext_iff]
      tauto

theorem exists_rehashWith (hm : Inv hash m) (hins : Inserts hash insert (2 ^ e) n)
    (hn : m.msize ≤ n) :
    ∃ m', rehashWith insert m (2 ^ e) = some m' ∧ Rebuilt hash m (2 ^ e) m' := by
  have hok : ¬ (2 ^ e &&& (2 ^ e - 1) ≠ 0 ∨ 2 ^ e = 0) := by simp
  rw [rehashWith, if_neg hok]
  have hlen := hm.length_entries
  obtain ⟨m', hfold, hwf, hcompact, hcontains, hmsize, hksize⟩ :=
    exists_foldlM hins m.entries (wf_empty hash e) (compact_empty _ _) (le_refl _)
      (by dsimp only; omega) hm.nodup_entries (fun _ _ _ => not_contains_empty _ _)
  refine ⟨m', hfold, hwf, hcompact, ?_, by dsimp only at hmsize; omega, hksize⟩
  intro k v
  rw [hcontains, hm.contains_iff_mem]
  simp [not_contains_empty]

end Rehash

/-! ## `try_emplace` ends -/

section Emplace

variable {hash : κ → UInt64} {itemSize n d bs fuel : ℕ} {m m' : HashMap κ ν} {key : κ}

theorem Roomy.mono {bs' n' : ℕ} (h : Roomy itemSize bs n) (hbs : bs ≤ bs') (hn : n' ≤ n) :
    Roomy itemSize bs' n' := by
  obtain ⟨hlarge, hhalf⟩ := h
  exact ⟨hlarge.trans hbs, by omega⟩

/-- Every size is large enough after some number of doublings. -/
theorem exists_roomy (itemSize n : ℕ) {bs : ℕ} (hbs : 0 < bs) :
    ∃ d, Roomy itemSize (bs * 2 ^ d) n := by
  have hpow : ∀ d, d ≤ bs * 2 ^ d := by
    intro d
    calc d ≤ 2 ^ d := Nat.lt_two_pow_self.le
      _ ≤ bs * 2 ^ d := Nat.le_mul_of_pos_left _ hbs
  refine ⟨1024 * 1024 * 4 / itemSize + (2 * n + 4), ?_⟩
  have hle := hpow (1024 * 1024 * 4 / itemSize + (2 * n + 4))
  exact ⟨(Nat.le_add_right _ _).trans hle, (Nat.le_add_left _ _).trans hle⟩

/-- Tables that are one size larger need one doubling less. -/
theorem Wf.roomy_reserveSize (h : Wf hash m) {k : ℕ} (hk : m.ksize < k)
    (hroomy : Roomy itemSize (m.ksize * 2 ^ (d + 1)) n) :
    Roomy itemSize (m.reserveSize k * 2 ^ d) n := by
  obtain ⟨e, heq, hle, -⟩ := Inv.reserveSize (Or.inr h) k
  obtain ⟨e₀, he₀⟩ := h.pow
  have hlt : 2 ^ e₀ < 2 ^ e := by omega
  have hexp : e₀ + 1 ≤ e := (Nat.pow_lt_pow_iff_right (by norm_num)).1 hlt
  have hdouble : m.ksize * 2 ≤ 2 ^ e := by
    rw [he₀, ← pow_succ]
    exact Nat.pow_le_pow_right (by norm_num) hexp
  rw [heq]
  refine hroomy.mono ?_ (le_refl n)
  calc m.ksize * 2 ^ (d + 1) = m.ksize * 2 * 2 ^ d := by rw [pow_succ]; ring
    _ ≤ 2 ^ e * 2 ^ d := Nat.mul_le_mul_right _ hdouble

theorem rehashWith_mono {f g : HashMap κ ν → κ → ν → Option (Emplaced κ ν)}
    (hfg : ∀ t k v r, f t k v = some r → g t k v = some r)
    (h : rehashWith f m bs = some m') : rehashWith g m bs = some m' := by
  unfold rehashWith at h ⊢
  split_ifs at h ⊢
  generalize ({ ksize := bs, allocated := true } : HashMap κ ν) = t at h ⊢
  generalize m.entries = es at h ⊢
  induction es generalizing t with
  | nil => exact h
  | cons x es ih =>
    simp only [foldlM_cons, Option.bind_eq_bind, Option.bind_eq_some_iff,
      Option.map_eq_some_iff] at h ⊢
    obtain ⟨t', ⟨r, hr, rfl⟩, hrest⟩ := h
    exact ⟨r.1, ⟨r, hfg _ _ _ _ hr, rfl⟩, ih _ hrest⟩

variable [DecidableEq κ] {r : Emplaced κ ν} {fuel' : ℕ}

/-- `try_emplace` puts a new key into tables that nothing was erased from and that are at
most `d` doublings too small for `n` entries. -/
def Fresh (ν : Type v) (hash : κ → UInt64) (itemSize n d : ℕ) : Prop :=
  ∀ (fuel : ℕ) (m : HashMap κ ν) (key : κ) (value : ν), d < fuel → Wf hash m → Compact m →
    m.msize + 1 ≤ n → Roomy itemSize (m.ksize * 2 ^ d) n → (∀ v, ¬ Contains m key v) →
    ∃ m', tryEmplace hash itemSize fuel m key value = some (m', m'.find hash key, true) ∧
      Wf.Inserted hash m key value m' ∧ Compact m'

theorem Fresh.inserts (h : Fresh ν hash itemSize n d) (hfuel : d < fuel)
    (hroomy : Roomy itemSize (bs * 2 ^ d) n) :
    Inserts (ν := ν) hash (tryEmplace hash itemSize fuel) bs n := by
  intro t key value hwf hcompact hbs hn habsent
  have hroomy' := hroomy.mono (Nat.mul_le_mul_right _ hbs) (le_refl n)
  obtain ⟨m', heq, hins, hcompact'⟩ := h _ _ _ value hfuel hwf hcompact hn hroomy' habsent
  exact ⟨_, heq, hins, hcompact'⟩

/-- Growing the tables and trying again, from the label `resize` on. -/
theorem Fresh.exists_resize (h : Fresh ν hash itemSize n d) (hfuel : d < fuel)
    (hm : Inv hash m) (hn : m.msize + 1 ≤ n) (habsent : ∀ v, ¬ Contains m key v) {k : ℕ}
    (hroomy : Roomy itemSize (m.reserveSize k * 2 ^ d) n) (value : ν) :
    ∃ m', ((rehashWith (tryEmplace hash itemSize fuel) m (m.reserveSize k)).bind fun m' =>
        tryEmplace hash itemSize fuel m' key value) =
        some (m', m'.find hash key, true) ∧
      Wf.Inserted hash m key value m' ∧ Compact m' := by
  obtain ⟨e, heq, -, hle⟩ := hm.reserveSize k
  rw [heq] at hroomy ⊢
  obtain ⟨t, ht, hre⟩ := exists_rehashWith hm (h.inserts hfuel hroomy) (by omega)
  have hmsize := hre.msize
  obtain ⟨m', hm', hins, hcompact⟩ := h _ _ _ value hfuel hre.wf hre.compact (by omega)
    (hroomy.mono (Nat.mul_le_mul_right _ hre.ksize) (le_refl n))
    (fun v hc => habsent v ((hre.contains _ _).1 hc))
  refine ⟨m', by rw [ht, Option.bind_some, hm'], ⟨hins.wf, ?_, ?_, ?_⟩, hcompact⟩
  · intro k' v
    rw [hins.contains, hre.contains]
  · rw [hins.msize, hmsize]
  · exact hle.trans (hre.ksize.trans hins.ksize)

/-- One call of `try_emplace` for a key that is not there, up to the label `resize`. -/
theorem Wf.tryEmplace_cases (h : Wf hash m) (habsent : ∀ v, ¬ Contains m key v)
    (itemSize fuel : ℕ) (value : ν) :
    (∃ m', tryEmplace hash itemSize (fuel + 1) m key value =
        some (m', m'.find hash key, true) ∧
      Wf.Inserted hash m key value m' ∧ (Compact m → Compact m')) ∨
    ∃ k, m.ksize < k ∧ (Compact m → ¬ Roomy itemSize m.ksize m.msize) ∧
      tryEmplace hash itemSize (fuel + 1) m key value =
        (rehashWith (tryEmplace hash itemSize fuel) m (m.reserveSize k)).bind fun m' =>
          tryEmplace hash itemSize fuel m' key value := by
  have hv : (m.find hash key).v = false := by
    by_contra hv
    obtain ⟨v, hc⟩ := (h.find_v_iff key).1 (by simpa using hv)
    exact habsent v hc
  rw [tryEmplace]
  simp only [h.allocated, if_true, hv, Bool.false_eq_true, if_false]
  split_ifs with hsmall
  · refine Or.inr ⟨m.msize + 1, hsmall, fun _ hroomy => ?_, rfl⟩
    have hhalf := hroomy.2
    omega
  · cases hplace : m.place itemSize (m.find hash key) key value with
    | none =>
      refine Or.inr ⟨m.ksize + 1, by omega, fun hcompact hroomy => ?_, rfl⟩
      obtain ⟨m', i, hsome⟩ := h.exists_place hcompact hroomy habsent value
      rw [hplace] at hsome
      cases hsome
    | some r =>
      obtain ⟨m', i⟩ := r
      obtain ⟨hins, rfl, hcompact⟩ := h.inserted_place (by omega) habsent hplace
      exact Or.inl ⟨m', rfl, hins, hcompact⟩

/-- The induction is on the number of doublings that are still missing. -/
theorem fresh (ν : Type v) (hash : κ → UInt64) (itemSize n d : ℕ) : Fresh ν hash itemSize n d := by
  induction d with
  | zero =>
    intro fuel m key value hfuel hwf hcompact hn hroomy habsent
    obtain ⟨fuel, rfl⟩ := Nat.exists_eq_succ_of_ne_zero hfuel.ne'
    obtain ⟨m', heq, hins, hcompact'⟩ | ⟨k, -, hno, -⟩ :=
      hwf.tryEmplace_cases habsent itemSize fuel value
    · exact ⟨m', heq, hins, hcompact' hcompact⟩
    · rw [pow_zero, mul_one] at hroomy
      exact absurd (hroomy.mono (le_refl _) (by omega)) (hno hcompact)
  | succ d ih =>
    intro fuel m key value hfuel hwf hcompact hn hroomy habsent
    obtain ⟨fuel, rfl⟩ := Nat.exists_eq_succ_of_ne_zero (by omega : fuel ≠ 0)
    obtain ⟨m', heq, hins, hcompact'⟩ | ⟨k, hk, -, heq⟩ :=
      hwf.tryEmplace_cases habsent itemSize fuel value
    · exact ⟨m', heq, hins, hcompact' hcompact⟩
    · obtain ⟨m', heq', hins, hcompact'⟩ := ih.exists_resize (Nat.lt_of_succ_lt_succ hfuel)
        (Or.inr hwf) hn habsent (hwf.roomy_reserveSize hk hroomy) value
      exact ⟨m', heq.trans heq', hins, hcompact'⟩

/-- `try_emplace` of a key that is not there. -/
theorem Inv.exists_tryEmplace (h : Inv hash m) (habsent : ∀ v, ¬ Contains m key v)
    (itemSize : ℕ) (value : ν) :
    ∃ fuel m', tryEmplace hash itemSize fuel m key value =
        some (m', m'.find hash key, true) ∧ Wf.Inserted hash m key value m' := by
  obtain rfl | hwf := h
  · obtain ⟨d, hroomy⟩ := exists_roomy itemSize 1
      (show 0 < HashMap.reserveSize ({} : HashMap κ ν) 16 from Nat.succ_pos 15)
    obtain ⟨m', heq, hins, -⟩ := (fresh ν hash itemSize 1 d).exists_resize
      (Nat.lt_succ_self d) (Or.inl rfl) (le_refl 1) habsent hroomy value
    exact ⟨d + 2, m', heq, hins⟩
  · obtain ⟨d, hroomy⟩ := exists_roomy itemSize (m.msize + 1) hwf.ksize_pos
    have hmore : Roomy itemSize (m.ksize * 2 ^ (d + 1)) (m.msize + 1) :=
      hroomy.mono (Nat.mul_le_mul_left _ (Nat.pow_le_pow_right (by norm_num) (by omega)))
        (le_refl _)
    obtain ⟨m', heq, hins, -⟩ | ⟨k, hk, -, heq⟩ :=
      hwf.tryEmplace_cases habsent itemSize (d + 1) value
    · exact ⟨d + 2, m', heq, hins⟩
    · obtain ⟨m', heq', hins, -⟩ := (fresh ν hash itemSize (m.msize + 1) d).exists_resize
        (Nat.lt_succ_self d) (Or.inr hwf) (le_refl _) habsent
        (hwf.roomy_reserveSize hk hmore) value
      exact ⟨d + 2, m', heq.trans heq', hins⟩

/-- `try_emplace` of a key that is there. -/
theorem Wf.tryEmplace_of_contains (h : Wf hash m) {old : ν} (hc : Contains m key old)
    (itemSize fuel : ℕ) (value : ν) :
    tryEmplace hash itemSize (fuel + 1) m key value = some (m, m.find hash key, false) := by
  rw [tryEmplace]
  simp only [h.allocated, if_true, (h.find_v_iff key).2 ⟨old, hc⟩]

theorem Inv.exists_rehash (h : Inv hash m) (itemSize e : ℕ) :
    ∃ fuel m', rehash hash itemSize fuel m (2 ^ e) = some m' ∧ Rebuilt hash m (2 ^ e) m' := by
  obtain ⟨d, hroomy⟩ := exists_roomy itemSize m.msize (show 0 < 2 ^ e by positivity)
  have hins := (fresh ν hash itemSize m.msize d).inserts (Nat.lt_succ_self d) hroomy
  obtain ⟨m', heq, hre⟩ := exists_rehashWith h hins (le_refl _)
  exact ⟨d + 1, m', heq, hre⟩

/-! ## More fuel gives the same result -/

theorem tryEmplace_succ (fuel : ℕ) {m : HashMap κ ν} {key : κ}
    (h : tryEmplace hash itemSize fuel m key value = some r) :
    tryEmplace hash itemSize (fuel + 1) m key value = some r := by
  induction fuel generalizing m key value r with
  | zero => cases h
  | succ fuel ih =>
    have hresize : ∀ k, ((rehashWith (tryEmplace hash itemSize fuel) m (m.reserveSize k)).bind
          fun m' => tryEmplace hash itemSize fuel m' key value) = some r →
        ((rehashWith (tryEmplace hash itemSize (fuel + 1)) m (m.reserveSize k)).bind
          fun m' => tryEmplace hash itemSize (fuel + 1) m' key value) = some r := by
      intro k hk
      obtain ⟨m', hm', hr⟩ := Option.bind_eq_some_iff.1 hk
      exact Option.bind_eq_some_iff.2 ⟨m', rehashWith_mono (fun _ _ _ _ => ih) hm', ih hr⟩
    rw [tryEmplace] at h ⊢
    simp only at h ⊢
    split_ifs at h ⊢
    · exact h
    · exact hresize _ h
    · cases hplace : m.place itemSize (m.find hash key) key value with
      | some r' => simpa only [hplace] using h
      | none =>
        simp only [hplace] at h ⊢
        exact hresize _ h
    · exact hresize _ h

theorem tryEmplace_mono (hle : fuel ≤ fuel')
    (h : tryEmplace hash itemSize fuel m key value = some r) :
    tryEmplace hash itemSize fuel' m key value = some r := by
  induction fuel', hle using Nat.le_induction with
  | base => exact h
  | succ fuel' _ ih => exact tryEmplace_succ fuel' ih

theorem step_mono (hle : fuel ≤ fuel') {op : Op κ ν}
    (h : step hash itemSize fuel m op = some m') : step hash itemSize fuel' m op = some m' := by
  have hrehash : ∀ k, rehash hash itemSize fuel m k = some m' →
      rehash hash itemSize fuel' m k = some m' := fun k hk =>
    rehashWith_mono (fun _ _ _ _ => tryEmplace_mono hle) hk
  cases op with
  | find key => exact h
  | tryEmplace key value | assign key initial value =>
    obtain ⟨r, hr, rfl⟩ := Option.map_eq_some_iff.1 h
    exact Option.map_eq_some_iff.2 ⟨r, tryEmplace_mono hle hr, rfl⟩
  | erase key => exact h
  | reserve k =>
    simp only [step, reserve] at h ⊢
    split_ifs at h ⊢
    · exact h
    · exact hrehash _ h
  | rehash k => exact hrehash k h

end Emplace

/-! ## The finite map -/

section Refinement

variable [DecidableEq κ] {hash : κ → UInt64} {itemSize fuel : ℕ} {m m' : HashMap κ ν}
  {A : Finmap fun _ : κ => ν} {op : Op κ ν} {ops : List (Op κ ν)}

def apply (A : Finmap fun _ : κ => ν) : Op κ ν → Finmap fun _ : κ => ν
  | .tryEmplace key value => if key ∈ A then A else A.insert key value
  | .assign key _ value => A.insert key value
  | .erase key => A.erase key
  | .find _ | .reserve _ | .rehash _ => A

/-- What a sequence of operations leaves in a finite map that starts empty. -/
def contents (ops : List (Op κ ν)) : Finmap fun _ : κ => ν :=
  ops.foldl apply ∅

/-- An operation that does not ask `rehash` for a size it refuses. -/
def Op.Sized (op : Op κ ν) : Prop := ∀ n, op = .rehash n → ∃ e, n = 2 ^ e

/-- The map holds what the finite map holds. -/
structure Refines (hash : κ → UInt64) (m : HashMap κ ν) (A : Finmap fun _ : κ => ν) :
    Prop where
  inv : Inv hash m
  contains : ∀ k v, Contains m k v ↔ A.lookup k = some v
  msize : m.msize = A.keys.card

theorem refines_empty (hash : κ → UInt64) :
    Refines hash ({} : HashMap κ ν) (∅ : Finmap fun _ : κ => ν) where
  inv := Or.inl rfl
  contains k v := by simp [not_contains_empty]
  msize := by simp

theorem Refines.mem_iff (h : Refines hash m A) (key : κ) :
    key ∈ A ↔ ∃ value, Contains m key value := by
  rw [← lookup_isSome, Option.isSome_iff_exists]
  exact exists_congr fun value => (h.contains key value).symm

theorem lookup_insert_iff (A : Finmap fun _ : κ => ν) (key : κ) (value : ν) (k : κ) (v : ν) :
    (A.insert key value).lookup k = some v ↔
      k = key ∧ v = value ∨ A.lookup k = some v ∧ k ≠ key := by
  by_cases hk : k = key
  · subst hk
    simp [lookup_insert, eq_comm]
  · simp [lookup_insert_of_ne _ hk, hk]

theorem keys_insert (A : Finmap fun _ : κ => ν) (key : κ) (value : ν) :
    (A.insert key value).keys = insert key A.keys := by
  ext k
  simp [Finmap.mem_keys]

variable {key : κ}

section

variable (h : Refines hash m A)

include h

theorem Refines.insert (hkey : key ∉ A) (hins : Wf.Inserted hash m key value m') :
    Refines hash m' (A.insert key value) where
  inv := Or.inr hins.wf
  contains k v := by
    rw [hins.contains, lookup_insert_iff, h.contains]
    constructor
    · rintro (hnew | hold)
      · exact Or.inl hnew
      · refine Or.inr ⟨hold, ?_⟩
        rintro rfl
        exact hkey (mem_of_lookup_eq_some hold)
    · rintro (hnew | ⟨hold, -⟩)
      · exact Or.inl hnew
      · exact Or.inr hold
  msize := by
    rw [hins.msize, h.msize, keys_insert, Finset.card_insert_of_notMem (by rwa [Finmap.mem_keys])]

theorem Refines.erase (hkey : key ∈ A) (her : Wf.Erased hash m key m') :
    Refines hash m' (A.erase key) where
  inv := Or.inr her.wf
  contains k v := by
    rw [her.contains, h.contains]
    by_cases hk : k = key
    · subst hk
      simp [lookup_erase]
    · simp [lookup_erase_ne hk, hk]
  msize := by
    have hpos : 0 < A.keys.card := Finset.card_pos.2 ⟨key, mem_keys.2 hkey⟩
    have hmsize := her.msize
    have hold := h.msize
    rw [keys_erase, Finset.card_erase_of_mem (mem_keys.2 hkey)]
    omega

theorem Refines.rebuilt {newBs : ℕ} (hre : Rebuilt hash m newBs m') : Refines hash m' A where
  inv := Or.inr hre.wf
  contains k v := by rw [hre.contains, h.contains]
  msize := by rw [hre.msize, h.msize]

theorem Refines.write (hkey : key ∈ A) (value : ν) :
    Refines hash (m.write (m.find hash key) value) (A.insert key value) := by
  obtain ⟨old, hc⟩ := (h.mem_iff key).1 hkey
  obtain rfl | hwf := h.inv
  · exact absurd hc (not_contains_empty _ _)
  obtain ⟨old', hat⟩ := hwf.at_find ((hwf.find_v_iff key).2 ⟨old, hc⟩)
  obtain ⟨hwf', hcontains, hmsize⟩ := hwf.write hat value
  refine ⟨Or.inr hwf', fun k v => ?_, ?_⟩
  · rw [hcontains, lookup_insert_iff, h.contains]
  · rw [hmsize, h.msize, keys_insert, Finset.insert_eq_of_mem (mem_keys.2 hkey)]

/-- `try_emplace`, with the iterator it returns. -/
theorem Refines.exists_tryEmplace (itemSize : ℕ) (key : κ) (value : ν) :
    ∃ fuel m' b, tryEmplace hash itemSize fuel m key value =
        some (m', m'.find hash key, b) ∧
      Refines hash m' (apply A (.tryEmplace key value)) := by
  simp only [apply]
  split_ifs with hkey
  · obtain ⟨old, hc⟩ := (h.mem_iff key).1 hkey
    obtain rfl | hwf := h.inv
    · exact absurd hc (not_contains_empty _ _)
    exact ⟨1, m, false, hwf.tryEmplace_of_contains hc itemSize 0 value, h⟩
  · have habsent : ∀ v, ¬ Contains m key v := fun v hc => hkey ((h.mem_iff key).2 ⟨v, hc⟩)
    obtain ⟨fuel, m', heq, hins⟩ := h.inv.exists_tryEmplace habsent itemSize value
    exact ⟨fuel, m', true, heq, h.insert hkey hins⟩

theorem Refines.exists_rehash (itemSize e : ℕ) :
    ∃ fuel m', rehash hash itemSize fuel m (2 ^ e) = some m' ∧ Refines hash m' A := by
  obtain ⟨fuel, m', heq, hre⟩ := h.inv.exists_rehash itemSize e
  exact ⟨fuel, m', heq, h.rebuilt hre⟩

theorem Refines.exists_erase (key : κ) :
    ∃ m', m.erase hash key = some m' ∧ Refines hash m' (A.erase key) := by
  have hsame : key ∉ A → A.erase key = A := by
    intro hkey
    refine ext_lookup fun k => ?_
    by_cases hk : k = key
    · subst hk
      rw [lookup_erase, lookup_eq_none.2 hkey]
    · rw [lookup_erase_ne hk]
  obtain rfl | hwf := h.inv
  · refine ⟨_, rfl, ?_⟩
    rw [hsame fun hkey => ?_]
    · exact h
    · obtain ⟨v, hc⟩ := (h.mem_iff key).1 hkey
      exact not_contains_empty _ _ hc
  obtain ⟨m', heq, ⟨hc, her⟩ | ⟨rfl, habsent⟩⟩ := hwf.exists_erase key
  · exact ⟨m', heq, h.erase ((h.mem_iff key).2 hc) her⟩
  · refine ⟨m', heq, ?_⟩
    rw [hsame fun hkey => ?_]
    · exact h
    · obtain ⟨v, hc⟩ := (h.mem_iff key).1 hkey
      exact habsent v hc

/-- One operation, with enough fuel. -/
theorem Refines.exists_step (itemSize : ℕ) (hop : op.Sized) :
    ∃ fuel m', step hash itemSize fuel m op = some m' ∧ Refines hash m' (apply A op) := by
  cases op with
  | find key => exact ⟨0, m, rfl, h⟩
  | tryEmplace key value =>
    obtain ⟨fuel, m', b, heq, hm'⟩ := h.exists_tryEmplace itemSize key value
    exact ⟨fuel, m', by rw [step, heq]; rfl, hm'⟩
  | assign key initial value =>
    obtain ⟨fuel, m', b, heq, hm'⟩ := h.exists_tryEmplace itemSize key initial
    have hkey : key ∈ apply A (.tryEmplace key initial) := by
      simp only [apply]
      split_ifs with hmem
      · exact hmem
      · exact mem_insert.2 (Or.inl rfl)
    have hwrite := hm'.write hkey value
    have hinsert : (apply A (.tryEmplace key initial)).insert key value =
        A.insert key value := by
      simp only [apply]
      split_ifs
      · rfl
      · exact insert_insert A
    rw [hinsert] at hwrite
    exact ⟨fuel, _, by rw [step, heq]; rfl, hwrite⟩
  | erase key =>
    obtain ⟨m', heq, hm'⟩ := h.exists_erase key
    exact ⟨0, m', heq, hm'⟩
  | reserve n =>
    by_cases hn : (2 ^ 64 - 1) / 2 ≤ n
    · exact ⟨0, m, by rw [step, reserve, if_pos hn], h⟩
    · obtain ⟨e, heq, -⟩ := h.inv.reserveSize n
      obtain ⟨fuel, m', hre, hm'⟩ := h.exists_rehash itemSize e
      exact ⟨fuel, m', by rw [step, reserve, if_neg hn, heq, hre], hm'⟩
  | rehash n =>
    obtain ⟨e, rfl⟩ := hop n rfl
    exact h.exists_rehash itemSize e

end

/-- A sequence of operations, with enough fuel. -/
theorem exists_run (hash : κ → UInt64) (itemSize : ℕ) (ops : List (Op κ ν))
    (hops : ∀ op ∈ ops, op.Sized) :
    ∃ fuel m, (∀ fuel' ≥ fuel, run hash itemSize fuel' ops = some m) ∧
      Refines hash m (contents ops) := by
  induction ops using List.reverseRecOn with
  | nil => exact ⟨0, {}, fun _ _ => rfl, refines_empty hash⟩
  | append_singleton ops op ih =>
    obtain ⟨fuel, m, hrun, hm⟩ := ih fun op hop => hops op (by simp [hop])
    obtain ⟨fuel', m', hstep, hm'⟩ := hm.exists_step itemSize (hops op (by simp))
    refine ⟨max fuel fuel', m', fun k hk => ?_, ?_⟩
    · have hprev := hrun k (le_of_max_le_left hk)
      have hnext := step_mono (le_of_max_le_right hk) hstep
      rw [run] at hprev ⊢
      rw [foldlM_append, hprev]
      simp [hnext]
    · rw [contents, foldl_append]
      exact hm'

/-- `rehash` returns for powers of two only. -/
theorem sized_of_step (h : step hash itemSize fuel m op = some m') : op.Sized := by
  rintro n rfl
  simp only [step, rehash, rehashWith] at h
  split_ifs at h with hn
  push Not at hn
  obtain ⟨e, he⟩ := (Nat.and_sub_one_eq_zero_iff_isPowerOfTwo hn.2).1 hn.1
  exact ⟨e, he⟩

/-- Every map that a sequence of operations leaves keeps the invariant. -/
theorem inv_of_run (h : run hash itemSize fuel ops = some m) : Inv hash m := by
  suffices hall : ∀ (t : HashMap κ ν) (A : Finmap fun _ : κ => ν), Refines hash t A →
      ops.foldlM (step hash itemSize fuel) t = some m → Inv hash m from
    hall {} ∅ (refines_empty hash) h
  clear h
  induction ops with
  | nil =>
    intro t A ht h
    cases h
    exact ht.inv
  | cons op ops ih =>
    intro t A ht h
    obtain ⟨t', hstep, hrest⟩ := Option.bind_eq_some_iff.1 h
    -- with more fuel the operation gives the same, and then it is known what
    obtain ⟨fuel', t'', hstep', ht'⟩ := ht.exists_step itemSize (sized_of_step hstep)
    have hmax := step_mono (le_max_left fuel fuel') hstep
    rw [step_mono (le_max_right fuel fuel') hstep', Option.some.injEq] at hmax
    exact ih t' _ (hmax ▸ ht') hrest

/-- What `find` gives, whether or not the tables are allocated. -/
theorem Inv.get_eq_some_iff (h : Inv hash m) :
    m.get hash key = some value ↔ Contains m key value := by
  obtain rfl | hwf := h
  · simp [get, find, entry, end', not_contains_empty]
  · exact hwf.get_eq_some_iff

/-- Every sequence of operations ends, and leaves a map in which `find` gives for each key
what a finite map would hold. -/
theorem run_refines (hash : κ → UInt64) (itemSize : ℕ) (ops : List (Op κ ν))
    (hops : ∀ n, Op.rehash n ∈ ops → ∃ e, n = 2 ^ e) :
    ∃ fuel m, (∀ fuel' ≥ fuel, run hash itemSize fuel' ops = some m) ∧
      (∀ key, m.get hash key = (contents ops).lookup key) ∧
      m.msize = (contents ops).keys.card ∧ Chained hash m := by
  obtain ⟨fuel, m, hrun, hm⟩ := exists_run hash itemSize ops
    (fun op hop n heq => hops n (heq ▸ hop))
  refine ⟨fuel, m, hrun, fun key => ?_, hm.msize, hm.inv.chained⟩
  ext value
  rw [hm.inv.get_eq_some_iff, hm.contains]

theorem run_refines_three :
    ∃ fuel m, (∀ fuel' ≥ fuel, run (fun _ : ℕ => 0) 24 fuel'
        [.tryEmplace 1 10, .assign 2 0 20, .rehash 64, .erase 1] = some m) ∧
      (∀ key, m.get (fun _ => 0) key = (contents
        [.tryEmplace 1 10, .assign 2 0 20, .rehash 64, .erase 1]).lookup key) ∧
      m.msize = (contents
        [.tryEmplace 1 10, .assign 2 (0 : ℕ) 20, .rehash 64, .erase 1]).keys.card ∧
      Chained (fun _ => 0) m :=
  run_refines _ 24 _ (by
    intro n hn
    exact ⟨6, by simpa using hn⟩)

/-- `rehash` aborts for a size that is not a power of two. -/
theorem run_rehash_three (fuel : ℕ) :
    run (fun _ : ℕ => 0) 24 fuel [(.rehash 3 : Op ℕ ℕ)] = none := by
  simp [run, step, rehash, rehashWith]

theorem not_run_rehash_three :
    ¬ ∃ fuel m, ∀ fuel' ≥ fuel, run (fun _ : ℕ => 0) 24 fuel' [(.rehash 3 : Op ℕ ℕ)] = some m := by
  rintro ⟨fuel, m, h⟩
  have hsome := h fuel (le_refl fuel)
  rw [run_rehash_three] at hsome
  cases hsome

end Refinement

end Moodist.HashMap
