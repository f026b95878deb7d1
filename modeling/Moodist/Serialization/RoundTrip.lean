import Moodist.Serialization.Defs

/-!
# When the serializer reads back what it wrote

Writing always goes through the free `serialize` overloads. Reading does too, except where the
built-in `read` copies a trivially copyable object: among several arguments of one call, for the
elements of a vector and for the keys and mapped values of a map. There a `std::optional` or a
`std::variant` of trivially copyable types is written in one format and read in another.
-/

namespace Serialization

open Foundation List Bool Value Misreads Reads

/-! ## What is written -/

mutual

def pieces : Value → List (List UInt8)
  | .scalar bytes => [bytes]
  | .string bytes => [toLE 8 bytes.length, bytes]
  | .tuple vs => piecesAll vs
  | .absent => [[0]]
  | .present v => [1] :: pieces v
  | .alternative index v => toLE 8 index :: pieces v
  | .valueless => []
  | .vector vs => toLE 8 vs.length :: piecesAll vs
  | .map es => toLE 8 es.length :: piecesAll es

def piecesAll : List Value → List (List UInt8)
  | [] => []
  | v :: vs => pieces v ++ piecesAll vs

end

def encode (v : Value) : List UInt8 := (pieces v).flatten

def encodeAll (vs : List Value) : List UInt8 := vs.flatMap encode

theorem flatten_piecesAll (vs : List Value) : (piecesAll vs).flatten = encodeAll vs := by
  induction vs with
  | nil => rfl
  | cons v vs ih =>
    show (pieces v ++ piecesAll vs).flatten = _
    rw [flatten_append, ih]
    rfl

@[simp] theorem encodeAll_nil : encodeAll [] = [] := rfl

@[simp] theorem encodeAll_cons (v : Value) (vs : List Value) :
    encodeAll (v :: vs) = encode v ++ encodeAll vs := flatMap_cons

@[simp] theorem encode_scalar (bytes : List UInt8) : encode (.scalar bytes) = bytes := by
  show [bytes].flatten = bytes
  simp

@[simp] theorem encode_string (bytes : List UInt8) :
    encode (.string bytes) = toLE 8 bytes.length ++ bytes := by
  show [toLE 8 bytes.length, bytes].flatten = _
  simp

@[simp] theorem encode_tuple (vs : List Value) : encode (.tuple vs) = encodeAll vs :=
  flatten_piecesAll vs

@[simp] theorem encode_present (v : Value) : encode (.present v) = [1] ++ encode v := rfl

@[simp] theorem encode_alternative (index : ℕ) (v : Value) :
    encode (.alternative index v) = toLE 8 index ++ encode v := rfl

@[simp] theorem encode_vector (vs : List Value) :
    encode (.vector vs) = toLE 8 vs.length ++ encodeAll vs := by
  show toLE 8 vs.length ++ (piecesAll vs).flatten = _
  rw [flatten_piecesAll]

@[simp] theorem encode_map (es : List Value) :
    encode (.map es) = toLE 8 es.length ++ encodeAll es := by
  show toLE 8 es.length ++ (piecesAll es).flatten = _
  rw [flatten_piecesAll]

section Writing

variable {σ : Type} (write : σ → List UInt8 → σ)

theorem serializeAll_eq {vs : List Value}
    (h : ∀ v ∈ vs, ∀ s, serialize write v s = (pieces v).foldl write s) (s : σ) :
    serializeAll write vs s = (piecesAll vs).foldl write s := by
  induction vs generalizing s with
  | nil => rfl
  | cons v vs ih =>
    obtain ⟨hv, hvs⟩ := forall_mem_cons.mp h
    show serializeAll write vs (serialize write v s) = (pieces v ++ piecesAll vs).foldl write s
    rw [foldl_append, hv, ih hvs]

theorem serialize_eq (v : Value) (s : σ) : serialize write v s = (pieces v).foldl write s := by
  induction v using induct generalizing s with
  | scalar bytes => rfl
  | string bytes => rfl
  | tuple vs ih => exact serializeAll_eq write ih s
  | absent => rfl
  | present v ih | alternative index v ih => exact ih _
  | valueless => rfl
  | vector vs ih | map es ih => exact serializeAll_eq write ih _

theorem foldl_writeSize (ps : List (List UInt8)) (n : ℕ) :
    ps.foldl writeSize n = n + ps.flatten.length := by
  induction ps generalizing n with
  | nil => rfl
  | cons p ps ih => rw [foldl_cons, ih, writeSize, flatten_cons, length_append, Nat.add_assoc]

theorem foldl_writeBytes (ps : List (List UInt8)) (done rest : List UInt8)
    (h : rest.length = ps.flatten.length) :
    ps.foldl writeBytes (done ++ rest, done.length) =
      (done ++ ps.flatten, done.length + ps.flatten.length) := by
  induction ps generalizing done rest with
  | nil =>
    obtain rfl := length_eq_zero_iff.mp h
    rfl
  | cons p ps ih =>
    rw [flatten_cons, length_append] at h
    have hwrite : writeBytes (done ++ rest, done.length) p =
        ((done ++ p) ++ rest.drop p.length, (done ++ p).length) := by
      simp [writeBytes, drop_append]
    rw [foldl_cons, hwrite, ih (done ++ p) (rest.drop p.length) (by simp [h])]
    simp [Nat.add_assoc]

/-- The two passes agree: the buffer holds the bytes of the values. -/
theorem serializeToBuffer_eq (vs : List Value) : serializeToBuffer vs = encodeAll vs := by
  have hsize : serializeAll writeSize vs 0 = (encodeAll vs).length := by
    rw [serializeAll_eq writeSize (fun v _ s => serialize_eq writeSize v s), foldl_writeSize,
      flatten_piecesAll, Nat.zero_add]
  have hwrite := foldl_writeBytes (piecesAll vs) [] (List.replicate (encodeAll vs).length 0)
    (by rw [flatten_piecesAll, length_replicate])
  rw [serializeToBuffer, hsize, serializeAll_eq writeBytes fun v _ s => serialize_eq writeBytes v s]
  simpa [flatten_piecesAll] using congrArg Prod.fst hwrite

end Writing

/-! ## The types that are safe -/

mutual

def Ty.wellFormed : Ty → Bool
  | .scalar size _ => decide (0 < size)
  | .string => true
  | .tuple ts => !ts.isEmpty && allWellFormed ts
  | .optional t => t.wellFormed
  | .variant ts => !ts.isEmpty && decide (ts.length < 2 ^ 64) && allWellFormed ts
  | .vector t => t.wellFormed
  | .map key mapped => key.wellFormed && mapped.wellFormed

def allWellFormed : List Ty → Bool
  | [] => true
  | t :: ts => t.wellFormed && allWellFormed ts

end

/-- A trivially copyable `std::optional` or `std::variant`. -/
def Ty.trivialContainer : Ty → Bool
  | .scalar _ _ => false
  | t => t.triviallyCopyable

mutual

/-- No trivial container inside the type is copied whole when it is read as one argument. -/
def Ty.safe : Ty → Bool
  | .scalar _ _ => true
  | .string => true
  | .tuple ts => safeCall ts
  | .optional t => t.safe
  | .variant ts => allSafe ts
  | .vector t => !t.trivialContainer && t.safe
  | .map key mapped =>
    (!key.trivialContainer && key.safe) && (!mapped.trivialContainer && mapped.safe)

def allSafe : List Ty → Bool
  | [] => true
  | t :: ts => t.safe && allSafe ts

/-- The same for the arguments of one call. A last argument after one that is not trivially
copyable is read by itself. -/
def safeCall : List Ty → Bool
  | [] => true
  | t :: ts =>
    if ts.isEmpty then t.safe
    else if t.triviallyCopyable then !t.trivialContainer && safeCopy ts
    else t.safe && safeCall ts

def safeCopy : List Ty → Bool
  | [] => true
  | t :: ts =>
    if t.triviallyCopyable then !t.trivialContainer && safeCopy ts else t.safe && safeCall ts

end

variable {ts : List Ty}

theorem allWellFormed_iff : allWellFormed ts = true ↔ ∀ t ∈ ts, t.wellFormed = true := by
  induction ts with
  | nil => simp [allWellFormed]
  | cons t ts ih => simp [allWellFormed, ih]

variable {t : Ty}

theorem exists_scalar (ht : t.triviallyCopyable = true) (hc : t.trivialContainer = false) :
    ∃ size align, t = .scalar size align := by
  cases t with
  | scalar size align => exact ⟨size, align, rfl⟩
  | optional t | variant ts => exact absurd (hc.symm.trans ht) false_ne_true
  | string | tuple _ | vector _ | map _ _ => simp [Ty.triviallyCopyable] at ht

/-! ## Safe types are read back -/

theorem reads_size {n : ℕ} (h : n < 2 ^ 64) : Reads readSize (toLE 8 n) n := by
  have htake := (take eod (toLE 8 n)).map ofLE
  rwa [length_toLE, ofLE_toLE (by norm_num; exact h)] at htake

variable {v : Value} {size align : ℕ} {bs : List UInt8}

theorem reads_scalar (h : (Ty.scalar size align).Holds v) :
    Reads (Ty.scalar size align).readTrivial (encode v) v := by
  cases v with
  | scalar bytes =>
    obtain rfl : bytes.length = size := h
    have htake := (take eod bytes).map (Ty.scalar bytes.length align).load
    rw [Ty.load, take_length] at htake
    rw [encode_scalar]
    exact htake
  | _ => exact h.elim

theorem reads_ensure {α : Type} {r : Reader SerializationError α} {a : α} {n : ℕ}
    (h : Reads r bs a) (hn : n ≤ bs.length) : Reads (do ensure n; r) bs a := by
  intro rest
  have hensure : (ensure n).run (bs ++ rest) = .ok ((), bs ++ rest) :=
    if_neg (by rw [length_append]; omega)
  rw [StateT.run_bind, hensure]
  exact h rest

variable {vs : List Value} {readKey readMapped : Reader SerializationError Value}

/-- The scalars at the front of a call are all there. -/
theorem trivialBytes_le (hs : safeCopy ts = true) (h : HoldsAll ts vs) :
    trivialBytes ts ≤ (encodeAll vs).length := by
  induction ts generalizing vs with
  | nil => exact Nat.zero_le _
  | cons t ts ih =>
    cases vs with
    | nil => exact h.elim
    | cons v vs =>
      obtain ⟨hv, hvs⟩ := h
      rw [trivialBytes]
      split
      · next ht =>
        rw [safeCopy, if_pos ht, and_eq_true, Bool.not_eq_true'] at hs
        obtain ⟨size, align, rfl⟩ := exists_scalar ht hs.1
        cases v with
        | scalar bytes =>
          have hsize : bytes.length = size := hv
          have hrest := ih hs.2 hvs
          simp only [Ty.size, encodeAll_cons, encode_scalar, length_append]
          omega
        | _ => exact hv.elim
      · exact Nat.zero_le _

def Ty.ReadsBack (t : Ty) : Prop := ∀ v, t.Holds v → Reads t.read (encode v) v

theorem readsBack_call (h : ∀ t ∈ ts, t.safe = true → t.ReadsBack) (hvs : HoldsAll ts vs) :
    (safeCall ts = true → Reads (readMany ts) (encodeAll vs) vs) ∧
      (safeCopy ts = true → Reads (trivialCopy ts) (encodeAll vs) vs) := by
  induction ts generalizing vs with
  | nil =>
    cases vs with
    | nil =>
      rw [readMany, trivialCopy]
      exact ⟨fun _ => pure [], fun _ => pure []⟩
    | cons v vs => exact hvs.elim
  | cons t ts ih =>
    cases vs with
    | nil => exact hvs.elim
    | cons v vs =>
      obtain ⟨hv, hvs⟩ := hvs
      obtain ⟨ht, hts⟩ := forall_mem_cons.mp h
      obtain ⟨hmany, hcopy⟩ := ih hts hvs
      rw [encodeAll_cons]
      constructor
      · intro hs
        have hs' := hs
        rw [safeCall] at hs
        rw [readMany]
        split at hs
        · next hnil =>
          obtain rfl : ts = [] := isEmpty_iff.mp hnil
          cases vs with
          | nil => exact (ht hs v hv).bind (pure [v])
          | cons v' vs => exact hvs.elim
        · next hne =>
          rw [if_neg hne]
          split at hs
          -- the bytes of all trivial types that follow are checked for at once
          · next htc =>
            rw [and_eq_true, Bool.not_eq_true'] at hs
            obtain ⟨size, align, rfl⟩ := exists_scalar htc hs.1
            rw [if_pos htc]
            refine reads_ensure ((reads_scalar hv).cons (hcopy hs.2)) ?_
            rw [← encodeAll_cons]
            refine trivialBytes_le ?_ ⟨hv, hvs⟩
            rw [safeCopy, if_pos htc, and_eq_true, Bool.not_eq_true']
            exact hs
          · next htc =>
            rw [if_neg htc]
            rw [and_eq_true] at hs
            exact (ht hs.1 v hv).cons (hmany hs.2)
      · intro hs
        rw [safeCopy] at hs
        rw [trivialCopy]
        split at hs
        · next htc =>
          rw [and_eq_true, Bool.not_eq_true'] at hs
          obtain ⟨size, align, rfl⟩ := exists_scalar htc hs.1
          rw [if_pos htc]
          exact (reads_scalar hv).cons (hcopy hs.2)
        · next htc =>
          rw [if_neg htc]
          rw [and_eq_true] at hs
          exact (ht hs.1 v hv).cons (hmany hs.2)

theorem reads_at (h : ∀ t ∈ ts, t.ReadsBack) {i : ℕ} (hv : HoldsAt ts i v) (index : ℕ)
    (unchanged : Value) :
    Reads (readAt ts i index unchanged) (encode v) (.alternative index v) := by
  induction ts generalizing i with
  | nil => exact hv.elim
  | cons t ts ih =>
    obtain ⟨ht, hts⟩ := forall_mem_cons.mp h
    cases i with
    | zero =>
      rw [readAt]
      exact (ht v hv).map _
    | succ i =>
      rw [readAt]
      exact ih hts hv

theorem lt_of_holdsAt {i : ℕ} (h : HoldsAt ts i v) : i < ts.length := by
  induction ts generalizing i with
  | nil => exact h.elim
  | cons t ts ih =>
    cases i with
    | zero => exact Nat.zero_lt_succ _
    | succ i => exact Nat.succ_lt_succ (ih h)

theorem loadArray_succ (t : Ty) (n : ℕ) (bs : List UInt8) :
    loadArray t (n + 1) bs = t.load (bs.take t.size) :: loadArray t n (bs.drop t.size) := by
  rw [loadArray, range_succ_eq_map, map_cons, map_map, loadArray]
  congr 1
  · simp
  · apply map_congr_left
    intro i _
    simp only [Function.comp_apply, drop_drop]
    congr 3
    rw [Nat.succ_eq_add_one]
    ring

theorem loadArray_scalars (h : ∀ v ∈ vs, (Ty.scalar size align).Holds v) :
    loadArray (.scalar size align) vs.length (encodeAll vs) = vs ∧
      (encodeAll vs).length = size * vs.length := by
  induction vs with
  | nil => exact ⟨rfl, rfl⟩
  | cons v vs ih =>
    obtain ⟨hv, hvs⟩ := forall_mem_cons.mp h
    obtain ⟨hload, hlen⟩ := ih hvs
    cases v with
    | scalar bytes =>
      obtain rfl : bytes.length = size := hv
      rw [length_cons, loadArray_succ, encodeAll_cons, encode_scalar, Ty.size, take_left,
        drop_left, hload, Ty.load, take_length, length_append, hlen]
      exact ⟨rfl, by ring⟩
    | _ => exact hv.elim

theorem reads_entries {es done : List Value}
    (h : ∀ e ∈ es, ∃ k v, e = .tuple [k, v] ∧ Reads readKey (encode k) k ∧
      Reads readMapped (encode v) v) (hnodup : (done ++ es |>.map key).Nodup) :
    Reads (readEntries readKey readMapped es.length done) (encodeAll es) (done ++ es) := by
  induction es generalizing done with
  | nil =>
    rw [append_nil]
    exact pure done
  | cons e es ih =>
    obtain ⟨⟨k, v, rfl, hk, hv⟩, hes⟩ := forall_mem_cons.mp h
    have hnew : k ∉ done.map key := by
      rw [map_append, map_cons] at hnodup
      intro hmem
      exact (nodup_append.mp hnodup).2.2 k hmem k mem_cons_self rfl
    have hemplace : emplace done k v = done ++ [.tuple [k, v]] := if_neg hnew
    have hrest : Reads (readEntries readKey readMapped es.length (done ++ [.tuple [k, v]]))
        (encodeAll es) (done ++ [.tuple [k, v]] ++ es) := ih hes (by simpa using hnodup)
    rw [append_assoc, singleton_append, ← hemplace] at hrest
    rw [encodeAll_cons, encode_tuple, encodeAll_cons, encodeAll_cons, encodeAll_nil, append_nil,
      append_assoc]
    exact hk.bind (hv.bind hrest)

/-- The built-in `read` is right for a key or a mapped value that is no trivial container. -/
theorem reads_value (hc : t.trivialContainer = false) (h : t.ReadsBack) (hv : t.Holds v) :
    Reads (if t.triviallyCopyable then t.readTrivial else t.read) (encode v) v := by
  split
  · next htc =>
    obtain ⟨size, align, rfl⟩ := exists_scalar htc hc
    exact reads_scalar hv
  · exact h v hv

theorem allSafe_iff : allSafe ts = true ↔ ∀ t ∈ ts, t.safe = true := by
  induction ts with
  | nil => simp [allSafe]
  | cons t ts ih => simp [allSafe, ih]

theorem readsBack_of_safe (t : Ty) (hwf : t.wellFormed = true) (hs : t.safe = true) :
    t.ReadsBack := by
  induction t using Ty.induct with
  | scalar size align =>
    intro v hv
    rw [Ty.read]
    exact reads_scalar hv
  | string =>
    intro v hv
    cases v with
    | string bytes =>
      rw [Ty.read, encode_string]
      exact (reads_size hv).bind ((Reads.take eod bytes).map string)
    | _ => exact hv.elim
  | tuple ts ih =>
    intro v hv
    cases v with
    | tuple vs =>
      rw [Ty.wellFormed, and_eq_true, allWellFormed_iff] at hwf
      rw [Ty.safe] at hs
      rw [Ty.read, encode_tuple]
      have hmany := readsBack_call (fun t ht hsafe => ih t ht (hwf.2 t ht) hsafe) hv
      exact (hmany.1 hs).map tuple
    | _ => exact hv.elim
  | optional t ih =>
    intro v hv
    rw [Ty.wellFormed] at hwf
    rw [Ty.safe] at hs
    rw [Ty.read]
    cases v with
    | absent => exact (Reads.take eod [0]).bind (Reads.pure absent)
    | present v => exact (Reads.take eod [1]).bind ((ih hwf hs v hv).map present)
    | _ => exact hv.elim
  | variant ts ih =>
    intro v hv
    cases v with
    | alternative index v =>
      simp only [Ty.wellFormed, and_eq_true, decide_eq_true_eq, allWellFormed_iff] at hwf
      rw [Ty.safe, allSafe_iff] at hs
      have hlt : index < 2 ^ 64 := (lt_of_holdsAt hv).trans hwf.1.2
      rw [Ty.read, encode_alternative]
      refine (reads_size hlt).bind (reads_at (fun t ht => ?_) hv index _)
      exact ih t ht (hwf.2 t ht) (hs t ht)
    | _ => exact hv.elim
  | vector t ih =>
    intro v hv
    cases v with
    | vector vs =>
      obtain ⟨hlen, hvs⟩ := hv
      rw [Ty.safe, and_eq_true, Bool.not_eq_true'] at hs
      rw [Ty.read, encode_vector]
      split
      -- copied whole, which gives the elements only if they are scalars
      · next htc =>
        obtain ⟨size, align, rfl⟩ := exists_scalar htc hs.1
        obtain ⟨hload, hbytes⟩ := loadArray_scalars hvs
        refine (reads_size hlen).bind ?_
        have htake := (Reads.take eod (encodeAll vs)).map
          fun bs => vector (loadArray (.scalar size align) vs.length bs)
        rwa [hload, hbytes] at htake
      · refine (reads_size hlen).bind ((Reads.repeat fun v hv => ?_).map vector)
        exact ih hwf hs.2 v (hvs v hv)
    | _ => exact hv.elim
  | map key mapped ihk ihm =>
    intro v hv
    cases v with
    | map es =>
      obtain ⟨hlen, hnodup, hes⟩ := hv
      rw [Ty.wellFormed, and_eq_true] at hwf
      simp only [Ty.safe, and_eq_true, Bool.not_eq_true'] at hs
      obtain ⟨⟨hkc, hk⟩, hmc, hm⟩ := hs
      have hentries : Reads
          (readEntries (if key.triviallyCopyable then key.readTrivial else key.read)
            (if mapped.triviallyCopyable then mapped.readTrivial else mapped.read) es.length [])
          (encodeAll es) ([] ++ es) := by
        refine reads_entries (fun e he => ?_) hnodup
        obtain ⟨k, v, rfl, hkv, hmv⟩ := hes e he
        exact ⟨k, v, rfl, reads_value hkc (ihk hwf.1 hk) hkv, reads_value hmc (ihm hwf.2 hm) hmv⟩
      rw [Ty.read, encode_map]
      exact (reads_size hlen).bind (hentries.map map)
    | _ => exact hv.elim

/-! ## Other types are not -/

theorem holdsAll_defaults (h : ∀ t ∈ ts, t.Holds t.default) : HoldsAll ts (defaults ts) := by
  induction ts with
  | nil => trivial
  | cons t ts ih =>
    obtain ⟨ht, hts⟩ := forall_mem_cons.mp h
    exact ⟨ht, ih hts⟩

theorem holds_default (t : Ty) (hwf : t.wellFormed = true) : t.Holds t.default := by
  induction t using Ty.induct with
  | scalar size align => exact length_replicate
  | string | vector t _ | map key mapped _ _ => norm_num [Ty.default, Ty.Holds]
  | tuple ts ih =>
    rw [Ty.wellFormed, and_eq_true, allWellFormed_iff] at hwf
    exact holdsAll_defaults fun t ht => ih t ht (hwf.2 t ht)
  | optional t _ => trivial
  | variant ts ih =>
    simp only [Ty.wellFormed, and_eq_true, allWellFormed_iff] at hwf
    cases ts with
    | nil => simp at hwf
    | cons t ts => exact ih t mem_cons_self (hwf.2 t mem_cons_self)

/-- Whatever stands before it, some value of a trivially copyable type is not what lies in memory
at the front. -/
theorem exists_load_ne (t : Ty) (hwf : t.wellFormed = true) (ht : t.triviallyCopyable = true)
    {pre : List UInt8} (hpre : pre ≠ []) :
    ∃ v, t.Holds v ∧ ∀ rest k, t.load ((pre ++ encode v ++ rest).take k) ≠ v := by
  induction t using Ty.induct generalizing pre with
  | scalar size align =>
    rw [Ty.wellFormed, decide_eq_true_eq] at hwf
    obtain ⟨b, pre, rfl⟩ := exists_cons_of_ne_nil hpre
    -- the first byte in memory is the first of `pre`
    refine ⟨.scalar (List.replicate size (b + 1)), length_replicate, fun rest k heq => ?_⟩
    obtain ⟨size, rfl⟩ := Nat.exists_eq_add_of_le' hwf
    have hbytes := scalar.inj heq
    cases k with
    | zero => simp at hbytes
    | succ k => simp [replicate_succ] at hbytes
  | optional t ih =>
    have hone : pre ++ [1] ≠ [] := by simp
    obtain ⟨v, hv, hne⟩ := ih hwf ht hone
    refine ⟨.present v, hv, fun rest k heq => ?_⟩
    rw [Ty.load] at heq
    split at heq
    · cases heq
    · have hload := present.inj heq
      rw [encode_present, ← append_assoc] at hload
      exact hne rest k hload
  | variant ts ih =>
    simp only [Ty.wellFormed, and_eq_true, allWellFormed_iff] at hwf
    cases ts with
    | nil => simp at hwf
    | cons t ts =>
      rw [Ty.triviallyCopyable, allTriviallyCopyable, and_eq_true] at ht
      have hindex : pre ++ toLE 8 0 ≠ [] := by simp [hpre]
      obtain ⟨v, hv, hne⟩ := ih t mem_cons_self (hwf.2 t mem_cons_self) ht.1 hindex
      refine ⟨.alternative 0 v, hv, fun rest k heq => ?_⟩
      rw [Ty.load] at heq
      split at heq
      · next v' hload =>
        obtain ⟨hindex, rfl⟩ := alternative.inj heq
        rw [hindex, loadAt, encode_alternative, ← append_assoc] at hload
        exact hne rest k (Option.some.inj hload)
      · cases heq
  | string | tuple _ _ | vector _ _ | map _ _ _ _ => simp [Ty.triviallyCopyable] at ht

/-- A trivial container is not read back when it is copied whole. -/
theorem exists_load_container_ne (hwf : t.wellFormed = true) (hc : t.trivialContainer = true) :
    ∃ v, t.Holds v ∧ ∀ rest k, t.load ((encode v ++ rest).take k) ≠ v := by
  cases t with
  | optional t =>
    obtain ⟨v, hv, hne⟩ := exists_load_ne t hwf hc (cons_ne_nil 1 [])
    refine ⟨.present v, hv, fun rest k heq => ?_⟩
    rw [Ty.load] at heq
    split at heq
    · cases heq
    · exact hne rest k (present.inj heq)
  | variant ts =>
    simp only [Ty.wellFormed, and_eq_true, allWellFormed_iff] at hwf
    have hc : allTriviallyCopyable ts = true := hc
    cases ts with
    | nil => simp at hwf
    | cons t ts =>
      rw [allTriviallyCopyable, and_eq_true] at hc
      have hindex : toLE 8 0 ≠ [] := by simp [toLE]
      obtain ⟨v, hv, hne⟩ := exists_load_ne t (hwf.2 t mem_cons_self) hc.1 hindex
      refine ⟨.alternative 0 v, hv, fun rest k heq => ?_⟩
      rw [Ty.load] at heq
      split at heq
      · next v' hload =>
        obtain ⟨hindex, rfl⟩ := alternative.inj heq
        rw [hindex, loadAt, encode_alternative] at hload
        exact hne rest k (Option.some.inj hload)
      · cases heq
  | scalar | string | tuple | vector | map => cases hc

theorem misreads_trivial (h : ∀ rest k, t.load ((encode v ++ rest).take k) ≠ v) :
    Misreads t.readTrivial (encode v) v := by
  intro rest v' rest' hrun
  obtain ⟨bs, htake, rfl⟩ := Reader.exists_of_map hrun
  have htake : (if _ then _ else _) = _ := htake
  split at htake
  · cases htake
  · obtain ⟨rfl, -⟩ := Prod.mk.inj (Except.ok.inj htake)
    exact h rest t.size

theorem misreads_ensure {α : Type} {r : Reader SerializationError α} {a : α}
    (h : Misreads r bs a) (n : ℕ) : Misreads (do ensure n; r) bs a := by
  intro rest a' rest' hrun
  obtain ⟨_, s, hensure, hr⟩ := Reader.exists_of_bind hrun
  have hensure : (if _ then _ else _) = _ := hensure
  split at hensure
  · cases hensure
  · obtain ⟨-, rfl⟩ := Prod.mk.inj (Except.ok.inj hensure)
    exact h rest a' rest' hr

def Ty.MisreadsSome (t : Ty) : Prop := ∃ v, t.Holds v ∧ Misreads t.read (encode v) v

theorem misreads_call (hwf : ∀ t ∈ ts, t.wellFormed = true)
    (h : ∀ t ∈ ts, t.safe = false → t.MisreadsSome) :
    (safeCall ts = false → ∃ vs, HoldsAll ts vs ∧ Misreads (readMany ts) (encodeAll vs) vs) ∧
      (safeCopy ts = false →
        ∃ vs, HoldsAll ts vs ∧ Misreads (trivialCopy ts) (encodeAll vs) vs) := by
  induction ts with
  | nil => simp [safeCall, safeCopy]
  | cons t ts ih =>
    obtain ⟨hwft, hwfts⟩ := forall_mem_cons.mp hwf
    obtain ⟨ht, hts⟩ := forall_mem_cons.mp h
    obtain ⟨hmany, hcopy⟩ := ih hwfts hts
    have hdefaults := holdsAll_defaults fun t ht => holds_default t (hwfts t ht)
    -- a trivially copyable argument that is copied
    have htrivial : t.triviallyCopyable = true → (!t.trivialContainer && safeCopy ts) = false →
        ∃ vs, HoldsAll (t :: ts) vs ∧
          Misreads (do let v ← t.readTrivial; let vs ← trivialCopy ts; return v :: vs)
            (encodeAll vs) vs := by
      intro htc hs
      cases hcont : t.trivialContainer with
      | true =>
        obtain ⟨v, hv, hne⟩ := exists_load_container_ne hwft hcont
        exact ⟨v :: defaults ts, ⟨hv, hdefaults⟩, (misreads_trivial hne).head _ _ _⟩
      | false =>
        rw [hcont] at hs
        obtain ⟨size, align, rfl⟩ := exists_scalar htc hcont
        obtain ⟨vs, hvs, hmis⟩ := hcopy hs
        have hv := holds_default _ hwft
        exact ⟨_ :: vs, ⟨hv, hvs⟩, tail (reads_scalar hv) hmis⟩
    -- an argument that is read by itself
    have hsingle : (t.safe && safeCall ts) = false →
        ∃ vs, HoldsAll (t :: ts) vs ∧
          Misreads (do let v ← t.read; let vs ← readMany ts; return v :: vs) (encodeAll vs) vs := by
      intro hs
      cases hsafe : t.safe with
      | false =>
        obtain ⟨v, hv, hmis⟩ := ht hsafe
        exact ⟨v :: defaults ts, ⟨hv, hdefaults⟩, hmis.head _ _ _⟩
      | true =>
        rw [hsafe] at hs
        obtain ⟨vs, hvs, hmis⟩ := hmany hs
        have hv := holds_default _ hwft
        exact ⟨_ :: vs, ⟨hv, hvs⟩, tail (readsBack_of_safe t hwft hsafe _ hv) hmis⟩
    constructor
    · intro hs
      rw [safeCall] at hs
      rw [readMany]
      split at hs
      · next hnil =>
        obtain rfl : ts = [] := isEmpty_iff.mp hnil
        obtain ⟨v, hv, hmis⟩ := ht hs
        refine ⟨[v], ⟨hv, trivial⟩, ?_⟩
        exact hmis.head (pure []) [] []
      · next hne =>
        rw [if_neg hne]
        split at hs
        · next htc =>
          rw [if_pos htc]
          obtain ⟨vs, hvs, hmis⟩ := htrivial htc hs
          exact ⟨vs, hvs, misreads_ensure hmis _⟩
        · next htc =>
          rw [if_neg htc]
          exact hsingle hs
    · intro hs
      rw [safeCopy] at hs
      rw [trivialCopy]
      split at hs
      · next htc =>
        rw [if_pos htc]
        exact htrivial htc hs
      · next htc =>
        rw [if_neg htc]
        exact hsingle hs

theorem misreads_at (h : ∀ t ∈ ts, t.safe = false → t.MisreadsSome) (hs : allSafe ts = false) :
    ∃ i v, HoldsAt ts i v ∧ ∀ index unchanged,
      Misreads (readAt ts i index unchanged) (encode v) (.alternative index v) := by
  induction ts with
  | nil => simp [allSafe] at hs
  | cons t ts ih =>
    obtain ⟨ht, hts⟩ := forall_mem_cons.mp h
    cases hsafe : t.safe with
    | false =>
      obtain ⟨v, hv, hmis⟩ := ht hsafe
      refine ⟨0, v, hv, fun index unchanged => ?_⟩
      rw [readAt]
      exact hmis.map fun v v' heq => (alternative.inj heq).2
    | true =>
      rw [allSafe, hsafe] at hs
      obtain ⟨i, v, hv, hmis⟩ := ih hts hs
      refine ⟨i + 1, v, hv, fun index unchanged => ?_⟩
      rw [readAt]
      exact hmis index unchanged

/-- A key or a mapped value that is not safe where the built-in `read` comes first. -/
theorem misreads_value (hwf : t.wellFormed = true) (h : t.safe = false → t.MisreadsSome)
    (hs : (!t.trivialContainer && t.safe) = false) : ∃ v, t.Holds v ∧
      Misreads (if t.triviallyCopyable then t.readTrivial else t.read) (encode v) v := by
  cases hc : t.trivialContainer with
  | true =>
    have htc : t.triviallyCopyable = true := by
      cases t with
      | scalar size align => rfl
      | _ => exact hc
    obtain ⟨v, hv, hne⟩ := exists_load_container_ne hwf hc
    rw [if_pos htc]
    exact ⟨v, hv, misreads_trivial hne⟩
  | false =>
    rw [hc] at hs
    obtain ⟨v, hv, hmis⟩ := h hs
    rw [if_neg]
    · exact ⟨v, hv, hmis⟩
    · intro htc
      obtain ⟨size, align, rfl⟩ := exists_scalar htc hc
      rw [Ty.safe] at hs
      cases hs

theorem misreads_entry {k : Value} (h :
      Misreads readKey (encode k) k ∨ Reads readKey (encode k) k ∧ Misreads readMapped (encode v)
      v) :
    Misreads (readEntries readKey readMapped 1 []) (encodeAll [.tuple [k, v]]) [.tuple [k, v]] := by
  have hpart : ∀ k' v' s b' s',
      (readEntries readKey readMapped 0 (emplace [] k' v')).run s = .ok (b', s') →
      b' = [.tuple [k, v]] → k' = k ∧ v' = v := by
    intro k' v' s b' s' hrun heq
    obtain ⟨rfl, -⟩ := Prod.mk.inj (Except.ok.inj hrun)
    simpa [emplace] using heq
  rw [encodeAll_cons, encode_tuple, encodeAll_cons, encodeAll_cons, encodeAll_nil, append_nil,
    append_nil]
  rcases h with hk | ⟨hk, hv⟩
  · refine hk.bind _ fun k' s b' s' hrun heq => ?_
    obtain ⟨v', t, -, hrest⟩ := Reader.exists_of_bind hrun
    exact (hpart k' v' t b' s' hrest heq).1
  · refine of_reads hk ?_
    have hmis := hv.bind (f := fun v => readEntries readKey readMapped 0 (emplace [] k v)) []
      fun v' s b' s' hrun heq => (hpart k v' s b' s' hrun heq).2
    rwa [append_nil] at hmis

/-- A type that is not safe has a value that is not read back. -/
theorem misreads_of_unsafe (t : Ty) (hwf : t.wellFormed = true) (hs : t.safe = false) :
    t.MisreadsSome := by
  induction t using Ty.induct with
  | scalar size align | string =>
    rw [Ty.safe] at hs
    cases hs
  | tuple ts ih =>
    rw [Ty.wellFormed, and_eq_true, allWellFormed_iff] at hwf
    rw [Ty.safe] at hs
    obtain ⟨vs, hvs, hmis⟩ :=
      (misreads_call hwf.2 fun t ht hsafe => ih t ht (hwf.2 t ht) hsafe).1 hs
    refine ⟨.tuple vs, hvs, ?_⟩
    rw [Ty.read, encode_tuple]
    exact hmis.map fun vs vs' heq => tuple.inj heq
  | optional t ih =>
    rw [Ty.wellFormed] at hwf
    rw [Ty.safe] at hs
    obtain ⟨v, hv, hmis⟩ := ih hwf hs
    refine ⟨.present v, hv, ?_⟩
    rw [Ty.read, encode_present]
    exact of_reads (take eod [1]) (hmis.map fun v v' heq => present.inj heq)
  | variant ts ih =>
    simp only [Ty.wellFormed, and_eq_true, decide_eq_true_eq, allWellFormed_iff] at hwf
    rw [Ty.safe] at hs
    obtain ⟨i, v, hv, hmis⟩ := misreads_at (fun t ht hsafe => ih t ht (hwf.2 t ht) hsafe) hs
    refine ⟨.alternative i v, hv, ?_⟩
    rw [Ty.read, encode_alternative]
    exact of_reads (reads_size ((lt_of_holdsAt hv).trans hwf.1.2)) (hmis i _)
  | vector t ih =>
    rw [Ty.wellFormed] at hwf
    rw [Ty.safe] at hs
    have hone : 1 < 2 ^ 64 := by norm_num
    rw [Ty.MisreadsSome, Ty.read]
    split
    -- copied whole: the first element is taken from where its encoding begins
    · next htc =>
      have hc : t.trivialContainer = true := by
        by_contra hno
        obtain ⟨size, align, rfl⟩ := exists_scalar htc (eq_false_of_not_eq_true hno)
        simp [Ty.trivialContainer, Ty.safe] at hs
      obtain ⟨v, hv, hne⟩ := exists_load_container_ne hwf hc
      refine ⟨.vector [v], ⟨hone, by simpa using hv⟩, ?_⟩
      rw [encode_vector, encodeAll_cons, encodeAll_nil, append_nil]
      refine of_reads (reads_size hone) fun rest w rest' hrun heq => ?_
      obtain ⟨bs, htake, rfl⟩ := Reader.exists_of_map hrun
      have htake : (if _ then _ else _) = _ := htake
      split at htake
      · cases htake
      · obtain ⟨rfl, -⟩ := Prod.mk.inj (Except.ok.inj htake)
        have hload := vector.inj heq
        rw [length_cons, loadArray_succ] at hload
        have hhead := (List.cons.inj hload).1
        rw [take_take] at hhead
        exact hne rest _ hhead
    · next htc =>
      have hsafe : t.safe = false := by
        cases hc : t.trivialContainer with
        | false =>
          rw [hc] at hs
          exact hs
        | true =>
          cases t with
          | scalar size align => cases hc
          | _ => exact absurd hc htc
      obtain ⟨v, hv, hmis⟩ := ih hwf hsafe
      refine ⟨.vector [v], ⟨hone, by simpa using hv⟩, ?_⟩
      rw [encode_vector]
      refine of_reads (reads_size hone) (map ?_ fun vs vs' heq =>
        vector.inj heq)
      rw [encodeAll_cons]
      exact hmis.head _ _ _
  | map key mapped ihk ihm =>
    rw [Ty.wellFormed, and_eq_true] at hwf
    rw [Ty.safe] at hs
    have hone : 1 < 2 ^ 64 := by norm_num
    obtain ⟨k, v, hk, hv, hmis⟩ : ∃ k v, key.Holds k ∧ mapped.Holds v ∧
        (Misreads (if key.triviallyCopyable then key.readTrivial else key.read) (encode k) k ∨
          Reads (if key.triviallyCopyable then key.readTrivial else key.read) (encode k) k ∧
          Misreads (if mapped.triviallyCopyable then mapped.readTrivial else mapped.read)
            (encode v) v) := by
      -- the key is read first; the value matters only if the key is read back
      cases hkey : !key.trivialContainer && key.safe with
      | false =>
        obtain ⟨k, hk, hmis⟩ := misreads_value hwf.1 (ihk hwf.1) hkey
        exact ⟨k, _, hk, holds_default mapped hwf.2, Or.inl hmis⟩
      | true =>
        rw [hkey] at hs
        obtain ⟨v, hv, hmis⟩ := misreads_value hwf.2 (ihm hwf.2) hs
        rw [and_eq_true, Bool.not_eq_true'] at hkey
        have hk := holds_default key hwf.1
        exact ⟨_, v, hk, hv,
          Or.inr ⟨reads_value hkey.1 (readsBack_of_safe key hwf.1 hkey.2) hk, hmis⟩⟩
    refine ⟨.map [.tuple [k, v]], ⟨hone, by simp, by simp [hk, hv]⟩, ?_⟩
    rw [Ty.read, encode_map]
    exact of_reads (reads_size hone) ((misreads_entry hmis).map fun es es' heq => map.inj heq)

/-! ## Main theorem -/

theorem deserializeBuffer_ok {data : List UInt8} (h : deserializeBuffer ts data = .ok vs) :
    (readMany ts).run data = .ok (vs, []) := by
  obtain ⟨⟨vs', rest⟩, hrun, h⟩ := except_bind_eq_ok.mp h
  dsimp only at h
  split at h
  · cases h
  · next hrest =>
    obtain rfl : vs' = vs := Except.ok.inj h
    rw [hrun, length_eq_zero_iff.mp (not_not.mp hrest)]

/-- **The round trip.** For every list of types: all values of these types are read back by
`deserializeBuffer` from what `serializeToBuffer` wrote, if and only if the call is safe. -/
theorem roundTrip_iff (ts : List Ty) (hwf : ∀ t ∈ ts, t.wellFormed = true) :
    (∀ vs, HoldsAll ts vs → deserializeBuffer ts (serializeToBuffer vs) = .ok vs) ↔
      safeCall ts = true := by
  constructor
  · intro hall
    by_contra hno
    obtain ⟨vs, hvs, hmis⟩ := (misreads_call hwf fun t ht => misreads_of_unsafe t (hwf t ht)).1
      (eq_false_of_not_eq_true hno)
    have hrun := deserializeBuffer_ok (hall vs hvs)
    rw [serializeToBuffer_eq, ← append_nil (encodeAll vs)] at hrun
    exact hmis [] vs [] hrun rfl
  · intro hs vs hvs
    have hread := (readsBack_call (fun t ht => readsBack_of_safe t (hwf t ht)) hvs).1 hs []
    rw [append_nil] at hread
    rw [deserializeBuffer, serializeToBuffer_eq, hread]
    rfl

/-- An integer, a string and, as the last argument, an optional integer. -/
theorem roundTrip_optional_last :
    deserializeBuffer [.scalar 4 4, .string, .optional (.scalar 4 4)]
        (serializeToBuffer [.scalar [7, 0, 0, 0], .string [104, 105],
          .present (.scalar [2, 0, 0, 0])]) =
      .ok [.scalar [7, 0, 0, 0], .string [104, 105], .present (.scalar [2, 0, 0, 0])] :=
  (roundTrip_iff [.scalar 4 4, .string, .optional (.scalar 4 4)] (by decide)).mpr (by decide) _
    ⟨rfl, by norm_num [Ty.Holds], rfl, trivial⟩

/-- An integer and an optional integer: nine bytes are written, and twelve are asked for. -/
theorem roundTrip_optional_copied :
    HoldsAll [.scalar 4 4, .optional (.scalar 4 4)]
        [.scalar [1, 0, 0, 0], .present (.scalar [2, 0, 0, 0])] ∧
      deserializeBuffer [.scalar 4 4, .optional (.scalar 4 4)]
        (serializeToBuffer [.scalar [1, 0, 0, 0], .present (.scalar [2, 0, 0, 0])]) =
        .error eod :=
  ⟨⟨rfl, rfl, trivial⟩, by decide⟩

/-- What one call has written may be read in two parts if each of them is safe, even where one call
for both would not be. -/
theorem deserialize_in_parts {ts' : List Ty} {vs' : List Value}
    (hwf : ∀ t ∈ ts ++ ts', t.wellFormed = true) (hs : safeCall ts = true)
    (hs' : safeCall ts' = true) (hvs : HoldsAll ts vs) (hvs' : HoldsAll ts' vs') :
    ∃ rest, deserializeBufferPart ts (serializeToBuffer (vs ++ vs')) = .ok (vs, rest) ∧
      deserializeBuffer ts' rest = .ok vs' := by
  have hsafe t (ht : t ∈ ts ++ ts') := readsBack_of_safe t (hwf t ht)
  have hpart := (readsBack_call (fun t ht => hsafe t (mem_append_left _ ht)) hvs).1 hs
  have hlast := (readsBack_call (fun t ht => hsafe t (mem_append_right _ ht)) hvs').1 hs' []
  rw [append_nil] at hlast
  refine ⟨encodeAll vs', ?_, ?_⟩
  · rw [serializeToBuffer_eq, encodeAll, flatMap_append]
    exact hpart (encodeAll vs')
  · rw [deserializeBuffer, hlast]
    rfl

theorem deserialize_in_parts_optional : ∃ rest, deserializeBufferPart [.scalar 4 4]
    (serializeToBuffer [.scalar [1, 0, 0, 0], .absent]) = .ok ([.scalar [1, 0, 0, 0]], rest) ∧
      deserializeBuffer [.optional (.scalar 4 4)] rest = .ok [.absent] :=
  @deserialize_in_parts [_] [_] [_] [_] (by decide) rfl rfl ⟨rfl, trivial⟩ ⟨trivial, trivial⟩

end Serialization
