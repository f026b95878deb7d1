import Moodist.Serialization.RoundTrip

/-!
# Serialization in one pass

`serializeToBufferOneShot` does not find the size first. It starts with a small buffer and moves to
a larger one before a write that may not fit. A buffer is a block of the allocator with a header in
front, and a larger one takes all of its block. The allocator is the default one of
`core/internal_allocator.cc`, whose blocks are powers of two.

Main definitions: `internalAlloc`, `expand`, `twrite`, `serializeToBufferOneShot`. Main result:
`serializeToBufferOneShot_eq`.
-/

namespace Serialization

open Foundation List

mutual

/-- What is given to each call of `twrite`. The length of a string and its characters are written
by one call. -/
def twrites : Value → List (List UInt8)
  | .scalar bytes => [bytes]
  | .string bytes => [toLE 8 bytes.length ++ bytes]
  | .tuple vs => twritesAll vs
  | .absent => [[0]]
  | .present v => [1] :: twrites v
  | .alternative index v => toLE 8 index :: twrites v
  | .valueless => []
  | .vector vs => toLE 8 vs.length :: twritesAll vs
  | .map es => toLE 8 es.length :: twritesAll es

def twritesAll : List Value → List (List UInt8)
  | [] => []
  | v :: vs => twrites v ++ twritesAll vs

end

/-! ## Blocks -/

def lzcnt64 (x : ℕ) : ℕ := 64 - x.size

def getSizeClass (bytes : ℕ) : ℕ :=
  let bytes := if bytes = 0 then 1 else bytes
  lzcnt64 ((bytes - 1) ||| 7)

def mooAllocSize (index : ℕ) : ℕ := max (2 ^ (64 - index)) 8

-- what a block of this size contains before it is written
variable (fresh : ℕ → ℕ → UInt8)

/-- A block, or `none` for more than `2 ^ 63` bytes, where `moo_alloc2` fails. -/
def internalAlloc (bytes : ℕ) : Option (List UInt8) :=
  let index := getSizeClass bytes
  if index = 0 then none
  else some ((range (mooAllocSize index)).map (fresh (mooAllocSize index)))

/-- The length of `block` is `internalAllocSize`. -/
structure Buffer where
  block : List UInt8
  msize : ℕ

/-- `sizeof(Buffer)`. -/
def sizeofBuffer : ℕ := 16

/-- Reads from `data()`; `none` if it is beyond the block. -/
def Buffer.read (b : Buffer) (n : ℕ) : Option (List UInt8) :=
  if sizeofBuffer + n ≤ b.block.length then some ((b.block.drop sizeofBuffer).take n) else none

/-- Writes to `data() + offset`; `none` if it is beyond the block. -/
def Buffer.write (b : Buffer) (offset : ℕ) (src : List UInt8) : Option Buffer :=
  if sizeofBuffer + offset + src.length ≤ b.block.length then
    some { b with block := (writeBytes (b.block, sizeofBuffer + offset) src).1 }
  else none

def makeBuffer (nbytes : ℕ) : Option Buffer := do
  let block ← internalAlloc fresh ((sizeofBuffer + nbytes) % 2 ^ 64)
  return ⟨block, nbytes⟩

/-! ## Writing -/

/-- `SerializeExpandable` -/
structure Expandable where
  buffer : Buffer
  size : ℕ

def expand (x : Expandable) (nreq : ℕ) : Option Expandable := do
  let newbuffer ← makeBuffer fresh
    (max (x.buffer.msize * 2 % 2 ^ 64) ((x.buffer.msize + nreq) % 2 ^ 64))
  let bytes ← x.buffer.read x.size
  let newbuffer ← { newbuffer with msize := newbuffer.block.length - sizeofBuffer }.write 0 bytes
  return { x with buffer := newbuffer }

def twrite (x : Expandable) (src : List UInt8) : Option Expandable :=
  let nreq := src.length
  let x :=
    if nreq ≥ (x.buffer.msize + 2 ^ 64 - x.size) % 2 ^ 64 then expand fresh x nreq else some x
  x.bind fun x => (x.buffer.write x.size src).map (⟨·, x.size + nreq⟩)

def serializeToBufferOneShot (vs : List Value) : Option (List UInt8) := do
  let buffer ← makeBuffer fresh (0x80 - sizeofBuffer)
  let x ← (twritesAll vs).foldlM (twrite fresh) ⟨buffer, 0⟩
  { x.buffer with msize := x.size }.read x.size

theorem flatten_twritesAll {vs : List Value} (h : ∀ v ∈ vs, (twrites v).flatten = encode v) :
    (twritesAll vs).flatten = encodeAll vs := by
  induction vs with
  | nil => rfl
  | cons v vs ih =>
    obtain ⟨hv, hvs⟩ := forall_mem_cons.mp h
    rw [twritesAll, flatten_append, hv, ih hvs, encodeAll_cons]

theorem flatten_twrites (v : Value) : (twrites v).flatten = encode v := by
  induction v using Value.induct with
  | scalar bytes | string bytes => simp [twrites]
  | tuple vs ih => rw [twrites, flatten_twritesAll ih, encode_tuple]
  | absent => rfl
  | present v ih => rw [twrites, flatten_cons, ih, encode_present]
  | alternative index v ih => rw [twrites, flatten_cons, ih, encode_alternative]
  | valueless => rfl
  | vector vs ih => rw [twrites, flatten_cons, flatten_twritesAll ih, encode_vector]
  | map es ih => rw [twrites, flatten_cons, flatten_twritesAll ih, encode_map]

/-- The block of a buffer is a header, `bytes`, and free space. -/
structure Written (x : Expandable) (bytes : List UInt8) : Prop where
  size : x.size = bytes.length
  block : ∃ header rest, x.buffer.block = header ++ bytes ++ rest ∧ header.length = sizeofBuffer
  msize : x.buffer.msize + sizeofBuffer = x.buffer.block.length
  bounded : x.buffer.msize < 2 ^ 64

variable {fresh} {x : Expandable} {bytes src : List UInt8} {nbytes : ℕ}

theorem exists_internalAlloc (fresh : ℕ → ℕ → UInt8) (h : nbytes ≤ 2 ^ 63) :
    ∃ block, internalAlloc fresh nbytes = some block ∧ nbytes ≤ block.length ∧
      block.length ≤ 2 ^ 63 := by
  have hor : (nbytes - 1 ||| 7) < 2 ^ 63 := Nat.or_lt_two_pow (by omega) (by norm_num)
  have hsize : (nbytes - 1 ||| 7).size ≤ 63 := Nat.size_le.mpr hor
  have hindex : getSizeClass nbytes = 64 - (nbytes - 1 ||| 7).size := by
    unfold getSizeClass lzcnt64
    split_ifs with hzero
    · rw [hzero]
    · rfl
  have hlt : nbytes - 1 < 2 ^ (nbytes - 1 ||| 7).size :=
    Nat.left_le_or.trans_lt (Nat.lt_size_self _)
  have hle : 2 ^ (nbytes - 1 ||| 7).size ≤ 2 ^ 63 := Nat.pow_le_pow_right (by norm_num) hsize
  refine ⟨_, if_neg (by omega), ?_⟩
  rw [length_map, length_range, mooAllocSize, hindex, Nat.sub_sub_self (by omega)]
  omega

theorem exists_makeBuffer (fresh : ℕ → ℕ → UInt8) (nbytes : ℕ)
    (h : nbytes + sizeofBuffer ≤ 2 ^ 63) : ∃ block,
    makeBuffer fresh nbytes = some ⟨block, nbytes⟩ ∧ nbytes + sizeofBuffer ≤ block.length ∧
      block.length ≤ 2 ^ 63 := by
  have hmod : (sizeofBuffer + nbytes) % 2 ^ 64 = nbytes + sizeofBuffer := by omega
  obtain ⟨block, hblock, hle⟩ := exists_internalAlloc fresh h
  refine ⟨block, ?_, hle⟩
  rw [makeBuffer, hmod, hblock]
  rfl

theorem written_nil {block : List UInt8} {msize : ℕ} (h : msize + sizeofBuffer = block.length)
    (hlt : msize < 2 ^ 64) : Written ⟨⟨block, msize⟩, 0⟩ [] := by
  refine ⟨rfl, ⟨block.take sizeofBuffer, block.drop sizeofBuffer, ?_, ?_⟩, h, hlt⟩
  · simp
  · rw [length_take]
    omega

section

variable (h : Written x bytes)

include h

theorem Written.read : x.buffer.read x.size = some bytes := by
  obtain ⟨hsize, ⟨header, rest, hblock, hheader⟩, -, -⟩ := h
  have hle : sizeofBuffer + x.size ≤ x.buffer.block.length := by
    rw [hblock, length_append, length_append]
    omega
  rw [Buffer.read, if_pos hle, hblock, ← hheader, append_assoc, drop_left, hsize, take_left]

theorem Written.write (src : List UInt8) (hfits : x.size + src.length ≤ x.buffer.msize) :
    ∃ buffer, x.buffer.write x.size src = some buffer ∧
      Written ⟨buffer, x.size + src.length⟩ (bytes ++ src) := by
  obtain ⟨hsize, ⟨header, rest, hblock, hheader⟩, hmsize, hbounded⟩ := h
  have hle : sizeofBuffer + x.size + src.length ≤ x.buffer.block.length := by omega
  have hwrite : (writeBytes (x.buffer.block, sizeofBuffer + x.size) src).1 =
      header ++ (bytes ++ src) ++ rest.drop src.length := by
    have hoffset : sizeofBuffer + x.size = (header ++ bytes).length := by
      rw [length_append, hheader, hsize]
    have hdrop : (header ++ bytes ++ rest).drop ((header ++ bytes).length + src.length) =
        rest.drop src.length := by
      rw [← drop_drop, drop_left]
    rw [writeBytes, hoffset, hblock, take_left, hdrop, append_assoc header]
  refine ⟨_, if_pos hle, ?_, ⟨header, rest.drop src.length, hwrite, hheader⟩, ?_, hbounded⟩
  · rw [length_append, hsize]
  · have hlength := congrArg length hblock
    simp only [length_append] at hlength
    rw [hwrite]
    simp only [length_append, length_drop]
    omega

theorem Written.size_le : x.size ≤ x.buffer.msize := by
  obtain ⟨hsize, ⟨header, rest, hblock, hheader⟩, hmsize, -⟩ := h
  rw [hblock, length_append, length_append] at hmsize
  omega

theorem Written.expand {nreq : ℕ} (hneeds : x.buffer.msize ≤ x.size + nreq)
    (hfits : x.size + nreq + sizeofBuffer ≤ 2 ^ 62) :
    ∃ x', expand fresh x nreq = some x' ∧ Written x' bytes ∧ x'.size = x.size ∧
      x.size + nreq ≤ x'.buffer.msize := by
  have hle := h.size_le
  have hdouble : x.buffer.msize * 2 % 2 ^ 64 = x.buffer.msize * 2 := Nat.mod_eq_of_lt (by omega)
  have hsum : (x.buffer.msize + nreq) % 2 ^ 64 = x.buffer.msize + nreq :=
    Nat.mod_eq_of_lt (by omega)
  obtain ⟨block, hmake, hblock, hbounded⟩ := exists_makeBuffer fresh
    (max (x.buffer.msize * 2) (x.buffer.msize + nreq)) (by omega)
  -- the copy goes to the start of a buffer of which nothing is written
  have hempty : Written ⟨⟨block, block.length - sizeofBuffer⟩, 0⟩ [] :=
    written_nil (Nat.sub_add_cancel (by omega)) (by omega)
  obtain ⟨buffer, hwrite, hwritten⟩ := hempty.write bytes (by
    have hsize := h.size
    dsimp only
    omega)
  have hmsize : buffer.msize = block.length - sizeofBuffer := by
    unfold Buffer.write at hwrite
    split_ifs at hwrite
    cases hwrite
    rfl
  refine ⟨{ x with buffer := buffer }, ?_, ⟨h.size, hwritten.block, hwritten.msize,
    hwritten.bounded⟩, rfl, ?_⟩
  · rw [Serialization.expand, hdouble, hsum, hmake, h.read]
    simp only [Option.bind_eq_bind, Option.bind_some, hwrite]
    rfl
  · rw [hmsize]
    omega

theorem Written.twrite (src : List UInt8) (hfits : x.size + src.length + sizeofBuffer ≤ 2 ^ 62) :
    ∃ x', twrite fresh x src = some x' ∧ Written x' (bytes ++ src) := by
  have hle := h.size_le
  have hsub : (x.buffer.msize + 2 ^ 64 - x.size) % 2 ^ 64 = x.buffer.msize - x.size := by
    have hbounded := h.bounded
    omega
  have hroom : ∃ x', (if src.length ≥ (x.buffer.msize + 2 ^ 64 - x.size) % 2 ^ 64 then
      Serialization.expand fresh x src.length else some x) = some x' ∧ Written x' bytes ∧
      x'.size + src.length ≤ x'.buffer.msize := by
    rw [hsub]
    split_ifs with hgrow
    · obtain ⟨x', hx', hwritten, hsize, hroom⟩ := h.expand (by omega) hfits
      exact ⟨x', hx', hwritten, by rwa [hsize]⟩
    · exact ⟨x, rfl, h, by omega⟩
  obtain ⟨x', hx', hwritten, hroom⟩ := hroom
  obtain ⟨buffer, hwrite, hdone⟩ := hwritten.write src hroom
  refine ⟨⟨buffer, x'.size + src.length⟩, ?_, hdone⟩
  simp only [Serialization.twrite, hx', Option.bind_some, hwrite, Option.map_some]

theorem Written.foldlM_twrite (fresh : ℕ → ℕ → UInt8) (ps : List (List UInt8))
    (hfits : (bytes ++ ps.flatten).length + sizeofBuffer ≤ 2 ^ 62) :
    ∃ x', ps.foldlM (Serialization.twrite fresh) x = some x' ∧
      Written x' (bytes ++ ps.flatten) := by
  induction ps generalizing x bytes with
  | nil => exact ⟨x, rfl, by rwa [flatten_nil, append_nil]⟩
  | cons src ps ih =>
    rw [flatten_cons, ← append_assoc] at hfits ⊢
    have hsize := h.size
    obtain ⟨x₁, h₁, hx₁⟩ := h.twrite src (by
      simp only [length_append] at hfits
      omega)
    obtain ⟨x₂, h₂, hx₂⟩ := ih hx₁ hfits
    refine ⟨x₂, ?_, hx₂⟩
    rw [foldlM_cons, h₁]
    exact h₂

end

/-- One pass yields the same bytes as two, and no read or write goes beyond a block, for values that
need less than a quarter of the address space. -/
theorem serializeToBufferOneShot_eq (fresh : ℕ → ℕ → UInt8) (vs : List Value)
    (hfits : (serializeToBuffer vs).length + sizeofBuffer ≤ 2 ^ 62) :
    serializeToBufferOneShot fresh vs = some (serializeToBuffer vs) := by
  have hflatten : (twritesAll vs).flatten = serializeToBuffer vs := by
    rw [serializeToBuffer_eq, flatten_twritesAll fun v _ => flatten_twrites v]
  have hmake : makeBuffer fresh (0x80 - sizeofBuffer) =
      some ⟨(range 0x80).map (fresh 0x80), 0x80 - sizeofBuffer⟩ := rfl
  have hinit : Written ⟨⟨(range 0x80).map (fresh 0x80), 0x80 - sizeofBuffer⟩, 0⟩ [] :=
    written_nil (by rw [length_map, length_range]; rfl) (by decide)
  obtain ⟨x, hx, hwritten⟩ := hinit.foldlM_twrite fresh (twritesAll vs) (by
    rwa [hflatten])
  have hread := hwritten.read
  rw [nil_append, hflatten] at hread
  rw [serializeToBufferOneShot, hmake]
  simp only [Option.bind_eq_bind, Option.bind_some, hx]
  exact hread

def longString : List Value := [.scalar [1, 2, 3, 4], .string (replicate 200 7), .absent]

/-- The string needs a larger buffer. -/
theorem serializeToBufferOneShot_longString :
    serializeToBufferOneShot (fun _ _ => 0xaa) longString = some (serializeToBuffer longString) ∧
      (serializeToBuffer longString).length = 213 := by
  have hlength : (serializeToBuffer longString).length = 213 := by
    rw [serializeToBuffer_eq, longString]
    simp only [encodeAll_cons, encodeAll_nil, encode_scalar, encode_string, length_append,
      length_toLE, length_replicate]
    rfl
  exact ⟨serializeToBufferOneShot_eq _ _ (by rw [hlength]; decide), hlength⟩

end Serialization
