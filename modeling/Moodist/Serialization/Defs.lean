import Moodist.Foundation.LittleEndian
import Moodist.Foundation.Reader

/-!
# The core serializer

Model of `core/serialization.h`. A value is written by going through it once to find its size and
once to write it. It is read back by overloads that the compiler chooses from the type: a free
`serialize` function for the containers, or the built-in `read`, which copies a trivially copyable
object as it lies in memory.

Which types are trivially copyable, and how a `std::optional` and a `std::variant` of such types
lie in memory, is that of the GNU standard library: the contained object comes first, then the
flag or the index. `std::pair` and `std::tuple` are not trivially copyable there.
-/

namespace Serialization

open Foundation

/-! ## Types and values -/

/-- The types. A scalar is any trivially copyable type without a `serialize` of its own, a
`std::pair` is a tuple of two, and `map` stands for each of the map types. -/
inductive Ty where
  | scalar (size align : ℕ)
  | string
  | tuple (ts : List Ty)
  | optional (t : Ty)
  | variant (ts : List Ty)
  | vector (t : Ty)
  | map (key mapped : Ty)

/-- The values. A scalar is given by its bytes, the entries of a map are tuples of two in the
order of their insertion, and a variant without a value is `valueless`. -/
inductive Value where
  | scalar (bytes : List UInt8)
  | string (bytes : List UInt8)
  | tuple (vs : List Value)
  | absent
  | present (v : Value)
  | alternative (index : ℕ) (v : Value)
  | valueless
  | vector (vs : List Value)
  | map (entries : List Value)

/-- Induction over a type, with the members of a list of types at once. -/
@[elab_as_elim]
theorem Ty.induct {P : Ty → Prop} (scalar : ∀ size align, P (.scalar size align))
    (string : P .string) (tuple : ∀ ts, (∀ t ∈ ts, P t) → P (.tuple ts))
    (optional : ∀ t, P t → P (.optional t))
    (variant : ∀ ts, (∀ t ∈ ts, P t) → P (.variant ts)) (vector : ∀ t, P t → P (.vector t))
    (map : ∀ key mapped, P key → P mapped → P (.map key mapped)) (t : Ty) : P t :=
  @Ty.rec P (fun ts => ∀ t ∈ ts, P t) scalar string tuple optional variant vector map (by simp)
    (fun _ _ h hs => List.forall_mem_cons.mpr ⟨h, hs⟩) t

/-- Induction over a value, with the members of a list of values at once. -/
@[elab_as_elim]
theorem Value.induct {P : Value → Prop} (scalar : ∀ bs, P (.scalar bs))
    (string : ∀ bs, P (.string bs)) (tuple : ∀ vs, (∀ v ∈ vs, P v) → P (.tuple vs))
    (absent : P .absent) (present : ∀ v, P v → P (.present v))
    (alternative : ∀ i v, P v → P (.alternative i v)) (valueless : P .valueless)
    (vector : ∀ vs, (∀ v ∈ vs, P v) → P (.vector vs))
    (map : ∀ es, (∀ e ∈ es, P e) → P (.map es)) (v : Value) : P v :=
  @Value.rec P (fun vs => ∀ v ∈ vs, P v) scalar string tuple absent present alternative valueless
    vector map (by simp) (fun _ _ h hs => List.forall_mem_cons.mpr ⟨h, hs⟩) v

mutual

def Value.beq : Value → Value → Bool
  | .scalar bs, .scalar bs' => decide (bs = bs')
  | .string bs, .string bs' => decide (bs = bs')
  | .tuple vs, .tuple vs' => beqAll vs vs'
  | .absent, .absent => true
  | .present v, .present v' => v.beq v'
  | .alternative i v, .alternative i' v' => decide (i = i') && v.beq v'
  | .valueless, .valueless => true
  | .vector vs, .vector vs' => beqAll vs vs'
  | .map es, .map es' => beqAll es es'
  | _, _ => false

/-- Equality of lists of values. -/
def beqAll : List Value → List Value → Bool
  | [], [] => true
  | v :: vs, v' :: vs' => v.beq v' && beqAll vs vs'
  | _, _ => false

end

theorem beqAll_iff {vs : List Value} (h : ∀ v ∈ vs, ∀ v', v.beq v' = true ↔ v = v')
    (vs' : List Value) : beqAll vs vs' = true ↔ vs = vs' := by
  induction vs generalizing vs' with
  | nil => cases vs' <;> simp [beqAll]
  | cons v vs ih =>
    obtain ⟨hv, hvs⟩ := List.forall_mem_cons.mp h
    cases vs' with
    | nil => simp [beqAll]
    | cons v' vs' => simp [beqAll, hv, ih hvs]

theorem Value.beq_iff (v v' : Value) : v.beq v' = true ↔ v = v' := by
  induction v using Value.induct generalizing v' with
  | scalar bs | string bs | absent | valueless => cases v' <;> simp [Value.beq]
  | tuple vs ih | vector vs ih | map es ih => cases v' <;> simp [Value.beq, beqAll_iff ih]
  | present v ih | alternative i v ih => cases v' <;> simp [Value.beq, ih]

instance Value.decidableEq : DecidableEq Value := fun v v' => decidable_of_iff _ (v.beq_iff v')

def Value.key : Value → Value
  | .tuple (k :: _) => k
  | v => v

mutual

/-- The values of a type. Sizes fit in a `size_t`, and no two entries of a map have one key. -/
def Ty.Holds : Ty → Value → Prop
  | .scalar size _, .scalar bytes => bytes.length = size
  | .string, .string bytes => bytes.length < 2 ^ 64
  | .tuple ts, .tuple vs => HoldsAll ts vs
  | .optional _, .absent => True
  | .optional t, .present v => t.Holds v
  | .variant ts, .alternative i v => HoldsAt ts i v
  | .vector t, .vector vs => vs.length < 2 ^ 64 ∧ ∀ v ∈ vs, t.Holds v
  | .map key mapped, .map es => es.length < 2 ^ 64 ∧ (es.map Value.key).Nodup ∧
      ∀ e ∈ es, ∃ k v, e = .tuple [k, v] ∧ key.Holds k ∧ mapped.Holds v
  | _, _ => False

/-- One value of each type. -/
def HoldsAll : List Ty → List Value → Prop
  | [], [] => True
  | t :: ts, v :: vs => t.Holds v ∧ HoldsAll ts vs
  | _, _ => False

/-- A value of the type number `i`. -/
def HoldsAt : List Ty → ℕ → Value → Prop
  | [], _, _ => False
  | t :: _, 0, v => t.Holds v
  | _ :: ts, i + 1, v => HoldsAt ts i v

end

mutual

/-- The default-constructed value. -/
def Ty.default : Ty → Value
  | .scalar size _ => .scalar (List.replicate size 0)
  | .string => .string []
  | .tuple ts => .tuple (defaults ts)
  | .optional _ => .absent
  | .variant ts => defaultVariant ts
  | .vector _ => .vector []
  | .map _ _ => .map []

def defaults : List Ty → List Value
  | [] => []
  | t :: ts => t.default :: defaults ts

/-- A variant starts with its first alternative. -/
def defaultVariant : List Ty → Value
  | [] => .valueless
  | t :: _ => .alternative 0 t.default

end

/-! ## Objects in memory -/

mutual

/-- `std::is_trivially_copyable_v`. -/
def Ty.triviallyCopyable : Ty → Bool
  | .scalar _ _ => true
  | .optional t => t.triviallyCopyable
  | .variant ts => allTriviallyCopyable ts
  | _ => false

def allTriviallyCopyable : List Ty → Bool
  | [] => true
  | t :: ts => t.triviallyCopyable && allTriviallyCopyable ts

end

/-- The least multiple of the alignment that is at least `n`. -/
def roundUp (n align : ℕ) : ℕ := (n + align - 1) / align * align

/-- The number of bytes of the index of a variant. -/
def indexSize (alternatives : ℕ) : ℕ := if alternatives < 256 then 1 else 2

/-- Where the index of a variant is: behind the union of the alternatives. -/
def indexOffset (maxSize maxAlign alternatives : ℕ) : ℕ :=
  roundUp (roundUp maxSize maxAlign) (indexSize alternatives)

mutual

/-- `alignof`, for trivially copyable types. -/
def Ty.align : Ty → ℕ
  | .scalar _ align => align
  | .optional t => t.align
  | .variant ts => max (maxAlign ts) (indexSize ts.length)
  | _ => 1

def maxAlign : List Ty → ℕ
  | [] => 1
  | t :: ts => max t.align (maxAlign ts)

end

mutual

/-- `sizeof`, for trivially copyable types. -/
def Ty.size : Ty → ℕ
  | .scalar size _ => size
  | .optional t => roundUp (t.size + 1) t.align
  | .variant ts =>
    roundUp (indexOffset (maxSize ts) (maxAlign ts) ts.length + indexSize ts.length)
      (max (maxAlign ts) (indexSize ts.length))
  | _ => 0

def maxSize : List Ty → ℕ
  | [] => 0
  | t :: ts => max t.size (maxSize ts)

end

mutual

/-- The object of a trivially copyable type with these bytes. -/
def Ty.load : Ty → List UInt8 → Value
  | .scalar size _, bs => .scalar (bs.take size)
  | .optional t, bs => if bs.getD t.size 0 = 0 then .absent else .present (t.load bs)
  | .variant ts, bs =>
    let index := ofLE ((bs.drop (indexOffset (maxSize ts) (maxAlign ts) ts.length)).take
      (indexSize ts.length))
    match loadAt ts index bs with
    | some v => .alternative index v
    | none => .valueless
  | _, _ => .valueless

/-- The object of the type number `i`, if there is one. -/
def loadAt : List Ty → ℕ → List UInt8 → Option Value
  | [], _, _ => none
  | t :: _, 0, bs => some (t.load bs)
  | _ :: ts, i + 1, bs => loadAt ts i bs

end

/-! ## Writing -/

section Writing

variable {σ : Type}

mutual

/-- Go through a value and `write` its parts, as the `serialize` overloads do. The output is a
size in the first pass and a buffer in the second. -/
def serialize (write : σ → List UInt8 → σ) : Value → σ → σ
  | .scalar bytes, s => write s bytes
  | .string bytes, s => write (write s (toLE 8 bytes.length)) bytes
  | .tuple vs, s => serializeAll write vs s
  | .absent, s => write s [0]
  | .present v, s => serialize write v (write s [1])
  | .alternative index v, s => serialize write v (write s (toLE 8 index))
  -- `std::visit` throws here: no type holds this value
  | .valueless, s => s
  | .vector vs, s => serializeAll write vs (write s (toLE 8 vs.length))
  | .map es, s => serializeAll write es (write s (toLE 8 es.length))

/-- Go through several values. -/
def serializeAll (write : σ → List UInt8 → σ) : List Value → σ → σ
  | [], s => s
  | v :: vs, s => serializeAll write vs (serialize write v s)

end

/-- `OpSize`: advance the destination. -/
def writeSize (dst : ℕ) (src : List UInt8) : ℕ := dst + src.length

/-- `OpWrite`: copy to the destination and advance it. -/
def writeBytes (s : List UInt8 × ℕ) (src : List UInt8) : List UInt8 × ℕ :=
  (s.1.take s.2 ++ src ++ s.1.drop (s.2 + src.length), s.2 + src.length)

/-- The buffer with the values, one after the other. -/
def serializeToBuffer (vs : List Value) : List UInt8 :=
  let size := serializeAll writeSize vs 0
  (serializeAll writeBytes vs (List.replicate size 0, 0)).1

end Writing

/-! ## Reading -/

/-- A `SerializationError` with its text. -/
structure SerializationError where
  message : String
  deriving DecidableEq, Repr

/-- The error of `Deserializer::eod`. -/
def eod : SerializationError := ⟨"Deserializer: reached end of data"⟩

/-- The error of `deserializeBuffer` when bytes are left. -/
def trailingBytes (n : ℕ) : SerializationError := ⟨s!"deserializeBuffer: {n} trailing bytes"⟩

/-- `read<size_t>`. -/
def readSize : Reader SerializationError ℕ := ofLE <$> Reader.take eod 8

/-- The built-in `read` of a trivially copyable type: copy it as it lies in memory. -/
def Ty.readTrivial (t : Ty) : Reader SerializationError Value := t.load <$> Reader.take eod t.size

/-- `emplace`: a key that is there already stays as it is. -/
def emplace (es : List Value) (k v : Value) : List Value :=
  if k ∈ es.map Value.key then es else es ++ [.tuple [k, v]]

/-- The loop of `serializeMap`. -/
def readEntries (readKey readMapped : Reader SerializationError Value) :
    ℕ → List Value → Reader SerializationError (List Value)
  | 0, es => pure es
  | n + 1, es => do
    let k ← readKey
    let v ← readMapped
    readEntries readKey readMapped n (emplace es k v)

/-- The objects of an array in memory. -/
def loadArray (t : Ty) (n : ℕ) (bs : List UInt8) : List Value :=
  (List.range n).map fun i => t.load ((bs.drop (i * t.size)).take t.size)

/-- The bytes of the trivially copyable types at the front: `trivialBytes`. -/
def trivialBytes : List Ty → ℕ
  | [] => 0
  | t :: ts => if t.triviallyCopyable then t.size + trivialBytes ts else 0

/-- Fail if fewer than `n` bytes are left. -/
def ensure (n : ℕ) : Reader SerializationError Unit := fun bs =>
  if bs.length < n then .error eod else .ok ((), bs)

mutual

/-- `Deserialize::operator()` with one argument. The free `serialize` overloads come before the
built-in `read`. -/
def Ty.read : Ty → Reader SerializationError Value
  | .scalar size align => (Ty.scalar size align).readTrivial
  | .string => do
    let len ← readSize
    Value.string <$> Reader.take eod len
  | .tuple ts => Value.tuple <$> readMany ts
  | .optional t => do
    let flag ← Reader.take eod 1
    if flag = [0] then return .absent else Value.present <$> t.read
  | .variant ts => do
    let index ← readSize
    readAt ts index index (defaultVariant ts)
  | .vector t =>
    if t.triviallyCopyable then do
      let n ← readSize
      (fun bs => Value.vector (loadArray t n bs)) <$> Reader.take eod (t.size * n)
    else do
      let n ← readSize
      Value.vector <$> t.read.repeat n
  | .map key mapped => do
    -- `read<T>`, where the built-in `read` comes before the free overloads
    let readKey := if key.triviallyCopyable then key.readTrivial else key.read
    let readMapped := if mapped.triviallyCopyable then mapped.readTrivial else mapped.read
    let n ← readSize
    Value.map <$> readEntries readKey readMapped n []

/-- `deserializeVariantHelper`: an index that names no alternative leaves the variant as it is. -/
def readAt : List Ty → ℕ → ℕ → Value → Reader SerializationError Value
  | [], _, _, unchanged => return unchanged
  | t :: _, 0, index, _ => Value.alternative index <$> t.read
  | _ :: ts, i + 1, index, unchanged => readAt ts i index unchanged

/-- `Deserialize::operator()` with any number of arguments. Trivially copyable arguments at the
front are copied together, unless there is one argument only. -/
def readMany : List Ty → Reader SerializationError (List Value)
  | [] => return []
  | t :: ts =>
    if ts.isEmpty then do
      let v ← t.read
      return [v]
    else if t.triviallyCopyable then do
      ensure (trivialBytes (t :: ts))
      let v ← t.readTrivial
      let vs ← trivialCopy ts
      return v :: vs
    else do
      let v ← t.read
      let vs ← readMany ts
      return v :: vs

/-- The arguments after a trivially copyable one: `trivialCopy`. -/
def trivialCopy : List Ty → Reader SerializationError (List Value)
  | [] => return []
  | t :: ts =>
    if t.triviallyCopyable then do
      let v ← t.readTrivial
      let vs ← trivialCopy ts
      return v :: vs
    else do
      let v ← t.read
      let vs ← readMany ts
      return v :: vs

end

/-- Read the values of the given types, and return what is left. -/
def deserializeBufferPart (ts : List Ty) (data : List UInt8) :
    Except SerializationError (List Value × List UInt8) := (readMany ts).run data

/-- Read the values of the given types, and fail if bytes are left. -/
def deserializeBuffer (ts : List Ty) (data : List UInt8) :
    Except SerializationError (List Value) := do
  let (vs, rest) ← (readMany ts).run data
  if rest.length ≠ 0 then throw (trailingBytes rest.length) else return vs

end Serialization
