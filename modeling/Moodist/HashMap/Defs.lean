import Moodist.Foundation.Slots

/-!
# `HashMap`

The hash map of `src/core/hash_map.h`: two open-addressed tables of the same size. A key
whose home slot of the primary table is free is stored there; a key that collides is stored
in the secondary table at or after its home slot, and the primary entry records in `size`
how far its chain reaches.

`tryEmplace` grows the tables by rebuilding them with itself, so it is written with fuel.
A slot that is free (`none`, minus one, in the source) is `none` here. Tables can be
allocated at every size, so the only failures are `rehash` of a size it refuses and an
`erase` that reads an entry which is not there.
-/

namespace Moodist

open Foundation Slots
open Function (update)

universe u v

/-- An entry of the primary table; `size` is how far its chain reaches in the secondary
table. -/
structure PrimaryItem (κ : Type u) (ν : Type v) where
  key : κ
  value : ν
  size : ℕ
  deriving DecidableEq, Repr

/-- An entry of the secondary table; `index` is its home slot in the primary table. -/
structure SecondaryItem (κ : Type u) (ν : Type v) where
  key : κ
  value : ν
  index : ℕ
  deriving DecidableEq, Repr

structure HashMap (κ : Type u) (ν : Type v) where
  ksize : ℕ := 0
  msize : ℕ := 0
  /-- The tables have been allocated. -/
  allocated : Bool := false
  primary : ℕ → Option (PrimaryItem κ ν) := fun _ => none
  secondary : ℕ → Option (SecondaryItem κ ν) := fun _ => none

namespace HashMap

/-- An iterator; `vi` is `none` at an entry of the primary table, and `v` tells whether the
pointer to the value is not null. -/
structure Iterator where
  ki : ℕ
  vi : Option ℕ
  v : Bool
  deriving DecidableEq, Repr

variable {κ : Type u} {ν : Type v} [DecidableEq κ]

/-- The home slot of a key in a table of `bs` slots. -/
def slot (hash : κ → UInt64) (bs : ℕ) (key : κ) : ℕ :=
  (hash key * 0x9E3779B97F4A7C15).toNat * bs / 2 ^ 64

/-- The slot holds `key`, as an entry of the chain of slot `ki` (the lambda `equal`). -/
def equal (m : HashMap κ ν) (ki : ℕ) (key : κ) (j : ℕ) : Bool :=
  (m.secondary j).any fun sv => sv.index = ki ∧ sv.key = key

/-- The slots of a chain are looked at one after another, from the home slot on; the source
unrolls this loop by four. -/
def findSlowPath (m : HashMap κ ν) (ki size : ℕ) (key : κ) : Iterator :=
  match (List.range size).find? fun d => m.equal ki key ((ki + d) % m.ksize) with
  | some d => ⟨ki, some ((ki + d) % m.ksize), true⟩
  | none => ⟨ki, some ((ki + size) % m.ksize), false⟩

def end' : Iterator := ⟨0, some 0, false⟩

def find (hash : κ → UInt64) (m : HashMap κ ν) (key : κ) : Iterator :=
  if m.allocated then
    let ki := slot hash m.ksize key
    match m.primary ki with
    | none => ⟨ki, none, false⟩
    | some pv =>
      if pv.key = key then ⟨ki, none, true⟩
      else if pv.size = 0 then ⟨ki, some ki, false⟩
      else m.findSlowPath ki pv.size key
  else end'

def entry (m : HashMap κ ν) (i : Iterator) : Option (κ × ν) :=
  if i.v then
    match i.vi with
    | none => (m.primary i.ki).map fun pv => (pv.key, pv.value)
    | some vi => (m.secondary vi).map fun sv => (sv.key, sv.value)
  else none

/-- What `find` gives for a key: the value it points to, `none` for `end()`. -/
def get (hash : κ → UInt64) (m : HashMap κ ν) (key : κ) : Option ν :=
  (m.entry (m.find hash key)).map Prod.snd

/-- Where `tryEmplace` puts a key that is not in the map, `i` being what `find` gave for it;
`none` when it asks for larger tables first (the label `expand`). -/
def place (itemSize : ℕ) (m : HashMap κ ν) (i : Iterator) (key : κ) (value : ν) :
    Option (HashMap κ ν × Iterator) :=
  match i.vi, m.primary i.ki with
  | none, _ =>
    some ({ m with
      msize := m.msize + 1
      primary := update m.primary i.ki (some ⟨key, value, 0⟩) }, ⟨i.ki, none, true⟩)
  | some vi, some pv =>
    if m.ksize < 1024 * 1024 / itemSize ∧ m.ksize < m.msize * 4 then none
    else (freeFrom m.secondary m.ksize vi).bind fun d =>
      let s := pv.size + 1 + d
      let index := (vi + d) % m.ksize
      if (4 ≤ s ∧ m.ksize < 1024 * 1024 * 4 / itemSize) ∨ m.ksize / 2 ≤ s then none
      else some ({ m with
        msize := m.msize + 1
        primary := update m.primary i.ki (some { pv with size := s })
        secondary := update m.secondary index (some ⟨key, value, i.ki⟩) },
        ⟨i.ki, some index, true⟩)
  | some _, none => none

/-- The entries, in the order in which `rehash` moves them. -/
def entries (m : HashMap κ ν) : List (κ × ν) :=
  (Slots.entries m.primary m.ksize).map (fun pv => (pv.key, pv.value)) ++
    (Slots.entries m.secondary m.ksize).map (fun sv => (sv.key, sv.value))

/-- What `try_emplace` gives: the map, the iterator and whether the key was inserted. -/
abbrev Emplaced (κ : Type u) (ν : Type v) := HashMap κ ν × Iterator × Bool

/-- `rehash`, with `insert` for the calls of `try_emplace` that move the entries. A size
that is not a power of two aborts; so does zero here, for which the source would go on with
tables that have no slot to read. -/
def rehashWith (insert : HashMap κ ν → κ → ν → Option (Emplaced κ ν)) (m : HashMap κ ν)
    (newBs : ℕ) : Option (HashMap κ ν) :=
  if newBs &&& (newBs - 1) ≠ 0 ∨ newBs = 0 then none
  else m.entries.foldlM (fun t e => (insert t e.1 e.2).map Prod.fst)
    { ksize := newBs, allocated := true }

/-- The loop of `reserve`: double `bs` until it is at least `n`. -/
def grow (n : ℕ) : ℕ → ℕ → ℕ
  | 0, bs => bs
  | k + 1, bs => if bs < n then grow n k (bs * 2) else bs

/-- The size of the tables that `reserve` asks for. -/
def reserveSize (m : HashMap κ ν) (n : ℕ) : ℕ :=
  grow n n (if m.ksize = 0 then 1 else m.ksize)

/-- `try_emplace`. After it has grown the tables the source looks the key up again and goes
on with `place`; the checks before that do not fail the second time. -/
def tryEmplace (hash : κ → UInt64) (itemSize : ℕ) :
    ℕ → HashMap κ ν → κ → ν → Option (Emplaced κ ν)
  | 0, _, _, _ => none
  | fuel + 1, m, key, value =>
    let resize := fun n =>
      (rehashWith (tryEmplace hash itemSize fuel) m (m.reserveSize n)).bind fun m' =>
        tryEmplace hash itemSize fuel m' key value
    if m.allocated then
      let i := m.find hash key
      if i.v then some (m, i, false)
      else if m.ksize < m.msize + 1 then resize (m.msize + 1)
      else
        match m.place itemSize i key value with
        | some (m', i') => some (m', i', true)
        | none => resize (m.ksize + 1)
    else resize 16

def rehash (hash : κ → UInt64) (itemSize fuel : ℕ) (m : HashMap κ ν) (newBs : ℕ) :
    Option (HashMap κ ν) :=
  rehashWith (tryEmplace hash itemSize fuel) m newBs

/-- `reserve`; for a size beyond the maximum it throws and leaves the map as it is. -/
def reserve (hash : κ → UInt64) (itemSize fuel : ℕ) (m : HashMap κ ν) (n : ℕ) :
    Option (HashMap κ ν) :=
  if (2 ^ 64 - 1) / 2 ≤ n then some m
  else m.rehash hash itemSize fuel (m.reserveSize n)

/-! ## Iterators -/

/-- The first entry of the secondary table at or after slot `a`, with what `ki` becomes
there. -/
def secondaryFrom (m : HashMap κ ν) (ki : SecondaryItem κ ν → ℕ) (a : ℕ) : Iterator :=
  match firstFrom m.secondary m.ksize a with
  | some j => ⟨(m.secondary j).elim 0 ki, some j, true⟩
  | none => end'

def begin (m : HashMap κ ν) : Iterator :=
  if m.allocated then
    match firstFrom m.primary m.ksize 0 with
    | some k => ⟨k, none, true⟩
    | none =>
      match firstFrom m.secondary m.ksize 0 with
      | some j => ⟨j, some j, true⟩
      | none => end'
  else end'

/-- `operator++`. On the way into the secondary table `ki` becomes the home slot of the
entry; inside the secondary table it stays as it is. -/
def next (m : HashMap κ ν) (i : Iterator) : Iterator :=
  match i.vi with
  | none =>
    match firstFrom m.primary m.ksize (i.ki + 1) with
    | some k => ⟨k, none, true⟩
    | none => m.secondaryFrom SecondaryItem.index 0
  | some vi => m.secondaryFrom (fun _ => i.ki) (vi + 1)

/-- How far the chain of slot `ki` reaches once it is at most `s`: the loop that steps back
over slots of other chains. -/
def shrink (secondary : ℕ → Option (SecondaryItem κ ν)) (ksize ki : ℕ) : ℕ → ℕ
  | 0 => 0
  | s + 1 =>
    if (secondary ((ki + s) % ksize)).any fun sv => sv.index = ki then s + 1
    else shrink secondary ksize ki s

/-- `erase(iterator)`, with the iterator it returns. An entry of the primary table with a
chain is replaced by the last entry of its chain, and so is an entry of the secondary table.
`none` where the source would read an entry that is not there, or take one from a chain
length of zero. -/
def eraseAt (m : HashMap κ ν) (i : Iterator) : Option (HashMap κ ν × Iterator) :=
  (m.primary i.ki).bind fun pv =>
  match i.vi with
  | none =>
    if pv.size = 0 then
      some ({ m with
        msize := m.msize - 1
        primary := update m.primary i.ki none }, m.next i)
    else
      let index := (i.ki + (pv.size - 1)) % m.ksize
      (m.secondary index).map fun sv =>
        let secondary := update m.secondary index none
        ({ m with
          msize := m.msize - 1
          primary := update m.primary i.ki
            (some ⟨sv.key, sv.value, shrink secondary m.ksize i.ki (pv.size - 1)⟩)
          secondary := secondary }, i)
  | some vi =>
    if pv.size = 0 then none
    else
      let lastIndex := (i.ki + (pv.size - 1)) % m.ksize
      (m.secondary vi).bind fun sv => (m.secondary lastIndex).map fun lv =>
        let moved := update m.secondary vi
          (some { sv with key := lv.key, value := lv.value })
        let secondary := update moved lastIndex none
        ({ m with
          msize := m.msize - 1
          primary := update m.primary i.ki
            (some { pv with size := shrink secondary m.ksize i.ki (pv.size - 1) })
          secondary := secondary }, if lastIndex = vi then m.next i else i)

/-- `erase(key)`. -/
def erase (hash : κ → UInt64) (m : HashMap κ ν) (key : κ) : Option (HashMap κ ν) :=
  let i := m.find hash key
  if i.v then (m.eraseAt i).map Prod.fst else some m

/-- Writing through the reference to the value of an entry. -/
def write (m : HashMap κ ν) (i : Iterator) (value : ν) : HashMap κ ν :=
  match i.vi with
  | none =>
    let item := (m.primary i.ki).map fun pv => { pv with value := value }
    { m with primary := update m.primary i.ki item }
  | some vi =>
    let item := (m.secondary vi).map fun sv => { sv with value := value }
    { m with secondary := update m.secondary vi item }

/-! ## Sequences of operations -/

/-- An operation of a client. `assign key initial value` is `map[key] = value`, where
`initial` is the value that `operator[]` makes for a key that is not there yet. -/
inductive Op (κ : Type u) (ν : Type v) where
  | find (key : κ)
  | tryEmplace (key : κ) (value : ν)
  | assign (key : κ) (initial value : ν)
  | erase (key : κ)
  | reserve (n : ℕ)
  | rehash (newBs : ℕ)

def step (hash : κ → UInt64) (itemSize fuel : ℕ) (m : HashMap κ ν) :
    Op κ ν → Option (HashMap κ ν)
  | .find _ => some m
  | .tryEmplace key value => (tryEmplace hash itemSize fuel m key value).map Prod.fst
  | .assign key initial value =>
    (tryEmplace hash itemSize fuel m key initial).map fun r => r.1.write r.2.1 value
  | .erase key => m.erase hash key
  | .reserve n => m.reserve hash itemSize fuel n
  | .rehash newBs => m.rehash hash itemSize fuel newBs

/-- The operations one after another on a map that starts empty. -/
def run (hash : κ → UInt64) (itemSize fuel : ℕ) (ops : List (Op κ ν)) :
    Option (HashMap κ ν) :=
  ops.foldlM (step hash itemSize fuel) {}

end HashMap

end Moodist
