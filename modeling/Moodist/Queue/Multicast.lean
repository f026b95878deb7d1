import Mathlib

/-!
# Queues with several locations

Model of the construction of a queue with a list of locations, of `put`, `queuePrepare`,
`queueFinish`, `transferQueuedItems` and `qsAdd` of `core/queue.cc`, and of the messages between the
ranks. A put goes to the first location, which sends what it adds to the others. It does so only if
its storage says that the queue is multicast, and only the constructor of that rank says so, in
assignments without the lock: with a name, other ranks create the storage and put into it at any
time; without one, they may still do so between the barrier and the assignments.

Messages from one rank to another arrive in order. Small tensors come with the message, others are
read, and the reads complete in any order.

Main definitions: `step`, for the code; `Timely`, the condition on a step; `forward`, what `qsAdd`
does with a storage that is ready; `Correct`. Main result: `runCorrect_of_timely`.
-/

namespace Multicast

open List Option
open Function (update)

/-! ## Storages and messages -/

variable {α : Type*}

/-- The arguments of the constructor, the same on all ranks. It rejects an empty list and one that
names a rank twice. -/
structure Config where
  size : ℕ
  named : Bool
  first : ℕ
  others : List ℕ
  nodup : (first :: others).Nodup

def Config.locations (cfg : Config) : List ℕ := cfg.first :: cfg.others

/-- A tensor, with the rank that put it. -/
structure Item (α : Type*) where
  rank : ℕ
  tensor : α
  deriving DecidableEq, Repr

/-- An item that has been announced. -/
structure Entry (α : Type*) where
  item : Item α
  key : ℕ
  ready : Bool
  deriving DecidableEq, Repr

/-- `added` is all that has been pushed to the vector. The address of the storage of a rank stands
for the rank. -/
structure Storage (α : Type*) where
  isMulticast : Bool
  multicastLocations : List ℕ
  multicastRemoteAddresses : List ℕ
  incoming : ℕ → List (Entry α)
  nextKey : ℕ
  added : List (Item α)

open Storage

/-- `created` counts the locations for which the constructor of a rank has got an address,
`assigned` its assignments to the storage, and `messages` are those from a rank to another. -/
structure State (α : Type*) where
  created : ℕ → ℕ
  assigned : ℕ → ℕ
  storage : ℕ → Storage α
  messages : ℕ × ℕ → List (Item α)
  puts : ℕ → List α

open State

def init : State α where
  created _ := 0
  assigned _ := 0
  storage _ := ⟨false, [], [], fun _ => [], 0, []⟩
  messages _ := []
  puts _ := []

def State.setStorage (w : State α) (r : ℕ) (qs : Storage α) : State α :=
  { w with storage := update w.storage r qs }

def State.send (w : State α) (src dst : ℕ) (x : Item α) : State α :=
  { w with messages := update w.messages (src, dst) (w.messages (src, dst) ++ [x]) }

def Storage.setIncoming (qs : Storage α) (source : ℕ) (items : List (Entry α)) : Storage α :=
  { qs with incoming := update qs.incoming source items }

def State.push (w : State α) (r : ℕ) (x : Item α) : State α :=
  w.setStorage r { w.storage r with added := (w.storage r).added ++ [x] }

/-- `none` is an access beyond the end of the vector of addresses. -/
def sendAll (r : ℕ) (x : Item α) : List ℕ → List ℕ → State α → Option (State α)
  | [], _, w => some w
  | location :: locations, addresses, w =>
    if location = r then
      sendAll r x locations addresses.tail w
    else
      match addresses with
      | [] => none
      | address :: addresses => sendAll r x locations addresses (w.send r address x)

/-- Add an item to the storage of a rank; the first location sends it to the others. -/
def qsAdd (w : State α) (r : ℕ) (x : Item α) : Option (State α) :=
  let qs := w.storage r
  if qs.isMulticast then
    match qs.multicastLocations with
    | [] => none
    | location :: _ =>
      if r = location then
        (sendAll r x qs.multicastLocations qs.multicastRemoteAddresses w).map fun w => w.push r x
      else
        some (w.push r x)
  else
    some (w.push r x)

def transferQueuedItems (r source : ℕ) : List (Entry α) → State α → Option (State α)
  | [], w => some (w.setStorage r ((w.storage r).setIncoming source []))
  | x :: items, w =>
    if x.ready then
      (qsAdd w r x.item).bind (transferQueuedItems r source items)
    else
      some (w.setStorage r ((w.storage r).setIncoming source (x :: items)))

def markReady (key : ℕ) : List (Entry α) → List (Entry α)
  | [] => []
  | v :: items =>
    if v.key = key then { v with ready := true } :: items else v :: markReady key items

/-- `none` is a failed check, here and below. -/
def queueFinish (w : State α) (r source key : ℕ) : Option (State α) :=
  match (w.storage r).incoming source with
  | [] => none
  | x :: items =>
    if x.key = key then
      (qsAdd w r x.item).bind (transferQueuedItems r source items)
    else if key ∈ items.map Entry.key then
      some (w.setStorage r ((w.storage r).setIncoming source (markReady key (x :: items))))
    else
      none

def queuePrepare (w : State α) (r source : ℕ) (x : Item α) : ℕ × State α :=
  let qs := w.storage r
  (qs.nextKey, w.setStorage r { qs.setIncoming source
    (qs.incoming source ++ [⟨x, qs.nextKey, false⟩]) with nextKey := qs.nextKey + 1 })

/-! ## What can happen -/

inductive Label (α : Type*) where
  /-- The constructor of a rank gets the address of the next location. -/
  | create (r : ℕ)
  /-- The constructor of a rank makes the next of its assignments to the storage. -/
  | construct (r : ℕ)
  | put (r : ℕ) (x : α)
  /-- A message arrives; `inlined` if the tensor is in it. -/
  | receive (src dst : ℕ) (inlined : Bool)
  /-- A read completes. -/
  | finish (r source key : ℕ)

/-- Without a name, all ranks create the storages together and wait for each other at the end. -/
def State.canCreate (cfg : Config) (w : State α) (r : ℕ) : Prop :=
  w.created r < cfg.locations.length ∧
    (cfg.named = true ∨ ∀ s < cfg.size, w.created r ≤ w.created s)

def State.canConstruct (cfg : Config) (w : State α) (r : ℕ) : Prop :=
  w.assigned r < 3 ∧ w.created r = cfg.locations.length ∧
    (cfg.named = true ∨ ∀ s < cfg.size, w.created s = cfg.locations.length)

instance State.decidableCanCreate (cfg : Config) (w : State α) (r : ℕ) :
    Decidable (w.canCreate cfg r) := by
  unfold State.canCreate
  infer_instance

instance State.decidableCanConstruct (cfg : Config) (w : State α) (r : ℕ) :
    Decidable (w.canConstruct cfg r) := by
  unfold State.canConstruct
  infer_instance

/-- The end of the constructor. `isMulticastLocal`, which it sets second, is not read. -/
def construct (cfg : Config) (w : State α) (r : ℕ) : State α :=
  { w.setStorage r (match w.assigned r with
      | 0 => { w.storage r with isMulticast := true }
      | 1 => { w.storage r with multicastLocations := cfg.locations }
      | _ => { w.storage r with multicastRemoteAddresses := cfg.locations }) with
    assigned := update w.assigned r (w.assigned r + 1) }

def put (cfg : Config) (w : State α) (r : ℕ) (x : α) : State α :=
  { w.send r cfg.first ⟨r, x⟩ with puts := update w.puts r (w.puts r ++ [x]) }

def onRecvQueuePut (w : State α) (src dst : ℕ) (inlined : Bool) (x : Item α) : Option (State α) :=
  let a := queuePrepare w dst src x
  if inlined then queueFinish a.2 dst src a.1 else some a.2

def State.takeMessage (w : State α) (src dst : ℕ) (rest : List (Item α)) : State α :=
  { w with messages := update w.messages (src, dst) rest }

def State.reading (w : State α) (r source key : ℕ) : Prop :=
  ∃ v ∈ (w.storage r).incoming source, v.key = key ∧ v.ready = false

def Label.Enabled (cfg : Config) (w : State α) : Label α → Prop
  | .create r => r < cfg.size ∧ w.canCreate cfg r
  | .construct r => r < cfg.size ∧ w.canConstruct cfg r
  | .put r _ => w.assigned r = 3
  | .receive src dst _ => w.messages (src, dst) ≠ []
  | .finish r source key => w.reading r source key

def step (cfg : Config) (w : State α) : Label α → Option (State α)
  | .create r => some { w with created := update w.created r (w.created r + 1) }
  | .construct r => some (construct cfg w r)
  | .put r x => some (put cfg w r x)
  | .receive src dst inlined =>
    match w.messages (src, dst) with
    | [] => none
    | x :: rest => onRecvQueuePut (w.takeMessage src dst rest) src dst inlined x
  | .finish r source key => queueFinish w r source key

/-- A run, with the states before each step. -/
inductive Run (cfg : Config) : State α → List (State α × Label α) → State α → Prop
  | nil (w) : Run cfg w [] w
  | cons {w w₁ w' : State α} {l : Label α} {steps} (hen : l.Enabled cfg w)
      (h : step cfg w l = some w₁) (hrun : Run cfg w₁ steps w') :
      Run cfg w ((w, l) :: steps) w'

/-! ## What a run should do -/

/-- The storage of a rank can be added to: its constructor has not begun to make it multicast, or
has filled in the locations; and where there are others to send to, it has done all its
assignments. -/
structure Storage.Ready (cfg : Config) (r : ℕ) (qs : Storage α) : Prop where
  locations : qs.isMulticast = true → qs.multicastLocations = cfg.locations
  first : r = cfg.first → cfg.others ≠ [] →
    qs.isMulticast = true ∧ qs.multicastRemoteAddresses = cfg.locations

/-- When a tensor is complete at a rank, the storage of the rank is ready. -/
def Timely (cfg : Config) (w : State α) : Label α → Prop
  | .receive _ dst inlined => inlined = true → (w.storage dst).Ready cfg dst
  | .finish r _ _ => (w.storage r).Ready cfg r
  | _ => True

def State.underWay (w : State α) (source r : ℕ) : List (Item α) :=
  ((w.storage r).incoming source).map Entry.item ++ w.messages (source, r)

def State.Quiet (cfg : Config) (w : State α) : Prop :=
  (∀ src dst inlined, ¬ (Label.receive src dst inlined : Label α).Enabled cfg w) ∧
    ∀ r source key, ¬ (Label.finish r source key : Label α).Enabled cfg w

/-- Each put has been added by the first location or is on its way there, in the order of the rank;
what the first location has added, every other one has added or will, in the same order; no
check fails, whatever happens next in time; and nothing is on its way for ever. -/
structure Correct (cfg : Config) (w : State α) : Prop where
  once : ∀ r, (w.storage cfg.first).added.filter (fun x => x.rank = r) ++ w.underWay r cfg.first =
    (w.puts r).map (Item.mk r)
  order : ∀ location ∈ cfg.others, (w.storage location).added ++ w.underWay cfg.first location =
    (w.storage cfg.first).added
  checks : ∀ l : Label α, l.Enabled cfg w → Timely cfg w l → (step cfg w l).isSome
  arrive : w.Quiet cfg → ∀ source r, w.underWay source r = []

/-! ## What a step changes -/

section Steps

variable {cfg : Config} {w w' w'' : State α} {r source : ℕ} {moved : List (Item α)}
  {items : List (Entry α)}

theorem setStorage_same (w : State α) (r : ℕ) (qs : Storage α) :
    (w.setStorage r qs).storage r = qs := by
  simp [setStorage]

theorem setStorage_ne (w : State α) {r s : ℕ} (hs : s ≠ r) (qs : Storage α) :
    (w.setStorage r qs).storage s = w.storage s := by
  simp [setStorage, hs]

/-- What the new storage of a rank has kept is the same for all ranks. -/
theorem setStorage_congr {β : Type*} (f : Storage α → β) (w : State α) (r : ℕ) (qs : Storage α)
    (h : f qs = f (w.storage r)) (s : ℕ) : f ((w.setStorage r qs).storage s) = f (w.storage s) := by
  by_cases hs : s = r
  · rw [hs, setStorage_same, h]
  · rw [setStorage_ne w hs]

theorem setIncoming_incoming (w : State α) (r source : ℕ) (items : List (Entry α)) (s d : ℕ) :
    ((w.setStorage r ((w.storage r).setIncoming source items)).storage d).incoming s =
      if s = source ∧ d = r then items else (w.storage d).incoming s := by
  by_cases hd : d = r
  · rw [hd, setStorage_same, setIncoming]
    by_cases hs : s = source <;> simp [hs]
  · rw [setStorage_ne w hd]
    simp [hd]

theorem send_messages (w : State α) (src dst : ℕ) (x : Item α) (s d : ℕ) :
    (w.send src dst x).messages (s, d) =
      w.messages (s, d) ++ if s = src ∧ d = dst then [x] else [] := by
  by_cases h : s = src ∧ d = dst
  · obtain ⟨rfl, rfl⟩ := h
    simp [send]
  · have hne : (s, d) ≠ (src, dst) := fun heq => h (Prod.mk.inj heq)
    rw [if_neg h, append_nil]
    exact Function.update_of_ne hne _ _

/-- Whether what a rank adds goes from `src` to `dst`. -/
def forwards (cfg : Config) (r src dst : ℕ) : Prop :=
  r = cfg.first ∧ src = cfg.first ∧ dst ∈ cfg.others

instance decidableForwards (cfg : Config) (r src dst : ℕ) : Decidable (forwards cfg r src dst) := by
  unfold forwards
  infer_instance

/-- A rank adds items, and sends them on if it should. -/
structure Adds (cfg : Config) (r : ℕ) (moved : List (Item α)) (w w' : State α) : Prop where
  added : ∀ s, (w'.storage s).added = (w.storage s).added ++ if s = r then moved else []
  messages : ∀ src dst, w'.messages (src, dst) =
    w.messages (src, dst) ++ if forwards cfg r src dst then moved else []
  incoming : ∀ s, s ≠ r → (w'.storage s).incoming = (w.storage s).incoming
  puts : w'.puts = w.puts

theorem Adds.trans {xs ys : List (Item α)} (h : Adds cfg r xs w w') (h' : Adds cfg r ys w' w'') :
    Adds cfg r (xs ++ ys) w w'' where
  added s := by
    rw [h'.added, h.added]
    split_ifs <;> simp
  messages src dst := by
    rw [h'.messages, h.messages]
    split_ifs <;> simp
  incoming s hs := (h'.incoming s hs).trans (h.incoming s hs)
  puts := h'.puts.trans h.puts

theorem adds_setIncoming (w : State α) (r source : ℕ) (items : List (Entry α)) :
    Adds cfg r [] w (w.setStorage r ((w.storage r).setIncoming source items)) where
  added s := by
    rw [ite_self, append_nil]
    exact setStorage_congr added w r _ (by rfl) s
  messages src dst := by
    rw [ite_self, append_nil]
    rfl
  incoming s hs := by rw [setStorage_ne w hs]
  puts := rfl

theorem foldl_send (x : Item α) (l : List ℕ) (hl : l.Nodup) (w : State α) :
    (l.foldl (fun w location => w.send r location x) w).storage = w.storage ∧
    (l.foldl (fun w location => w.send r location x) w).puts = w.puts ∧
    ∀ src dst, (l.foldl (fun w location => w.send r location x) w).messages (src, dst) =
      w.messages (src, dst) ++ if src = r ∧ dst ∈ l then [x] else [] := by
  induction l generalizing w with
  | nil => simp
  | cons d l ih =>
    rw [nodup_cons] at hl
    obtain ⟨hstorage, hputs, hmessages⟩ := ih hl.2 (w.send r d x)
    refine ⟨hstorage, hputs, fun src dst => ?_⟩
    rw [foldl_cons, hmessages, send_messages]
    by_cases heq : src = r ∧ dst = d
    · obtain ⟨rfl, rfl⟩ := heq
      simp [hl.1]
    · have hiff : (src = r ∧ dst ∈ d :: l) ↔ (src = r ∧ dst ∈ l) := by
        rw [mem_cons]
        grind
      simp only [hiff, heq, if_false, append_nil]

theorem push_added (w : State α) (r : ℕ) (x : Item α) (s : ℕ) :
    ((w.push r x).storage s).added = (w.storage s).added ++ if s = r then [x] else [] := by
  by_cases hs : s = r
  · rw [hs, push, setStorage_same]
    simp
  · rw [push, setStorage_ne w hs]
    simp [hs]

theorem push_incoming (w : State α) (r : ℕ) (x : Item α) (s : ℕ) :
    ((w.push r x).storage s).incoming = (w.storage s).incoming := by
  rw [push]
  exact setStorage_congr incoming w r _ (by rfl) s

/-! ## A storage that is ready -/

/-- What `qsAdd` is for. -/
def forward (cfg : Config) (w : State α) (r : ℕ) (x : Item α) : State α :=
  (if r = cfg.first then cfg.others.foldl (fun w location => w.send r location x) w else w).push r x

theorem sendAll_eq {l : List ℕ} (hr : r ∉ l) (x : Item α) (w : State α) :
    sendAll r x l l w = some (l.foldl (fun w location => w.send r location x) w) := by
  induction l generalizing w with
  | nil => rfl
  | cons location l ih =>
    rw [mem_cons, not_or] at hr
    rw [sendAll, if_neg (Ne.symm hr.1)]
    exact ih hr.2 _

theorem sendAll_self (x : Item α) (locations addresses : List ℕ) (w : State α) :
    sendAll r x (r :: locations) addresses w = sendAll r x locations addresses.tail w := by
  cases addresses <;> exact if_pos rfl

theorem qsAdd_eq (hready : (w.storage r).Ready cfg r) (x : Item α) :
    qsAdd w r x = some (forward cfg w r x) := by
  have hmem : cfg.first ∉ cfg.others := (nodup_cons.mp cfg.nodup).1
  rw [qsAdd, forward]
  by_cases hmulticast : (w.storage r).isMulticast = true
  · rw [if_pos hmulticast, hready.locations hmulticast]
    simp only [Config.locations]
    split_ifs with hr
    · subst hr
      rw [sendAll_self]
      by_cases hothers : cfg.others = []
      · rw [hothers]
        rfl
      · rw [(hready.first rfl hothers).2, Config.locations, tail_cons, sendAll_eq hmem]
        rfl
    · rfl
  · rw [if_neg hmulticast]
    split_ifs with hr
    · have hothers : cfg.others = [] := by
        by_contra hne
        exact hmulticast (hready.first hr hne).1
      rw [hothers]
      rfl
    · rfl

theorem forward_spec (cfg : Config) (w : State α) (r : ℕ) (x : Item α) :
    (forward cfg w r x).storage = (w.push r x).storage ∧ Adds cfg r [x] w (forward cfg w r x) := by
  rw [forward]
  split_ifs with hr
  · obtain ⟨hstorage, hputs, hmessages⟩ := foldl_send x cfg.others (nodup_cons.mp cfg.nodup).2 w
    have hpush : ((cfg.others.foldl (fun w location => w.send r location x) w).push r x).storage =
        (w.push r x).storage := by
      rw [push, push, setStorage, setStorage, hstorage]
    refine ⟨hpush, fun s => ?_, fun src dst => ?_, fun s _ => ?_, hputs⟩
    · rw [hpush, push_added]
    · have hiff : forwards cfg r src dst ↔ src = r ∧ dst ∈ cfg.others := by
        rw [forwards, ← hr]
        exact and_iff_right rfl
      simp only [hiff]
      exact hmessages src dst
    · rw [hpush, push_incoming]
  · refine ⟨rfl, push_added w r x, fun src dst => ?_, fun s _ => push_incoming w r x s, rfl⟩
    rw [if_neg fun h => hr h.1, append_nil]
    rfl

theorem ready_forward (hready : (w.storage r).Ready cfg r) (x : Item α) :
    ((forward cfg w r x).storage r).Ready cfg r := by
  rw [(forward_spec cfg w r x).1, push, setStorage_same]
  exact ⟨hready.locations, hready.first⟩

/-- The item at the front of a list is added as soon as it is ready. -/
def Reading (items : List (Entry α)) : Prop := ∀ v ∈ items.head?, v.ready = false

/-- Items move from the list of a source to the storage. -/
structure Moves (cfg : Config) (r source : ℕ) (items : List (Entry α)) (moved : List (Item α))
    (w w' : State α) : Prop extends Adds cfg r moved w w' where
  moved : items.map Entry.item = moved ++ ((w'.storage r).incoming source).map Entry.item
  sources : ∀ s, s ≠ source → (w'.storage r).incoming s = (w.storage r).incoming s

theorem Moves.rest (w : State α) (r source : ℕ) (items : List (Entry α)) :
    Moves cfg r source items [] w (w.setStorage r ((w.storage r).setIncoming source items)) where
  toAdds := adds_setIncoming w r source items
  moved := by
    rw [setIncoming_incoming]
    simp
  sources s hs := by
    rw [setIncoming_incoming]
    simp [hs]

theorem Moves.cons {x : Entry α} {w' : State α}
    (h : Moves cfg r source items moved (forward cfg w r x.item) w') :
    Moves cfg r source (x :: items) (x.item :: moved) w w' where
  toAdds := (forward_spec cfg w r x.item).2.trans h.toAdds
  moved := by
    rw [map_cons, h.moved]
    rfl
  sources s hs := by
    rw [h.sources s hs, (forward_spec cfg w r x.item).1, push_incoming]

theorem transferQueuedItems_spec (items : List (Entry α)) (hready : (w.storage r).Ready cfg r) :
    ∃ w' moved, transferQueuedItems r source items w = some w' ∧
      Moves cfg r source items moved w w' ∧ Reading ((w'.storage r).incoming source) := by
  induction items generalizing w with
  | nil =>
    refine ⟨_, [], rfl, Moves.rest w r source [], ?_⟩
    rw [setIncoming_incoming, if_pos ⟨rfl, rfl⟩]
    exact nofun
  | cons x items ih =>
    rw [transferQueuedItems]
    -- up to the first item that is still being read
    split_ifs with hx
    · obtain ⟨w', moved, heq, hmoves, hfront⟩ := ih (ready_forward hready x.item)
      rw [qsAdd_eq hready, bind_some]
      exact ⟨w', x.item :: moved, heq, hmoves.cons, hfront⟩
    · refine ⟨_, [], rfl, Moves.rest w r source (x :: items), ?_⟩
      rw [setIncoming_incoming, if_pos ⟨rfl, rfl⟩]
      rintro v ⟨⟩
      exact Bool.eq_false_iff.mpr hx

theorem map_item_markReady (key : ℕ) (items : List (Entry α)) :
    (markReady key items).map Entry.item = items.map Entry.item := by
  induction items with
  | nil => rfl
  | cons v items ih =>
    rw [markReady]
    split_ifs
    · rfl
    · rw [map_cons, map_cons, ih]

variable {key src dst : ℕ}

theorem queueFinish_spec (hready : (w.storage r).Ready cfg r)
    (h : ∃ v ∈ (w.storage r).incoming source, v.key = key) :
    ∃ w' moved, queueFinish w r source key = some w' ∧
      Moves cfg r source ((w.storage r).incoming source) moved w w' ∧
      (Reading ((w.storage r).incoming source) → Reading ((w'.storage r).incoming source)) := by
  obtain ⟨v, hv, hkey⟩ := h
  rw [queueFinish]
  cases hitems : (w.storage r).incoming source with
  | nil =>
    rw [hitems] at hv
    exact absurd hv not_mem_nil
  | cons x items =>
    rw [hitems, mem_cons] at hv
    dsimp only
    split_ifs with hx hmem
    · obtain ⟨w', moved, heq, hmoves, hfront⟩ :=
        transferQueuedItems_spec items (ready_forward hready x.item)
      rw [qsAdd_eq hready, bind_some]
      exact ⟨w', x.item :: moved, heq, hmoves.cons, fun _ => hfront⟩
    · -- the item that becomes ready is behind the front
      have hmoves : Moves cfg r source (markReady key (x :: items)) [] w _ :=
        Moves.rest w r source (markReady key (x :: items))
      refine ⟨_, [], rfl, ⟨hmoves.toAdds, ?_, hmoves.sources⟩, fun hfront => ?_⟩
      · rw [← hmoves.moved, map_item_markReady]
      · rw [setIncoming_incoming, if_pos ⟨rfl, rfl⟩, markReady, if_neg hx]
        exact hfront
    · obtain rfl | hv := hv
      · exact absurd hkey hx
      · exact absurd (mem_map.mpr ⟨v, hv, hkey⟩) hmem

/-! ## Items and where they are -/

/-- What has been added and put, and what is under way. -/
@[ext]
structure View (α : Type*) where
  added : ℕ → List (Item α)
  underWay : ℕ → ℕ → List (Item α)
  puts : ℕ → List α

def State.view (w : State α) : View α := ⟨fun s => (w.storage s).added, w.underWay, w.puts⟩

/-- What a step does. -/
inductive Change (cfg : Config) (v v' : View α) : Prop
  | silent (h : v' = v)
  | put (r : ℕ) (x : α) (added : v'.added = v.added)
      (underWay : ∀ s d, v'.underWay s d =
        v.underWay s d ++ if s = r ∧ d = cfg.first then [⟨r, x⟩] else [])
      (puts : ∀ s, v'.puts s = v.puts s ++ if s = r then [x] else [])
  | move (r source : ℕ) (moved rest : List (Item α))
      (added : ∀ s, v'.added s = v.added s ++ if s = r then moved else [])
      (taken : v.underWay source r = moved ++ rest)
      (underWay : ∀ s d, v'.underWay s d =
        (if s = source ∧ d = r then rest else v.underWay s d) ++
          if forwards cfg r s d then moved else [])
      (puts : v'.puts = v.puts)

theorem Moves.change (h : Moves cfg r source ((w.storage r).incoming source) moved w w') :
    Change cfg w.view w'.view := by
  refine .move r source moved (((w'.storage r).incoming source).map Entry.item ++
    w.messages (source, r)) h.added ?_ ?_ h.puts
  · dsimp only [view]
    rw [underWay, h.moved, append_assoc]
  · intro s d
    dsimp only [view]
    rw [underWay, h.messages, ← append_assoc]
    congr 1
    split_ifs with hsd
    · rw [hsd.1, hsd.2]
    · rw [underWay]
      congr 2
      by_cases hd : d = r
      · rw [hd]
        exact h.sources s fun hs => hsd ⟨hs, hd⟩
      · rw [h.incoming d hd]

theorem queuePrepare_incoming (w : State α) (r source : ℕ) (x : Item α) (s d : ℕ) :
    ((queuePrepare w r source x).2.storage d).incoming s =
      if s = source ∧ d = r then
        (w.storage r).incoming source ++ [⟨x, (w.storage r).nextKey, false⟩]
      else (w.storage d).incoming s := by
  rw [← setIncoming_incoming, queuePrepare]
  by_cases hd : d = r
  · rw [hd, setStorage_same, setStorage_same]
  · rw [setStorage_ne w hd, setStorage_ne w hd]

/-- An item that has been announced is still under way. -/
theorem view_prepare {x : Item α} {rest : List (Item α)} (h : w.messages (src, dst) = x :: rest) :
    (queuePrepare (w.takeMessage src dst rest) dst src x).2.view = w.view := by
  refine View.ext (funext ?_) (funext fun s => funext fun d => ?_) rfl
  · exact setStorage_congr added (w.takeMessage src dst rest) dst _ rfl
  · show (_ : List (Item α)) ++ _ = w.underWay s d
    rw [queuePrepare_incoming]
    by_cases hsd : s = src ∧ d = dst
    · obtain ⟨rfl, rfl⟩ := hsd
      rw [if_pos ⟨rfl, rfl⟩, underWay, h]
      simp [queuePrepare, setStorage, takeMessage]
    · have hne : (s, d) ≠ (src, dst) := fun heq => hsd (Prod.mk.inj heq)
      rw [if_neg hsd, underWay]
      congr 1
      exact Function.update_of_ne hne rest w.messages

theorem ready_prepare {x : Item α} {rest : List (Item α)} (hready : (w.storage dst).Ready cfg dst) :
    ((queuePrepare (w.takeMessage src dst rest) dst src x).2.storage dst).Ready cfg dst := by
  rw [queuePrepare, setStorage_same]
  exact ⟨hready.locations, hready.first⟩

theorem construct_congr {β : Type*} (f : Storage α → β) (hf : ∀ qs : Storage α, ∀ b ls as,
    f { qs with isMulticast := b, multicastLocations := ls, multicastRemoteAddresses := as } = f qs)
    (w : State α) (r s : ℕ) : f ((construct cfg w r).storage s) = f (w.storage s) := by
  refine setStorage_congr f w r _ ?_ s
  split <;> exact hf (w.storage r) _ _ _

def State.FrontReading (w : State α) : Prop := ∀ source r, Reading ((w.storage r).incoming source)

theorem State.FrontReading.congr (hw : w.FrontReading)
    (h : ∀ s, (w'.storage s).incoming = (w.storage s).incoming) : w'.FrontReading := by
  intro source r
  rw [h r]
  exact hw source r

theorem State.FrontReading.moves (hw : w.FrontReading)
    (h : Moves cfg r source items moved w w')
    (hfront : Reading ((w'.storage r).incoming source)) : w'.FrontReading := by
  intro s d
  by_cases hd : d = r
  · subst hd
    by_cases hs : s = source
    · rwa [hs]
    · rw [h.sources s hs]
      exact hw s d
  · rw [h.incoming d hd]
    exact hw s d

theorem State.FrontReading.queuePrepare (hw : w.FrontReading) (x : Item α) :
    (queuePrepare w r source x).2.FrontReading := by
  intro s d
  rw [queuePrepare_incoming]
  split_ifs
  · have hfront := hw source r
    cases hlist : (w.storage r).incoming source with
    | nil =>
      rintro v ⟨⟩
      rfl
    | cons u items =>
      rw [hlist] at hfront
      exact hfront
  · exact hw s d

variable {l : Label α}

/-- A step in time does not fail. -/
theorem step_spec (h : l.Enabled cfg w) (ht : Timely cfg w l) :
    ∃ w', step cfg w l = some w' ∧ Change cfg w.view w'.view ∧
      (w.FrontReading → w'.FrontReading) := by
  cases l with
  | create r => exact ⟨_, rfl, .silent rfl, id⟩
  | construct r =>
    have hincoming : ∀ s, ((construct cfg w r).storage s).incoming = (w.storage s).incoming :=
      construct_congr incoming (fun _ _ _ _ => rfl) w r
    refine ⟨_, rfl, .silent (View.ext (funext ?_) (funext fun s => funext fun d => ?_) rfl),
      fun hw => hw.congr hincoming⟩
    · exact construct_congr added (fun _ _ _ _ => rfl) w r
    · show (_ : List (Item α)) ++ _ = _
      rw [hincoming]
      rfl
  | put r x =>
    refine ⟨_, rfl, .put r x rfl (fun s d => ?_) fun s => ?_, id⟩
    · show (_ : List (Item α)) ++ _ = (_ ++ _) ++ _
      rw [append_assoc]
      congr 1
      exact send_messages w r cfg.first ⟨r, x⟩ s d
    · by_cases hs : s = r <;> simp [view, put, hs]
  | receive src dst inlined =>
    rw [step]
    cases hmessages : w.messages (src, dst) with
    | nil => exact absurd hmessages h
    | cons x rest =>
      have hview := view_prepare hmessages
      let w₁ := w.takeMessage src dst rest
      have hfront (hw : w₁.FrontReading) : (queuePrepare w₁ dst src x).2.FrontReading :=
        hw.queuePrepare x
      simp only [onRecvQueuePut]
      -- announced in any case, and complete if the tensor is in the message
      split_ifs with hinlined
      · have hmem : ∃ v ∈ ((queuePrepare w₁ dst src x).2.storage dst).incoming src,
            v.key = (queuePrepare w₁ dst src x).1 := by
          rw [queuePrepare_incoming, if_pos ⟨rfl, rfl⟩]
          exact ⟨_, mem_concat_self, rfl⟩
        obtain ⟨w', moved, heq, hmoves, hread⟩ :=
          queueFinish_spec (ready_prepare (ht hinlined)) hmem
        exact ⟨w', heq, hview ▸ hmoves.change,
          fun hw => (hfront hw).moves hmoves (hread (hfront hw src dst))⟩
      · exact ⟨_, rfl, .silent hview, hfront⟩
  | finish r source key =>
    obtain ⟨v, hv, hkey, -⟩ := h
    obtain ⟨w', moved, heq, hmoves, hread⟩ := queueFinish_spec ht ⟨v, hv, hkey⟩
    exact ⟨w', heq, hmoves.change, fun hw => hw.moves hmoves (hread (hw source r))⟩

theorem State.FrontReading.arrive (hw : w.FrontReading) (hquiet : w.Quiet cfg) (source r : ℕ) :
    w.underWay source r = [] := by
  have hmessages : w.messages (source, r) = [] := not_not.mp (hquiet.1 source r true)
  cases hlist : (w.storage r).incoming source with
  | nil => rw [underWay, hlist, hmessages, map_nil, append_nil]
  | cons v items =>
    have hready : v.ready = false := hw source r v (by rw [hlist]; rfl)
    have hmem : v ∈ (w.storage r).incoming source := by
      rw [hlist]
      exact mem_cons_self
    exact absurd ⟨v, hmem, rfl, hready⟩ (hquiet.2 r source v.key)

end Steps

/-! ## Correct runs -/

section Runs

variable {cfg : Config} {v v' : View α}

structure View.Inv (cfg : Config) (v : View α) : Prop where
  once : ∀ r, (v.added cfg.first).filter (fun x => x.rank = r) ++ v.underWay r cfg.first =
    (v.puts r).map (Item.mk r)
  order : ∀ location ∈ cfg.others, v.added location ++ v.underWay cfg.first location =
    v.added cfg.first
  direct : ∀ location ∈ cfg.others, ∀ s, s ≠ cfg.first → v.underWay s location = []

theorem ne_first {location : ℕ} (hmem : location ∈ cfg.others) : location ≠ cfg.first := by
  rintro rfl
  exact (nodup_cons.mp cfg.nodup).1 hmem

theorem not_forwards_first {r s : ℕ} : ¬ forwards cfg r s cfg.first :=
  fun h => ne_first h.2.2 rfl

section

variable (hi : v.Inv cfg)

include hi

/-- What a rank has put and is taken from its list keeps its place. -/
theorem View.Inv.filter_moved {source : ℕ} {moved rest : List (Item α)}
    (h : v.underWay source cfg.first = moved ++ rest) (r : ℕ) :
    moved.filter (fun x => x.rank = r) = if r = source then moved else [] := by
  have hrank : ∀ x ∈ moved, x.rank = source := by
    intro x hx
    have hmem : x ∈ (v.puts source).map (Item.mk source) := by
      rw [← hi.once source, h]
      exact mem_append_right _ (mem_append_left rest hx)
    obtain ⟨a, -, rfl⟩ := mem_map.mp hmem
    rfl
  split_ifs with hr
  · exact filter_eq_self.mpr fun x hx => decide_eq_true ((hrank x hx).trans hr.symm)
  · exact filter_eq_nil_iff.mpr fun x hx hdec =>
      hr ((of_decide_eq_true hdec).symm.trans (hrank x hx))

theorem View.Inv.change (h : Change cfg v v') : v'.Inv cfg := by
  cases h with
  | silent h => rwa [h]
  | put r x added underWay puts =>
    refine ⟨fun s => ?_, fun location hmem => ?_, fun location hmem s hs => ?_⟩
    · rw [added, underWay, puts, ← append_assoc, hi.once s, map_append]
      by_cases hs : s = r <;> simp [hs]
    -- a put goes to the first location only
    · rw [added, underWay, if_neg fun h => ne_first hmem h.2, append_nil, hi.order location hmem]
    · rw [underWay, hi.direct location hmem s hs, if_neg fun h => ne_first hmem h.2]
      rfl
  | move r source moved rest added taken underWay puts =>
    refine ⟨fun s => ?_, fun location hmem => ?_, fun location hmem s hs => ?_⟩
    · rw [added, underWay, puts, if_neg not_forwards_first, append_nil, ← hi.once s]
      -- only what the first location adds counts
      by_cases hr : cfg.first = r
      · subst hr
        rw [if_pos rfl, filter_append, hi.filter_moved taken s, append_assoc]
        congr 1
        by_cases hs : s = source
        · rw [hs, taken]
          simp
        · simp [hs]
      · rw [if_neg hr, append_nil, if_neg fun h => hr h.2]
    · -- whatever the first location adds, it sends to the others
      have horder := hi.order location hmem
      rw [added, added, underWay]
      by_cases hr : cfg.first = r
      · subst hr
        rw [if_pos rfl, if_neg (ne_first hmem), append_nil, if_neg fun h => ne_first hmem h.2,
          if_pos ⟨rfl, rfl, hmem⟩, ← append_assoc, horder]
      · rw [if_neg hr, append_nil, if_neg fun h : forwards _ _ _ _ => hr h.1.symm, append_nil]
        by_cases hl : location = r
        · subst hl
          rw [if_pos rfl]
          by_cases hs : cfg.first = source
          · subst hs
            rw [if_pos ⟨rfl, rfl⟩, append_assoc, ← taken, horder]
          · have hnil := hi.direct location hmem source (Ne.symm hs)
            rw [taken, append_eq_nil_iff] at hnil
            rw [if_neg fun h => hs h.1, hnil.1, append_nil, horder]
        · rw [if_neg hl, append_nil, if_neg fun h => hl h.2, horder]
    · have hnot : ¬ forwards cfg r s location := fun h => hs h.2.1
      rw [underWay, if_neg hnot, append_nil]
      split_ifs with hsd
      · have hnil := hi.direct location hmem s hs
        rw [hsd.1, hsd.2, taken] at hnil
        exact (append_eq_nil_iff.mp hnil).2
      · exact hi.direct location hmem s hs

end

variable {w w' : State α} {steps : List (State α × Label α)}

theorem correct_of_inv (hi : w.view.Inv cfg) (hfront : w.FrontReading) : Correct cfg w where
  once := hi.once
  order := hi.order
  checks l hen ht := by
    obtain ⟨w', hw', -⟩ := step_spec hen ht
    rw [hw']
    rfl
  arrive hquiet := hfront.arrive hquiet

def RunCorrect (cfg : Config) (steps : List (State α × Label α)) (w : State α) : Prop :=
  (∀ p ∈ steps, Correct cfg p.1) ∧ Correct cfg w

theorem runCorrect_of_inv (hrun : Run cfg w steps w') (ht : ∀ p ∈ steps, Timely cfg p.1 p.2)
    (hi : w.view.Inv cfg) (hfront : w.FrontReading) : RunCorrect cfg steps w' := by
  induction hrun with
  | nil => exact ⟨fun p hp => absurd hp not_mem_nil, correct_of_inv hi hfront⟩
  | cons hen h hrun ih =>
    rw [forall_mem_cons] at ht
    obtain ⟨w₁, hw₁, hchange, hkeep⟩ := step_spec hen ht.1
    obtain rfl := some.inj (hw₁.symm.trans h)
    obtain ⟨hsteps, hlast⟩ := ih ht.2 (hi.change hchange) (hkeep hfront)
    exact ⟨forall_mem_cons.mpr ⟨correct_of_inv hi hfront, hsteps⟩, hlast⟩

end Runs

section Labels

instance Label.decidableEnabled [DecidableEq α] (cfg : Config) (w : State α) (l : Label α) :
    Decidable (l.Enabled cfg w) := by
  cases l <;> unfold Label.Enabled <;> (try unfold State.reading) <;> infer_instance

def next (cfg : Config) (w : State α) (l : Label α) : State α :=
  (step cfg w l).getD w

def trace (cfg : Config) (w : State α) : List (Label α) → List (State α × Label α)
  | [] => []
  | l :: labels => (w, l) :: trace cfg (next cfg w l) labels

def AllEnabled (cfg : Config) (w : State α) : List (Label α) → Prop
  | [] => True
  | l :: labels =>
    (l.Enabled cfg w ∧ (step cfg w l).isSome = true) ∧ AllEnabled cfg (next cfg w l) labels

instance decidableAllEnabled [DecidableEq α] (cfg : Config) (w : State α)
    (labels : List (Label α)) :
    Decidable (AllEnabled cfg w labels) := by
  induction labels generalizing w with
  | nil => exact inferInstanceAs (Decidable True)
  | cons l labels ih => exact @instDecidableAnd _ _ _ (ih (next cfg w l))

theorem run_trace (cfg : Config) (labels : List (Label α)) (w : State α)
    (h : AllEnabled cfg w labels) : Run cfg w (trace cfg w labels) (labels.foldl (next cfg) w) := by
  induction labels generalizing w with
  | nil => exact .nil w
  | cons l labels ih =>
    have hstep : step cfg w l = some (next cfg w l) := by
      obtain ⟨w', hw'⟩ := isSome_iff_exists.mp h.1.2
      rw [next, hw', getD_some]
    exact .cons h.1.1 hstep (ih (next cfg w l) h.2)

instance Storage.decidableReady (cfg : Config) (r : ℕ) (qs : Storage α) :
    Decidable (qs.Ready cfg r) :=
  decidable_of_iff ((qs.isMulticast = true → qs.multicastLocations = cfg.locations) ∧
    (r = cfg.first → cfg.others ≠ [] →
      qs.isMulticast = true ∧ qs.multicastRemoteAddresses = cfg.locations))
    ⟨fun h => ⟨h.1, h.2⟩, fun h => ⟨h.locations, h.first⟩⟩

instance decidableTimely (cfg : Config) (w : State α) (l : Label α) :
    Decidable (Timely cfg w l) := by
  cases l <;> unfold Timely <;> infer_instance

end Labels

def twoLocations (named : Bool) : Config where
  size := 2
  named := named
  first := 0
  others := [1]
  nodup := by decide

/-- Both ranks have run their constructors before they put items. The first one of rank 1 is read,
so that its second one and that of rank 0 are complete before it. -/
def constructedLabels : List (Label ℕ) :=
  [.create 0, .create 0, .construct 0, .construct 0, .construct 0, .create 1, .create 1,
    .construct 1, .construct 1, .construct 1, .put 1 7, .put 1 8, .put 0 9, .receive 1 0 false,
    .receive 1 0 true, .receive 0 0 true, .finish 0 1 0, .receive 0 1 true, .receive 0 1 true,
    .receive 0 1 true]

/-- Rank 1 puts an item before rank 0 has run its constructor: rank 0 adds the item and does not
send it to rank 1. -/
def earlyLabels : List (Label ℕ) :=
  [.create 0, .create 1, .create 0, .create 1, .construct 1, .construct 1, .construct 1, .put 1 7,
    .receive 1 0 true]

/-- A run in which the first location has added an item that the other one never gets. -/
def Loses (cfg : Config) : Prop :=
  ∃ steps, ∃ w : State ℕ, Run cfg init steps w ∧ (w.storage 0).added = [⟨1, 7⟩] ∧
    (w.storage 1).added ++ w.underWay 0 1 = [] ∧ ¬ RunCorrect cfg steps w

theorem loses_twoLocations (named : Bool) : Loses (twoLocations named) := by
  have hrun := run_trace (twoLocations named) earlyLabels init (by cases named <;> decide +kernel)
  have hadded : ((earlyLabels.foldl (next (twoLocations named)) init).storage 0).added =
      [⟨1, 7⟩] := by cases named <;> decide +kernel
  have hsent : ((earlyLabels.foldl (next (twoLocations named)) init).storage 1).added ++
      (earlyLabels.foldl (next (twoLocations named)) init).underWay 0 1 = [] := by
    cases named <;> decide +kernel
  refine ⟨_, _, hrun, hadded, hsent, fun h => ?_⟩
  have horder := h.2.order 1 mem_cons_self
  rw [show (twoLocations named).first = 0 from rfl, hsent, hadded] at horder
  exact absurd horder nofun

end Multicast
