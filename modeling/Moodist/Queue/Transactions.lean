import Mathlib

/-!
# Transactions on a queue

What the owner of a queue does with the items of other ranks, from `core/queue.cc`. An item is
announced by `queuePrepare` and gets its tensor by `queueFinish`. The items of a source go to the
vector in order. Those of a transaction wait until it is committed, with a placeholder among the
items of the source if some are not ready then. To begin a transaction does nothing at the owner.

Items that are taken from the vector again are not modelled. Keys are arbitrary, and a failed
`CHECK` is `none`.
-/

namespace Transactions

open Function List Option

variable {α : Type*}

/-- `IncomingSource::Item`, which is ready when it has its tensor. -/
structure Item (α : Type*) where
  key : UInt32
  tensor : Option α

structure Transaction (α : Type*) where
  items : List (Item α)
  committed : Bool

structure IncomingSource (α : Type*) where
  items : List (Item α) := []
  transactions : UInt32 → Option (Transaction α) := fun _ => none

/-- `QueueStorage`. In addition, the items are counted that were announced and those that a cancel
has discarded. -/
structure Storage (α : Type*) where
  incoming : UInt32 → Option (IncomingSource α) := fun _ => none
  incomingSize : UInt32 := 0
  vector : List α := []
  announced : ℕ := 0
  discarded : ℕ := 0

def Storage.setSource (qs : Storage α) (source : UInt32) (ptr : IncomingSource α) : Storage α :=
  { qs with incoming := update qs.incoming source (some ptr) }

/-- `qsAdd`, and `--qs->incomingSize` that goes with each call. -/
def qsAdd (qs : Storage α) (x : α) : Storage α :=
  { qs with vector := qs.vector ++ [x], incomingSize := qs.incomingSize - 1 }

/-- The first loop of `transferQueuedItems`. -/
def transfer : List (Item α) → Storage α → List (Item α) × Storage α
  | ⟨_, some x⟩ :: items, qs => transfer items (qsAdd qs x)
  | items, qs => (items, qs)

def transferQueuedItems (qs : Storage α) (source : UInt32) (ptr : IncomingSource α) : Storage α :=
  let (items, qs) := transfer ptr.items qs
  qs.setSource source { ptr with items := items }

def queuePrepare (qs : Storage α) (source key transactionKey : UInt32) : Option (Storage α) :=
  let ptr := (qs.incoming source).getD {}
  let qs := { qs with incomingSize := qs.incomingSize + 1, announced := qs.announced + 1 }
  if transactionKey ≠ 0 then
    let t := (ptr.transactions transactionKey).getD ⟨[], false⟩
    if t.committed then none
    else
      let t := { t with items := t.items ++ [⟨key, none⟩] }
      some (qs.setSource source
        { ptr with transactions := update ptr.transactions transactionKey (some t) })
  else some (qs.setSource source { ptr with items := ptr.items ++ [⟨key, none⟩] })

/-- The loop that looks for the item. -/
def markReady (key : UInt32) (x : α) : List (Item α) → Option (List (Item α))
  | [] => none
  | item :: items =>
    if item.key = key then some (⟨key, some x⟩ :: items) else (item :: ·) <$> markReady key x items

/-- The part of `queueFinish` for an item of a transaction. A transaction that is gone was
cancelled. -/
def finishTransaction (qs : Storage α) (source key : UInt32) (x : α) (transactionKey : UInt32)
    (ptr : IncomingSource α) : Option (Storage α) :=
  match ptr.transactions transactionKey with
  | none => some qs
  | some t => do
    let items ← markReady key x t.items
    if t.committed ∧ items.all (·.tensor.isSome) then
      let index := ptr.items.findIdx (·.key = transactionKey)
      if index < ptr.items.length then
        some (transferQueuedItems qs source
          { items := ptr.items.take index ++ items ++ ptr.items.drop (index + 1),
            transactions := update ptr.transactions transactionKey none })
      else none
    else
      let t := { t with items := items }
      some (qs.setSource source
        { ptr with transactions := update ptr.transactions transactionKey (some t) })

def queueFinish (qs : Storage α) (source key : UInt32) (x : α) (transactionKey : UInt32) :
    Option (Storage α) := do
  let ptr ← qs.incoming source
  if transactionKey ≠ 0 then finishTransaction qs source key x transactionKey ptr
  else
    match ptr.items with
    | [] => none
    | item :: items =>
      if item.key = key then
        some (transferQueuedItems (qsAdd qs x) source { ptr with items := items })
      else do
        let items ← markReady key x ptr.items
        some (qs.setSource source { ptr with items := items })

def queueTransactionCommit (qs : Storage α) (source key : UInt32) : Option (Storage α) := do
  let ptr ← qs.incoming source
  match ptr.transactions key with
  | none => some qs
  | some t =>
    if t.committed then none
    else if t.items.all (·.tensor.isSome) then
      some (transferQueuedItems qs source
        { items := ptr.items ++ t.items, transactions := update ptr.transactions key none })
    else
      let t := { t with committed := true }
      some (qs.setSource source
        { items := ptr.items ++ [⟨key, none⟩],
          transactions := update ptr.transactions key (some t) })

def queueTransactionCancel (qs : Storage α) (source key : UInt32) : Option (Storage α) := do
  let ptr ← qs.incoming source
  let qs := { qs with
    discarded := qs.discarded + ((ptr.transactions key).elim 0 (·.items.length)) }
  some (qs.setSource source { ptr with transactions := update ptr.transactions key none })

/-! ## Runs -/

inductive Call (α : Type*) where
  | prepare (source key transactionKey : UInt32)
  | finish (source key : UInt32) (x : α) (transactionKey : UInt32)
  | commit (source key : UInt32)
  | cancel (source key : UInt32)

def step (qs : Storage α) : Call α → Option (Storage α)
  | .prepare source key transactionKey => queuePrepare qs source key transactionKey
  | .finish source key x transactionKey => queueFinish qs source key x transactionKey
  | .commit source key => queueTransactionCommit qs source key
  | .cancel source key => queueTransactionCancel qs source key

/-- What `incomingSize` counts: the items that were announced and have not been added. -/
def Counted (qs : Storage α) : Prop :=
  qs.incomingSize + .ofNat qs.vector.length = .ofNat qs.announced

variable {qs qs' : Storage α} {source key transactionKey : UInt32} {x : α}
  {ptr : IncomingSource α}

section

variable (h : Counted qs)

include h

theorem Counted.setSource : Counted (qs.setSource source ptr) := h

theorem Counted.qsAdd : Counted (qsAdd qs x) := by
  rw [Counted] at h ⊢
  simp only [Transactions.qsAdd, length_append, length_singleton, UInt32.ofNat_add, ← h]
  grind

theorem Counted.transfer (items : List (Item α)) :
    Counted (transfer items qs).2 := by
  induction items generalizing qs with
  | nil => exact h
  | cons item items ih =>
    obtain ⟨key, _ | x⟩ := item
    · exact h
    · exact ih h.qsAdd

theorem Counted.transferQueuedItems :
    Counted (transferQueuedItems qs source ptr) :=
  (h.transfer ptr.items).setSource

theorem Counted.queuePrepare
    (hstep : queuePrepare qs source key transactionKey = some qs') : Counted qs' := by
  have hcount : Counted { qs with incomingSize := qs.incomingSize + 1,
                                  announced := qs.announced + 1 } := by
    rw [Counted] at h ⊢
    simp only [UInt32.ofNat_add, ← h]
    grind
  simp only [Transactions.queuePrepare] at hstep
  split_ifs at hstep <;> cases hstep <;> exact hcount.setSource

theorem Counted.finishTransaction
    (hstep : finishTransaction qs source key x transactionKey ptr = some qs') : Counted qs' := by
  unfold Transactions.finishTransaction at hstep
  split at hstep
  · cases hstep
    exact h
  · obtain ⟨items, -, hstep⟩ := bind_eq_some_iff.mp hstep
    dsimp only at hstep
    split_ifs at hstep <;> cases hstep
    · exact h.transferQueuedItems
    · exact h.setSource

theorem Counted.queueFinish
    (hstep : queueFinish qs source key x transactionKey = some qs') : Counted qs' := by
  obtain ⟨ptr, -, hstep⟩ := bind_eq_some_iff.mp hstep
  split at hstep
  · exact h.finishTransaction hstep
  · split at hstep
    · cases hstep
    · split at hstep
      · cases hstep
        exact h.qsAdd.transferQueuedItems
      · obtain ⟨items, -, hstep⟩ := bind_eq_some_iff.mp hstep
        cases hstep
        exact h.setSource

theorem Counted.queueTransactionCommit
    (hstep : queueTransactionCommit qs source key = some qs') : Counted qs' := by
  obtain ⟨ptr, -, hstep⟩ := bind_eq_some_iff.mp hstep
  dsimp only at hstep
  split at hstep
  · cases hstep
    exact h
  · split_ifs at hstep <;> cases hstep
    · exact h.transferQueuedItems
    · exact h.setSource

theorem Counted.step {call : Call α} (hstep : step qs call = some qs') :
    Counted qs' := by
  cases call with
  | prepare source key transactionKey => exact h.queuePrepare hstep
  | finish source key x transactionKey => exact h.queueFinish hstep
  | commit source key => exact h.queueTransactionCommit hstep
  | cancel source key =>
    obtain ⟨ptr, -, hstep⟩ := bind_eq_some_iff.mp hstep
    cases hstep
    exact h

theorem Counted.run {calls : List (Call α)}
    (hrun : calls.foldlM Transactions.step qs = some qs') : Counted qs' := by
  induction calls generalizing qs with
  | nil =>
    cases hrun
    exact h
  | cons call calls ih =>
    obtain ⟨qs₁, hstep, hrun⟩ := bind_eq_some_iff.mp hrun
    exact ih (h.step hstep) hrun

end

/-- `incomingSize` is the number of items in transit exactly if that number fits and no item was
discarded, up to multiples of `2 ^ 32`. -/
theorem incomingSize_eq_iff {calls : List (Call α)}
    (hrun : calls.foldlM step ({} : Storage α) = some qs) :
    qs.announced = qs.vector.length + qs.discarded + qs.incomingSize.toNat ↔
      (qs.vector.length + qs.discarded ≤ qs.announced ∧
        qs.announced < qs.vector.length + qs.discarded + 2 ^ 32) ∧ 2 ^ 32 ∣ qs.discarded := by
  have hcount := congrArg UInt32.toNat (Counted.run (rfl : Counted ({} : Storage α)) hrun)
  rw [UInt32.toNat_add, UInt32.toNat_ofNat', UInt32.toNat_ofNat'] at hcount
  have hlt := qs.incomingSize.toNat_lt
  rw [Nat.dvd_iff_mod_eq_zero]
  omega

theorem incomingSize_after_cancel :
    ∃ qs, [.prepare 1 5 7, .cancel 1 7].foldlM step ({} : Storage ℕ) = some qs ∧
      qs.incomingSize = 1 ∧ qs.announced = qs.vector.length + qs.discarded :=
  ⟨_, rfl, rfl, rfl⟩

/-- A transaction is committed before one of its items is ready, and an item behind it has to wait
for it. -/
def committedCalls : List (Call ℕ) :=
  [.prepare 1 5 7, .prepare 1 6 7, .finish 1 6 60 7, .commit 1 7, .prepare 1 8 0, .finish 1 8 80 0,
    .prepare 1 9 0, .finish 1 5 50 7]

theorem incomingSize_eq_iff_committed :
    ∃ qs, committedCalls.foldlM step ({} : Storage ℕ) = some qs ∧ qs.vector = [50, 60, 80] ∧
      qs.incomingSize = 1 ∧
      qs.announced = qs.vector.length + qs.discarded + qs.incomingSize.toNat := by
  have hrun : committedCalls.foldlM step ({} : Storage ℕ) = some _ := rfl
  exact ⟨_, hrun, rfl, rfl, (incomingSize_eq_iff hrun).mpr (by decide)⟩

/-! ## Transactions without items -/

variable (hsource : qs.incoming source = some ptr)

include hsource

theorem setSource_eq_self :
    qs.setSource source ptr = qs := by
  rw [Storage.setSource, ← hsource, update_eq_self]

theorem transactions_of_setSource_eq {ptr' : IncomingSource α}
    {q : Storage α} (h : q.setSource source ptr' = qs) : ptr'.transactions = ptr.transactions := by
  rw [← h] at hsource
  simp only [Storage.setSource, update_self, some.injEq] at hsource
  rw [hsource]

theorem transactions_of_commit
    (h : queueTransactionCommit qs source key = some qs) : ptr.transactions key = none := by
  rw [queueTransactionCommit, hsource, bind_eq_bind, bind_some] at h
  cases ht : ptr.transactions key with
  | none => rfl
  | some t =>
    rw [ht] at h
    dsimp only at h
    split_ifs at h with hcommitted
    all_goals
      have hkey := congrFun (transactions_of_setSource_eq hsource (some.inj h)) key
      simp only [update_self, ht] at hkey
    · cases hkey
    · exact absurd (congrArg Transaction.committed (some.inj hkey)).symm hcommitted

omit hsource

/-- To commit or to cancel a transaction is a no-op exactly if the owner knows the source and does
not know the transaction. -/
theorem empty_transaction_iff (qs : Storage α) (source key : UInt32) :
    (queueTransactionCommit qs source key = some qs ↔
      ∃ ptr, qs.incoming source = some ptr ∧ ptr.transactions key = none) ∧
    (queueTransactionCancel qs source key = some qs ↔
      ∃ ptr, qs.incoming source = some ptr ∧ ptr.transactions key = none) := by
  refine ⟨⟨fun h => ?_, ?_⟩, ⟨fun h => ?_, ?_⟩⟩
  · obtain ⟨ptr, hptr, -⟩ := bind_eq_some_iff.mp h
    exact ⟨ptr, hptr, transactions_of_commit hptr h⟩
  · rintro ⟨ptr, hptr, hnone⟩
    simp [queueTransactionCommit, hptr, hnone]
  · obtain ⟨ptr, hptr, h⟩ := bind_eq_some_iff.mp h
    have hkey := congrFun (transactions_of_setSource_eq hptr (some.inj h)) key
    exact ⟨ptr, hptr, hkey.symm.trans (update_self key none ptr.transactions)⟩
  · rintro ⟨ptr, hptr, hnone⟩
    have hkey : update ptr.transactions key none = ptr.transactions := by
      rw [← hnone, update_eq_self]
    simp [queueTransactionCancel, hptr, hnone, hkey, setSource_eq_self hptr]

theorem commit_unknown_source :
    queueTransactionCommit ({} : Storage ℕ) 1 7 = none ∧
      queueTransactionCancel ({} : Storage ℕ) 1 7 = none :=
  ⟨rfl, rfl⟩

end Transactions
