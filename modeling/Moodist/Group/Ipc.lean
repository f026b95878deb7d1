import Moodist.AllGather.Init

/-!
# Pruning of the IPC peers

Model of the part of `Group::init` in which a rank drops peers to which it has no NVLink. It drops a
peer if one of the peers of that peer has an NVLink to it, so a rank with NVLinks is dropped by a
rank without any, and does not drop that rank.
-/

namespace Group

open AllGather

variable {size : ℕ}

/-- The ranks whose memory a rank can open, and those that it has an NVLink to. -/
structure Links (size : ℕ) where
  ipc : Fin size → Fin size → Bool
  nvlink : Fin size → Fin size → Bool
  ipc_irrefl : ∀ a, ipc a a = false
  ipc_symm : ∀ a b, ipc a b = ipc b a
  nvlink_symm : ∀ a b, nvlink a b = nvlink b a

namespace Links

variable (links : Links size)

/-- `ipcRanks` before the pruning: the ranks after this one are first. -/
def ipcRanks (rank : Fin size) : List (Fin size) :=
  stablePartition (fun i => decide (rank < i)) ((List.finRange size).filter (links.ipc rank))

def keep (rank i : Fin size) : Bool :=
  if links.nvlink rank i = false then !(links.ipcRanks i).any fun n => links.nvlink n i else true

def newIpcRanks (rank : Fin size) : List (Fin size) :=
  (links.ipcRanks rank).filter (links.keep rank)

/-- The check on the lists of all ranks. Each rank makes it on the same lists. -/
def symmetryCheck : Bool :=
  (List.finRange size).all fun i =>
    (links.newIpcRanks i).all fun n => decide (i ∈ links.newIpcRanks n)

def Linked (a : Fin size) : Prop := ∃ n, links.ipc a n ∧ links.nvlink n a

variable {links} {a b : Fin size}

theorem mem_ipcRanks : b ∈ links.ipcRanks a ↔ links.ipc a b := by
  rw [ipcRanks, (stablePartition_perm _ _).mem_iff, List.mem_filter]
  exact and_iff_right (List.mem_finRange b)

theorem keep_iff : links.keep a b ↔ links.nvlink a b ∨ ¬ links.Linked b := by
  have hany : ((links.ipcRanks b).any fun n => links.nvlink n b) = true ↔ links.Linked b := by
    simp only [List.any_eq_true, mem_ipcRanks, Linked]
  unfold keep
  cases hlink : links.nvlink a b with
  | true => simp
  | false => simp [← hany]

theorem mem_newIpcRanks :
    b ∈ links.newIpcRanks a ↔ links.ipc a b ∧ (links.nvlink a b ∨ ¬ links.Linked b) := by
  rw [newIpcRanks, List.mem_filter, mem_ipcRanks, keep_iff]

theorem symmetryCheck_iff : links.symmetryCheck ↔
    ∀ a b, b ∈ links.newIpcRanks a → a ∈ links.newIpcRanks b := by
  simp [symmetryCheck]

/-- Two peers keep each other, unless there is no NVLink between them and only one of them has an
NVLink to a peer. -/
theorem newIpcRanks_symm_iff (links : Links size) :
    ((∀ a b, b ∈ links.newIpcRanks a ↔ a ∈ links.newIpcRanks b) ∧ links.symmetryCheck) ↔
      ∀ a b, links.ipc a b → ¬ links.nvlink a b → (links.Linked a ↔ links.Linked b) := by
  rw [symmetryCheck_iff]
  constructor
  · rintro ⟨hsymm, -⟩ a b hipc hlink
    have hipc' : links.ipc b a := links.ipc_symm a b ▸ hipc
    have hlink' : ¬ links.nvlink b a := links.nvlink_symm a b ▸ hlink
    have h := hsymm a b
    rw [mem_newIpcRanks, mem_newIpcRanks] at h
    simp only [hipc, hipc', hlink, hlink', true_and, Bool.false_eq_true, false_or] at h
    exact (not_iff_not.mp h).symm
  · intro h
    have hmem : ∀ a b, b ∈ links.newIpcRanks a → a ∈ links.newIpcRanks b := by
      intro a b hb
      obtain ⟨hipc, hkeep⟩ := mem_newIpcRanks.1 hb
      refine mem_newIpcRanks.2 ⟨links.ipc_symm a b ▸ hipc, ?_⟩
      by_cases hlink : links.nvlink a b
      · exact .inl (links.nvlink_symm a b ▸ hlink)
      · have hnot : ¬ links.Linked b := hkeep.resolve_left hlink
        exact .inr fun ha => hnot ((h a b hipc hlink).mp ha)
    exact ⟨fun a b => ⟨hmem a b, hmem b a⟩, hmem⟩

/-- Three ranks that can all open each other's memory, with an NVLink between two of them. -/
def oneLink : Links 3 where
  ipc a b := decide (a ≠ b)
  nvlink a b := decide (a.val ≠ 0 ∧ b.val ≠ 0 ∧ a ≠ b)
  ipc_irrefl := by decide
  ipc_symm := by decide
  nvlink_symm := by decide

theorem not_symmetryCheck_oneLink : oneLink.symmetryCheck = false ∧
    (0 : Fin 3) ∈ oneLink.newIpcRanks 1 ∧ (1 : Fin 3) ∉ oneLink.newIpcRanks 0 := by
  decide

end Links

end Group
