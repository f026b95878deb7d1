import Moodist.Foundation.Rounds
import Moodist.CompileOp.Coverage

/-!
# How the ranks end

`compile` runs on every rank. Its phases are separated by three exchanges through the queues, each
behind a barrier, and a last barrier stands before the return.

Main definitions: `Job`, `compile`, `Job.EndsAlike`. Main result: `compile_endsAlike_iff`.
-/

namespace CompileOp

open Foundation List

/-! ## The protocol -/

/-- What the ranks are called with. The regions are the same on all of them; `pick` is what the
ranks draw at random. -/
structure Job where
  size : ℕ
  deviceIndex : ℕ → ℤ
  itemsize : ℕ
  reduce : ReduceOp
  inputs : List TensorRegion
  outputs : List TensorRegion
  pick : ℕ → ℕ → ℕ → ℕ
  rank_lt : ∀ a ∈ inputs ++ outputs, a.rank < size

/-- What a rank knows when it arrives at a barrier. -/
inductive Local where
  | validated (inputDescrs outputDescrs : List TensorDescr)
  | resolved (inputDescrs outputDescrs : List TensorDescr) (cells : List (List CellSource))
  | responded (inputDescrs outputDescrs : List TensorDescr) (s : Responses)
  | compiled (op : CustomOp)

/-- What a rank puts into a queue. -/
inductive Batch where
  | logicalInputs (batch : List LogicalInput)
  | requests (batch : List ReadRequest)
  | responses (batch : List ReadResponse)

open Batch

def Batch.toLogicalInputs : Batch → List LogicalInput
  | .logicalInputs batch => batch
  | _ => []

def Batch.toRequests : Batch → List ReadRequest
  | .requests batch => batch
  | _ => []

def Batch.toResponses : Batch → List ReadResponse
  | .responses batch => batch
  | _ => []

def Local.batch (rank : ℕ) (s : Local) (destRank : ℕ) : Batch :=
  match s with
  | .validated inputDescrs outputDescrs =>
    .logicalInputs (logicalInputsToSend inputDescrs outputDescrs rank destRank)
  | .resolved _ _ cells => .requests (requestsToSend rank cells destRank)
  | .responded _ _ s => .responses (responsesToSend s destRank)
  | .compiled _ => .responses []

def Job.advance (job : Job) (rank : ℕ) (s : Local) (got : List Batch) :
    Except CompileError Local :=
  match s with
  | .validated inputDescrs outputDescrs => do
    let received ← collectInputs rank (got.map Batch.toLogicalInputs)
    let cells ← resolveOverlaps job.reduce (job.pick rank) (ofRank rank outputDescrs) received
    return .resolved inputDescrs outputDescrs cells
  | .resolved inputDescrs outputDescrs _ => do
    let s ← respond rank (ofRank rank inputDescrs) (got.flatMap Batch.toRequests)
    return .responded inputDescrs outputDescrs s
  | .responded inputDescrs outputDescrs s => do
    let op ← finalize job.itemsize (ofRank rank inputDescrs) (ofRank rank outputDescrs)
      s.inputCopies (got.flatMap Batch.toResponses)
    return .compiled op
  | .compiled op => .ok (.compiled op)

/-- All ranks running `compile`. -/
def compile (job : Job) : Rounds job.size Local Batch CompileError where
  rounds := 3
  start rank := do
    let (inputDescrs, outputDescrs) ← validate rank (job.deviceIndex rank) job.inputs job.outputs
    return .validated inputDescrs outputDescrs
  message _ rank s destRank := s.batch rank destRank
  finish _ rank s got := job.advance rank s got

/-! ## What is known at the barriers -/

/-- The descriptors that all ranks compute. -/
structure Job.Agreed (job : Job) (inD outD : List TensorDescr) : Prop where
  inputs : describe job.inputs = .ok inD
  outputs : describe job.outputs = .ok outD
  validated : Validated job.inputs job.outputs inD outD

variable {job : Job} {inD outD : List TensorDescr}

theorem Job.agreed_of_validate {rank : ℕ} {deviceIndex : ℤ}
    (h : validate rank deviceIndex job.inputs job.outputs = .ok (inD, outD)) :
    job.Agreed inD outD := by
  obtain ⟨-, -, -, -, hin, hout⟩ := exists_of_validate h
  exact ⟨hin, hout, validate_spec h⟩

theorem Job.Agreed.unique {inD' outD' : List TensorDescr} (h : job.Agreed inD outD)
    (h' : job.Agreed inD' outD') : inD' = inD ∧ outD' = outD := by
  have hin := h.inputs
  have hout := h.outputs
  rw [h'.inputs] at hin
  rw [h'.outputs] at hout
  exact ⟨Except.ok.inj hin, Except.ok.inj hout⟩

/-- The states at barrier `k`. -/
def Job.Ok (job : Job) (k : ℕ) (rank : Fin job.size) (s : Local) : Prop :=
  match k with
  | 0 => ∃ inD outD, job.Agreed inD outD ∧ s = .validated inD outD
  | 1 => ∃ inD outD cells, job.Agreed inD outD ∧ s = .resolved inD outD cells ∧
      cells.length = (ofRank rank outD).length ∧
      ∀ cs ∈ cells, ∀ c ∈ cs, c.source.inputIndex < (ofRank c.source.inputRank inD).length
  | 2 => ∃ inD outD resps, job.Agreed inD outD ∧ s = .responded inD outD resps ∧
      ∀ resp ∈ resps.responses, resp.outputIndex < (ofRank resp.requesterRank outD).length
  | _ => ∃ op, s = .compiled op

def Job.Rejects (job : Job) (rank : ℕ) : Prop :=
  ∃ e, validate rank (job.deviceIndex rank) job.inputs job.outputs = .error e

def Job.Faulty (job : Job) (rank : ℕ) : Prop :=
  ∃ out ∈ job.outputs, out.rank = rank ∧ Defective job.reduce job.inputs out

/-- No number of elements wraps around. -/
def Job.Fits (job : Job) : Prop := ∀ a ∈ job.outputs, a.shape.prod < 2 ^ 63

/-- The ranks that throw before barrier `k`. -/
def Job.Fails (job : Job) (k : ℕ) (rank : Fin job.size) : Prop :=
  match k with
  | 0 => job.Rejects rank
  | 1 => job.Faulty rank
  | _ => False

/-! ## The computations between the barriers -/

variable {s : Fin job.size → Local} {inputs outputs : List TensorRegion} {p : Fin job.size}
  {got : List Batch}

theorem flatMap_got_perm {α : Type} {k : ℕ}
    (h : (got : Multiset Batch) = (compile job).inbox k s p) (f : Batch → List α) :
    (got.flatMap f).Perm ((finRange job.size).flatMap fun q => f ((s q).batch q p)) := by
  have hperm : got.Perm ((finRange job.size).map fun q => (s q).batch q p) :=
    Multiset.coe_eq_coe.mp h
  simpa [flatMap_map] using hperm.flatMap_right f

theorem index_lt {r : ℕ} {d : TensorDescr}
    (hv : Validated inputs outputs inD outD) (hd : d ∈ ofRank r inD) :
    d.index < (ofRank r inD).length := by
  have hmem := mem_map_of_mem (f := TensorDescr.index) hd
  rw [hv.inputIndex r] at hmem
  exact mem_range.mp hmem

theorem mem_sentTo {size r : ℕ} {li : LogicalInput}
    (hv : Validated inputs outputs inD outD) (h : li ∈ sentTo size inD outD r) :
    li.outputRank = r ∧ li.inputIndex < (ofRank li.inputRank inD).length := by
  obtain ⟨src, -, h⟩ := mem_flatMap.mp h
  obtain ⟨out, hout, h⟩ := mem_flatMap.mp h
  split at h
  · simp at h
  · obtain ⟨inp, hinp, h⟩ := mem_filterMap.mp h
    obtain ⟨-, -, -, -, hrank, hindex, hout', -⟩ := logicalInput_eq_some h
    have hsrc : inp.rank = src := by simpa [ofRank] using (mem_filter.mp hinp).2
    have hr : out.rank = r := by simpa [ofRank] using (mem_filter.mp hout).2
    rw [hout', hrank, hindex, hsrc]
    exact ⟨hr, index_lt hv hinp⟩

section Advance

variable {cells : List (List CellSource)}

/-- Phases 1 and 2, with what all ranks have sent. -/
theorem advance_validated (hfit : job.Fits) (hag : job.Agreed inD outD)
    (hgot : (got.flatMap toLogicalInputs).Perm (sentTo job.size inD outD p)) :
    (∀ s', job.advance p (.validated inD outD) got = .ok s' → job.Ok 1 p s' ∧ ¬ job.Faulty p) ∧
      ∀ e, job.advance p (.validated inD outD) got = .error e → job.Faulty p := by
  have hsize : ∀ a ∈ job.inputs, a.rank < job.size :=
    fun a ha => job.rank_lt a (mem_append_left _ ha)
  have hcollect : collectInputs p (got.map toLogicalInputs) =
      .ok (got.flatMap toLogicalInputs) := by
    rw [collectInputs, ← flatMap_def, if_pos]
    refine all_eq_true.mpr fun li hli => ?_
    exact decide_eq_true (mem_sentTo hag.validated (hgot.mem_iff.mp hli)).1
  have hiff : (∃ e, resolveOverlaps job.reduce (job.pick p) (ofRank p outD)
      (got.flatMap toLogicalInputs) = .error e) ↔ job.Faulty p :=
    resolveOverlaps_error_iff hag.validated hsize hgot (job.pick p) hfit
  have hadv : job.advance p (.validated inD outD) got =
      (resolveOverlaps job.reduce (job.pick p) (ofRank p outD)
        (got.flatMap toLogicalInputs) >>= fun cells => .ok (.resolved inD outD cells)) := by
    rw [Job.advance, hcollect]
    rfl
  rw [hadv]
  cases hres : resolveOverlaps job.reduce (job.pick p) (ofRank p outD)
      (got.flatMap toLogicalInputs) with
  | error e =>
    refine ⟨fun s' h => ?_, fun e' _ => hiff.mp ⟨e, hres⟩⟩
    cases h
  | ok cells =>
    refine ⟨fun s' h => ?_, fun e' h => ?_⟩
    on_goal 2 => cases h
    cases h
    obtain ⟨hlen, hsource, -⟩ := resolveFrom_eq_ok hres
    refine ⟨⟨inD, outD, cells, hag, rfl, hlen, fun cs hcs c hc => ?_⟩, fun hf => ?_⟩
    · exact (mem_sentTo hag.validated (hgot.mem_iff.mp (hsource cs hcs c hc))).2
    · obtain ⟨e, he⟩ := hiff.mpr hf
      rw [hres] at he
      cases he

theorem respond_ok (rank : ℕ) {myInputs : List TensorDescr} (reqs : List ReadRequest)
    (h : ∀ req ∈ reqs, req.inputIndex < myInputs.length) (s : Responses) :
    ∃ s', reqs.foldlM (respondTo rank myInputs) s = .ok s' ∧
      ∀ resp ∈ s'.responses, resp ∈ s.responses ∨ ∃ req ∈ reqs,
        resp.requesterRank = req.requesterRank ∧ resp.outputIndex = req.outputIndex := by
  induction reqs generalizing s with
  | nil => exact ⟨s, rfl, fun resp hresp => .inl hresp⟩
  | cons req reqs ih =>
    have hone : ∃ s₁, respondTo rank myInputs s req = .ok s₁ ∧
        ∃ resp, s₁.responses = s.responses ++ [resp] ∧
          resp.requesterRank = req.requesterRank ∧ resp.outputIndex = req.outputIndex := by
      unfold respondTo
      rw [List.getElem?_eq_getElem (h req mem_cons_self)]
      simp only
      split
      · exact ⟨_, rfl, _, rfl, rfl, rfl⟩
      · exact ⟨_, rfl, _, rfl, rfl, rfl⟩
    obtain ⟨s₁, hs₁, resp₁, hresp₁, hrank, houtput⟩ := hone
    obtain ⟨s', hs', hmem⟩ := ih (fun r hr => h r (mem_cons_of_mem _ hr)) s₁
    refine ⟨s', ?_, fun resp hresp => ?_⟩
    · rw [foldlM_cons, hs₁]
      exact hs'
    · rcases hmem resp hresp with hin | ⟨r, hr, heq⟩
      · rw [hresp₁] at hin
        rcases mem_append.mp hin with hin | hin
        · exact .inl hin
        · rw [mem_singleton.mp hin]
          exact .inr ⟨req, mem_cons_self, hrank, houtput⟩
      · exact .inr ⟨r, mem_cons_of_mem _ hr, heq⟩

theorem finalize_ok (itemsize : ℕ) (myInputs : List TensorDescr) {myOutputs : List TensorDescr}
    (copies : List Copy) {received : List ReadResponse}
    (h : ∀ resp ∈ received, resp.outputIndex < myOutputs.length) :
    ∃ op, finalize itemsize myInputs myOutputs copies received = .ok op := by
  have hloop : ∀ (resps : List ReadResponse) (s : Reads),
      (∀ resp ∈ resps, resp.outputIndex < myOutputs.length) →
      ∃ s', resps.foldlM (finalizeRead itemsize myOutputs) s = .ok s' := by
    intro resps
    induction resps with
    | nil => exact fun s _ => ⟨s, rfl⟩
    | cons resp resps ih =>
      intro s hs
      have hone : ∃ s₁, finalizeRead itemsize myOutputs s resp = .ok s₁ := by
        unfold finalizeRead
        rw [List.getElem?_eq_getElem (hs resp mem_cons_self)]
        simp only
        split <;> exact ⟨_, rfl⟩
      obtain ⟨s₁, hs₁⟩ := hone
      obtain ⟨s', hs'⟩ := ih s₁ fun r hr => hs r (mem_cons_of_mem _ hr)
      refine ⟨s', ?_⟩
      rw [foldlM_cons, hs₁]
      exact hs'
  obtain ⟨s, hs⟩ := hloop received {} h
  rw [finalize, hs]
  exact ⟨_, rfl⟩

theorem mem_requestsToSend {rank destRank : ℕ} {req : ReadRequest}
    (h : req ∈ requestsToSend rank cells destRank) :
    req.requesterRank = rank ∧ req.outputIndex < cells.length ∧
      ∃ cs ∈ cells, ∃ c ∈ cs, c.source.inputRank = destRank ∧
        req.inputIndex = c.source.inputIndex := by
  obtain ⟨⟨cs, i⟩, hcs, h⟩ := mem_flatMap.mp h
  obtain ⟨c, hc, rfl⟩ := mem_map.mp h
  obtain ⟨hc, hdest⟩ := mem_filter.mp hc
  have hi := mem_zipIdx hcs
  refine ⟨rfl, by simpa using hi.2.1, cs, ?_, c, hc, by simpa using hdest, rfl⟩
  rw [hi.2.2]
  exact getElem_mem _

/-- Phases 3 and 4 never fail. -/
theorem advance_resolved (hag : job.Agreed inD outD) {all : Fin job.size → List (List CellSource)}
    (hlen : ∀ q, (all q).length = (ofRank q outD).length) (hsource : ∀ q, ∀ cs ∈ all q, ∀ c ∈ cs,
      c.source.inputIndex < (ofRank c.source.inputRank inD).length)
    (hgot : (got.flatMap toRequests).Perm
      ((finRange job.size).flatMap fun q : Fin job.size => requestsToSend q (all q) p)) :
    ∃ s', job.advance p (.resolved inD outD cells) got = .ok s' ∧ job.Ok 2 p s' := by
  have hreq : ∀ req ∈ got.flatMap toRequests,
      req.inputIndex < (ofRank p inD).length ∧
        req.outputIndex < (ofRank req.requesterRank outD).length := by
    intro req hmem
    obtain ⟨q, -, hq⟩ := mem_flatMap.mp (hgot.mem_iff.mp hmem)
    obtain ⟨hrank, hout, cs, hcs, c, hc, hdest, hindex⟩ := mem_requestsToSend hq
    rw [hrank, hindex]
    exact ⟨hdest ▸ hsource q cs hcs c hc, hlen q ▸ hout⟩
  obtain ⟨s', hs', hresp⟩ := respond_ok p (got.flatMap toRequests)
    (fun req hmem => (hreq req hmem).1) {}
  refine ⟨.responded inD outD s', ?_, inD, outD, s', hag, rfl, fun resp hmem => ?_⟩
  · rw [Job.advance, respond, hs']
    rfl
  · rcases hresp resp hmem with hin | ⟨req, hreq', hrank, hout⟩
    · simp at hin
    · rw [hrank, hout]
      exact (hreq req hreq').2

/-- Phase 5 never fails. -/
theorem advance_responded {resps : Responses} {all : Fin job.size → Responses}
    (hout : ∀ q, ∀ resp ∈ (all q).responses,
      resp.outputIndex < (ofRank resp.requesterRank outD).length)
    (hgot : (got.flatMap toResponses).Perm
      ((finRange job.size).flatMap fun q => responsesToSend (all q) p)) :
    ∃ s', job.advance p (.responded inD outD resps) got = .ok s' ∧ job.Ok 3 p s' := by
  have hresp : ∀ resp ∈ got.flatMap toResponses,
      resp.outputIndex < (ofRank p outD).length := by
    intro resp hmem
    obtain ⟨q, -, hq⟩ := mem_flatMap.mp (hgot.mem_iff.mp hmem)
    obtain ⟨hin, hrank⟩ := mem_filter.mp hq
    have := hout q resp hin
    rwa [of_decide_eq_true hrank] at this
  obtain ⟨op, hop⟩ := finalize_ok job.itemsize (ofRank p inD) resps.inputCopies hresp
  refine ⟨.compiled op, ?_, op, rfl⟩
  rw [Job.advance, hop]
  rfl

end Advance

/-! ## How the ranks end -/

theorem Job.exists_agreed (h : ∀ q, job.Ok 0 q (s q)) (p : Fin job.size) :
    ∃ inD outD, job.Agreed inD outD ∧ ∀ q, s q = .validated inD outD := by
  obtain ⟨inD, outD, hag, -⟩ := h p
  refine ⟨inD, outD, hag, fun q => ?_⟩
  obtain ⟨inD', outD', hag', hq⟩ := h q
  obtain ⟨rfl, rfl⟩ := hag.unique hag'
  exact hq

theorem flatMap_finRange_sentTo (size : ℕ) (inD outD : List TensorDescr) (r : ℕ) :
    ((finRange size).flatMap fun q : Fin size => logicalInputsToSend inD outD q r) =
      sentTo size inD outD r := by
  rw [sentTo, ← map_coe_finRange_eq_range, flatMap_map]

/-- The computation behind barrier `k`, with the batches of all ranks in any order. -/
theorem compile_finish (hfit : job.Fits) {k : ℕ} (hk : k < 3) (hs : ∀ q, job.Ok k q (s q))
    (hgot : (got : Multiset Batch) = (compile job).inbox k s p) :
    (∀ s', job.advance p (s p) got = .ok s' → job.Ok (k + 1) p s' ∧ ¬ job.Fails (k + 1) p) ∧
      ∀ e, job.advance p (s p) got = .error e → job.Fails (k + 1) p := by
  -- in the later rounds the rank always goes on
  have hgoes : ∀ j, j ≠ 0 → (∃ s', job.advance p (s p) got = .ok s' ∧ job.Ok (j + 1) p s') →
      (∀ s', job.advance p (s p) got = .ok s' → job.Ok (j + 1) p s' ∧ ¬ job.Fails (j + 1) p) ∧
        ∀ e, job.advance p (s p) got = .error e → job.Fails (j + 1) p := by
    rintro j hj ⟨s', hs', hok⟩
    obtain ⟨i, rfl⟩ := Nat.exists_eq_succ_of_ne_zero hj
    rw [hs']
    refine ⟨fun s'' h => ?_, fun e h => ?_⟩
    · cases h
      exact ⟨hok, fun hf => hf⟩
    · cases h
  match k, hk with
  | 0, _ =>
    obtain ⟨inD, outD, hag, hq⟩ := Job.exists_agreed hs p
    have hperm := flatMap_got_perm hgot toLogicalInputs
    simp only [hq, Local.batch, toLogicalInputs] at hperm
    rw [hq p]
    exact advance_validated hfit hag (flatMap_finRange_sentTo _ inD outD p ▸ hperm)
  | 1, _ =>
    obtain ⟨inD, outD, -, hag, -, -, -⟩ := hs p
    have hall : ∀ q, ∃ cells, s q = .resolved inD outD cells ∧
        cells.length = (ofRank q outD).length ∧
        ∀ cs ∈ cells, ∀ c ∈ cs, c.source.inputIndex < (ofRank c.source.inputRank inD).length := by
      intro q
      obtain ⟨inD', outD', cells, hag', hq, hlen, hsource⟩ := hs q
      obtain ⟨rfl, rfl⟩ := hag.unique hag'
      exact ⟨cells, hq, hlen, hsource⟩
    choose all hq hlen hsource using hall
    have hperm := flatMap_got_perm hgot toRequests
    simp only [hq, Local.batch, toRequests] at hperm
    refine hgoes 1 one_ne_zero ?_
    rw [hq p]
    exact advance_resolved hag hlen hsource hperm
  | 2, _ =>
    obtain ⟨inD, outD, -, hag, -, -⟩ := hs p
    have hall : ∀ q, ∃ resps, s q = .responded inD outD resps ∧
        ∀ resp ∈ resps.responses, resp.outputIndex < (ofRank resp.requesterRank outD).length := by
      intro q
      obtain ⟨inD', outD', resps, hag', hq, hout⟩ := hs q
      obtain ⟨rfl, rfl⟩ := hag.unique hag'
      exact ⟨resps, hq, hout⟩
    choose all hq hout using hall
    have hperm := flatMap_got_perm hgot toResponses
    simp only [hq, Local.batch, toResponses] at hperm
    refine hgoes 2 two_ne_zero ?_
    rw [hq p]
    exact advance_responded hout hperm

/-- Who throws does not depend on the order of the batches. -/
theorem compile_predicts (hfit : job.Fits) : (compile job).Predicts job.Ok job.Fails where
  start_ok p s h := by
    obtain ⟨⟨inD, outD⟩, hvalid, h⟩ := except_bind_eq_ok.mp h
    cases h
    refine ⟨⟨inD, outD, Job.agreed_of_validate hvalid, rfl⟩, ?_⟩
    rintro ⟨e, he⟩
    rw [hvalid] at he
    cases he
  start_error p e h := by
    show job.Rejects p
    cases hvalid : validate p (job.deviceIndex p) job.inputs job.outputs with
    | error e' => exact ⟨e', hvalid⟩
    | ok ds =>
      simp only [compile, hvalid] at h
      cases h
  finish_ok k hk s hs p got hgot := (compile_finish hfit hk hs hgot).1
  finish_error k hk s hs p got hgot := (compile_finish hfit hk hs hgot).2

/-- Wherever a run cannot go on, all ranks have returned a plan or all have thrown, and the queues
are empty. -/
def Job.EndsAlike (job : Job) : Prop :=
  ∀ st, (compile job).Reachable st → (compile job).Stuck st →
    ((∀ r, ∃ op, st.phase r = .done (.compiled op)) ∨ ∀ r, ∃ k e, st.phase r = .failed k e) ∧
      ∀ r, st.queue r = 0

/-- If the first ranks throw before barrier `j`, the others wait there for ever. -/
theorem Job.endsAlike_iff_of_first (hfit : job.Fits) {j : ℕ} (hj : j ≤ 3)
    (hbefore : ∀ i < j, ∀ r, ¬ job.Fails i r) (hsome : ∃ r, job.Fails j r) :
    job.EndsAlike ↔ ∀ r, job.Fails j r := by
  have hend : ∀ st, (compile job).Reachable st → (compile job).Stuck st → ∀ r, st.queue r = 0 ∧
      (job.Fails j r → ∃ e, st.phase r = .failed j e) ∧
      (¬ job.Fails j r → ∃ sp, st.phase r = .waiting j sp) := fun st hst hstuck =>
    (compile_predicts hfit).blocked_of_stuck hj hbefore hsome hst hstuck
  constructor
  · intro hall
    obtain ⟨st, hst, hstuck⟩ := (compile job).exists_stuck (compile job).init
    obtain ⟨p, hp⟩ := hsome
    obtain ⟨e, he⟩ := (hend st hst hstuck p).2.1 hp
    rcases (hall st hst hstuck).1 with hdone | hfailed
    · obtain ⟨op, hop⟩ := hdone p
      rw [he] at hop
      cases hop
    · intro r
      by_contra hr
      obtain ⟨sr, hsr⟩ := (hend st hst hstuck r).2.2 hr
      obtain ⟨k, e', he'⟩ := hfailed r
      rw [hsr] at he'
      cases he'
  · intro hall st hst hstuck
    refine ⟨.inr fun r => ?_, fun r => (hend st hst hstuck r).1⟩
    obtain ⟨e, he⟩ := (hend st hst hstuck r).2.1 (hall r)
    exact ⟨j, e, he⟩

/-- Each rank has a part of an output on the other one. -/
def coveredJob : Job where
  size := 2
  deviceIndex := fun _ => 0
  itemsize := 4
  reduce := .none
  inputs := [⟨0, [0], [1], "w", "cpu"⟩, ⟨1, [1], [2], "w", "cuda:0"⟩]
  outputs := [⟨1, [0], [2], "w", "cpu"⟩, ⟨0, [1], [2], "w", "cuda"⟩]
  pick := fun _ _ _ => 0
  rank_lt := by decide

theorem coverage_coveredJob {x : List ℤ} {out : TensorRegion} (hout : out ∈ coveredJob.outputs)
    (hx : inBox out.offset out.shape x = true) :
    coverage coveredJob.inputs out.tensorId x = 1 := by
  obtain rfl | rfl : out = ⟨1, [0], [2], "w", "cpu"⟩ ∨ out = ⟨0, [1], [2], "w", "cuda"⟩ := by
    simpa [coveredJob] using hout
  all_goals
    obtain _ | ⟨y, _ | _⟩ := x <;>
      simp only [inBox, Bool.and_true, Bool.and_false, Bool.false_eq_true, Bool.and_eq_true,
        decide_eq_true_eq] at hx
    obtain rfl | rfl | rfl : y = 0 ∨ y = 1 ∨ y = 2 := by omega
    all_goals decide

def missingJob : Job where
  size := 2
  deviceIndex := fun _ => 0
  itemsize := 4
  reduce := .none
  inputs := []
  outputs := [⟨0, [0], [1], "w", "cpu"⟩]
  pick := fun _ _ _ => 0
  rank_lt := by decide

end CompileOp
