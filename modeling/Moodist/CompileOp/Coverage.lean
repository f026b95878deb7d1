import Moodist.Foundation.Chunks
import Moodist.Foundation.Reader
import Moodist.CompileOp.Cells

/-!
# Coverage errors are exact

The errors of phase 2 are about cells of one output and the inputs it has received.
-/

namespace CompileOp

open Foundation List Option

/-! ## Validation -/

/-- The descriptor of a region. -/
structure Describes (region : TensorRegion) (d : TensorDescr) : Prop where
  rank : d.rank = region.rank
  offset : d.offset = region.offset
  shape : d.shape = region.shape
  numel : d.numel = numel region.shape
  tensorId : d.tensorId = region.tensorId

variable {regions : List TensorRegion} {ds : List TensorDescr} {d : TensorDescr} {a b : Box}

theorem exists_region (h : Forall₂ Describes regions ds) (hd : d ∈ ds) :
    ∃ a ∈ regions, Describes a d := by
  induction h with
  | nil => simp at hd
  | cons hdesc _ ih =>
    rcases mem_cons.mp hd with rfl | hd
    · exact ⟨_, mem_cons_self, hdesc⟩
    · obtain ⟨a, ha, hdesc'⟩ := ih hd
      exact ⟨a, mem_cons_of_mem _ ha, hdesc'⟩

theorem describeFrom_spec {counter : ℕ → ℕ} (h : describeFrom counter regions = .ok ds) :
    Forall₂ Describes regions ds ∧
      ∀ r, (ofRank r ds).map TensorDescr.index =
        range' (counter r) (ofRank r ds).length := by
  induction regions generalizing counter ds with
  | nil =>
    cases h
    exact ⟨.nil, fun r => rfl⟩
  | cons region regions ih =>
    obtain ⟨device, -, h⟩ := except_bind_eq_ok.mp h
    obtain ⟨ds', hds', h⟩ := except_bind_eq_ok.mp h
    cases h
    obtain ⟨hforall, hindex⟩ := ih hds'
    refine ⟨.cons ⟨rfl, rfl, rfl, rfl, rfl⟩ hforall, fun r => ?_⟩
    have hr := hindex r
    by_cases hrank : region.rank = r
    · subst hrank
      simp only [Function.update_self] at hr
      simpa [ofRank, range'_succ] using hr
    · rw [Function.update_of_ne (Ne.symm hrank)] at hr
      simpa [ofRank, hrank] using hr

/-- The table after the loop has the dimensions of every region. -/
theorem validateNdims_spec {kind : String} {idx : ℕ} {t t' : List (String × ℕ)}
    (h : validateNdims kind idx regions t = .ok t') :
    (∀ id n, t.lookup id = some n → t'.lookup id = some n) ∧
      ∀ region ∈ regions, region.offset.length = region.shape.length ∧
        t'.lookup region.tensorId = some region.offset.length := by
  induction regions generalizing idx t with
  | nil =>
    cases h
    exact ⟨fun _ _ h => h, by simp⟩
  | cons region regions ih =>
    obtain ⟨u, hu, h⟩ := except_bind_eq_ok.mp h
    obtain ⟨hkeep, hrest⟩ := ih h
    suffices hhead : (∀ id n, t.lookup id = some n → u.lookup id = some n) ∧
        region.offset.length = region.shape.length ∧
        u.lookup region.tensorId = some region.offset.length by
      refine ⟨fun id n hn => hkeep id n (hhead.1 id n hn), fun r hr => ?_⟩
      rcases mem_cons.mp hr with rfl | hr
      · exact ⟨hhead.2.1, hkeep _ _ hhead.2.2⟩
      · exact hrest r hr
    unfold validateAndRecordNdim at hu
    split at hu
    case isTrue => cases hu
    case isFalse hlen =>
      split at hu
      case h_1 n hn =>
        split at hu
        case isTrue => cases hu
        case isFalse hn' =>
          cases hu
          exact ⟨fun _ _ h => h, not_not.mp hlen, by rw [hn, not_not.mp hn']⟩
      case h_2 hnone =>
        cases hu
        refine ⟨fun id n hn => ?_, not_not.mp hlen, by simp [lookup]⟩
        have hne : (id == region.tensorId) = false := by
          refine beq_false_of_ne fun heq => ?_
          rw [heq, hnone] at hn
          cases hn
        simpa [lookup, hne] using hn

/-- What the checks before the first exchange establish. -/
structure Validated (inputs outputs : List TensorRegion) (inD outD : List TensorDescr) : Prop where
  describes_inputs : Forall₂ Describes inputs inD
  describes_outputs : Forall₂ Describes outputs outD
  inputIndex : ∀ r, (ofRank r inD).map TensorDescr.index = range (ofRank r inD).length
  outputIndex : ∀ r, (ofRank r outD).map TensorDescr.index = range (ofRank r outD).length
  lengths : ∀ a ∈ inputs ++ outputs, a.offset.length = a.shape.length
  ndims : ∀ a ∈ inputs ++ outputs, ∀ b ∈ inputs ++ outputs, a.tensorId = b.tensorId →
    a.offset.length = b.offset.length

section Validate

variable {rank : ℕ} {deviceIndex : ℤ} {inputs outputs : List TensorRegion}
  {inD outD : List TensorDescr} (h : validate rank deviceIndex inputs outputs = .ok (inD, outD))

include h

theorem exists_of_validate : ∃ t t', validateNdims "input" 0 inputs [] = .ok t ∧
    validateNdims "output" 0 outputs t = .ok t' ∧ describe inputs = .ok inD ∧
      describe outputs = .ok outD := by
  obtain ⟨t, ht, h⟩ := except_bind_eq_ok.mp h
  obtain ⟨t', ht', h⟩ := except_bind_eq_ok.mp h
  obtain ⟨-, -, h⟩ := except_bind_eq_ok.mp h
  obtain ⟨-, -, h⟩ := except_bind_eq_ok.mp h
  obtain ⟨inD', hin, h⟩ := except_bind_eq_ok.mp h
  obtain ⟨outD', hout, h⟩ := except_bind_eq_ok.mp h
  cases h
  exact ⟨t, t', ht, ht', hin, hout⟩

theorem validate_spec : Validated inputs outputs inD outD := by
  obtain ⟨t, t', ht, ht', hin, hout⟩ := exists_of_validate h
  obtain ⟨-, hi⟩ := validateNdims_spec ht
  obtain ⟨hkeep, ho⟩ := validateNdims_spec ht'
  have hall : ∀ a ∈ inputs ++ outputs, a.offset.length = a.shape.length ∧
      t'.lookup a.tensorId = some a.offset.length := by
    intro a ha
    rcases mem_append.mp ha with ha | ha
    · exact ⟨(hi a ha).1, hkeep _ _ (hi a ha).2⟩
    · exact ho a ha
  obtain ⟨hin, hini⟩ := describeFrom_spec hin
  obtain ⟨hout, houti⟩ := describeFrom_spec hout
  refine ⟨hin, hout, fun r => ?_, fun r => ?_, fun a ha => (hall a ha).1, fun a ha b hb hab => ?_⟩
  · rw [hini r, range_eq_range']
  · rw [houti r, range_eq_range']
  · have := (hall a ha).2
    rw [hab, (hall b hb).2] at this
    exact (some.inj this).symm

end Validate

/-! ## Intersections -/

theorem intersection_length (hlen : a.length = b.length) :
    (intersection a b).length = b.length := by
  simp [intersection, hlen]

variable {x : List ℤ}

theorem intersects_of_inSpan (ha : InSpan (span a) x) (hb : InSpan (span b) x) :
    intersects a b = true := by
  induction a generalizing b x with
  | nil => simp [intersects]
  | cons p a ih =>
    cases b with
    | nil => simp [intersects]
    | cons q b =>
      cases ha with
      | cons hp ha =>
        cases hb with
        | cons hq hb =>
          have hrest := ih ha hb
          simp only at hp hq
          simp only [intersects] at hrest
          simp only [intersects, zip_cons_cons, all_cons, hrest, Bool.and_true]
          simp only [ge_iff_le, Bool.not_eq_true', Bool.or_eq_false_iff, decide_eq_false_iff_not]
          omega

theorem inSpan_intersection (hlen : a.length = b.length) :
    InSpan (span (intersection a b)) x ↔ InSpan (span a) x ∧ InSpan (span b) x := by
  induction a generalizing b x with
  | nil =>
    obtain rfl : b = [] := length_eq_zero_iff.mp hlen.symm
    simp [intersection, InSpan, span]
  | cons p a ih =>
    cases b with
    | nil => simp at hlen
    | cons q b =>
      cases x with
      | nil => simp [intersection, InSpan, span]
      | cons y x =>
        have hrest := ih (x := x) (Nat.succ_injective hlen)
        simp only [InSpan, intersection] at hrest
        simp only [InSpan, intersection, span_cons, zipWith_cons_cons, forall₂_cons,
          hrest, add_sub_cancel, sup_le_iff, lt_inf_iff]
        tauto

/-- The part of a box in one that is not empty has its ends there. -/
theorem intersection_inside (h : intersects a b = true) (hlen : a.length = b.length)
    (hpos : ∀ q ∈ b, 0 < q.2) (d : ℕ) :
    let i := (intersection a b).getD d (0, 0)
    let o := b.getD d (0, 0)
    (o.1 ≤ i.1 ∧ i.1 ≤ o.1 + o.2) ∧ o.1 ≤ i.1 + i.2 ∧ i.1 + i.2 ≤ o.1 + o.2 := by
  induction a generalizing b d with
  | nil =>
    obtain rfl : b = [] := length_eq_zero_iff.mp hlen.symm
    simp [intersection]
  | cons p a ih =>
    cases b with
    | nil => simp at hlen
    | cons q b =>
      simp only [intersects, zip_cons_cons, all_cons, Bool.and_eq_true, Bool.not_eq_true',
        Bool.or_eq_false_iff, decide_eq_false_iff_not] at h
      cases d with
      | zero =>
        have hq := hpos q mem_cons_self
        simp only [intersection, zipWith_cons_cons, getD_cons_zero]
        omega
      | succ d =>
        have hrest := ih h.2 (Nat.succ_injective hlen) (fun q hq => hpos q (mem_cons_of_mem _ hq)) d
        simpa only [intersection, zipWith_cons_cons, getD_cons_succ] using hrest

variable {inp out : TensorDescr} {k : ℕ} {e : CompileError}

/-- A coordinate of the output is in the part of an input exactly when it is in the input. -/
theorem inBox_logicalInput (hinp : inp.offset.length = inp.shape.length)
    (hout : out.offset.length = out.shape.length)
    (hndim : inp.tensorId = out.tensorId → inp.offset.length = out.offset.length)
    (hx : inBox out.offset out.shape x = true) :
    ((logicalInput inp out).map fun li => inBox li.offset li.shape x).getD false = true ↔
      inp.tensorId = out.tensorId ∧ inBox inp.offset inp.shape x = true := by
  rw [inBox_iff_inSpan hinp]
  rw [inBox_iff_inSpan hout] at hx
  unfold logicalInput
  split
  case isTrue h =>
    have hlen : inp.box.length = out.box.length := by
      simp [TensorDescr.box, ← hinp, ← hout, hndim h.1]
    simp only [map_some, getD_some]
    rw [inBox_iff_inSpan (by simp), zip_map_fst_snd, inSpan_intersection hlen]
    exact ⟨fun hx' => ⟨h.1, hx'.1⟩, fun hx' => ⟨hx'.2, hx⟩⟩
  case isFalse h =>
    refine ⟨fun hx' => by simp at hx', ?_⟩
    rintro ⟨hid, hinx⟩
    exact absurd ⟨hid, intersects_of_inSpan hinx hx⟩ h

theorem logicalInput_eq_some {li : LogicalInput} (h : logicalInput inp out = some li) :
    (inp.tensorId = out.tensorId ∧ intersects inp.box out.box = true) ∧
      li.box = intersection inp.box out.box ∧
      li.offset.length = (intersection inp.box out.box).length ∧
      li.shape.length = (intersection inp.box out.box).length ∧
      li.inputRank = inp.rank ∧ li.inputIndex = inp.index ∧
      li.outputRank = out.rank ∧ li.outputIndex = out.index := by
  unfold logicalInput at h
  split at h
  case isTrue hcond =>
    cases h
    exact ⟨hcond, zip_map_fst_snd _, by simp, by simp, rfl, rfl, rfl, rfl⟩
  case isFalse => cases h

/-- Boundaries within an output of this length cut it into so many intervals at most. -/
theorem length_boundariesAt_le {out : Box} {inputs : List LogicalInput} {d : ℕ}
    (hd : d < out.length) (hpos : 0 < out[d].2)
    (h : ∀ li ∈ inputs, let i := li.box.getD d (0, 0)
      (out[d].1 ≤ i.1 ∧ i.1 ≤ out[d].1 + out[d].2) ∧
        out[d].1 ≤ i.1 + i.2 ∧ i.1 + i.2 ≤ out[d].1 + out[d].2) :
    (boundariesAt out inputs d).length - 1 ≤ out[d].2.toNat := by
  have hsub : (boundariesAt out inputs d).toFinset ⊆
      Finset.Icc out[d].1 (out[d].1 + out[d].2) := by
    intro y hy
    rw [List.mem_toFinset, boundariesAt, mem_sortUnique, getD_eq_getElem _ _ hd] at hy
    rw [Finset.mem_Icc]
    obtain rfl | rfl | hy := by simpa only [mem_cons] using hy
    · omega
    · omega
    · obtain ⟨li, hli, hy⟩ := mem_flatMap.mp hy
      have hin := h li hli
      obtain rfl | rfl := by simpa only [mem_cons, not_mem_nil, or_false] using hy
      · exact hin.1
      · exact hin.2
  have hnodup : (boundariesAt out inputs d).Nodup := nodup_dedup _
  have hcard := Finset.card_le_card hsub
  rw [toFinset_card_of_nodup hnodup, Int.card_Icc] at hcard
  omega

/-! ## What a rank receives -/

/-- Everything that is sent to rank `r` in phase 1, by all ranks in order. -/
def sentTo (size : ℕ) (inD outD : List TensorDescr) (r : ℕ) : List LogicalInput :=
  (range size).flatMap fun src => logicalInputsToSend inD outD src r

/-- Of what is sent for outputs with different numbers, the part for one of them. -/
theorem filter_flatMap_outputIndex {f : TensorDescr → List LogicalInput}
    (hf : ∀ out, ∀ li ∈ f out, li.outputIndex = out.index) {outs : List TensorDescr} {start : ℕ}
    (hindex : outs.map TensorDescr.index = range' start outs.length) (hk : outs[k]? = some out) :
    (outs.flatMap f).filter (fun li => li.outputIndex = start + k) = f out := by
  have hnone : ∀ (os : List TensorDescr), (∀ o ∈ os, o.index ≠ start + k) →
      (os.flatMap f).filter (fun li => li.outputIndex = start + k) = [] := by
    intro os hos
    refine filter_eq_nil_iff.mpr fun li hli => ?_
    obtain ⟨o, ho, hli⟩ := mem_flatMap.mp hli
    simpa [hf o li hli] using hos o ho
  have hself : ∀ o : TensorDescr, o.index = start + k →
      (f o).filter (fun li => li.outputIndex = start + k) = f o := by
    intro o ho
    refine filter_eq_self.mpr fun li hli => ?_
    simpa [hf o li hli] using ho
  induction outs generalizing start k with
  | nil => simp at hk
  | cons o outs ih =>
    rw [map_cons, length_cons, range'_succ, List.cons.injEq] at hindex
    rw [flatMap_cons, filter_append]
    cases k with
    | zero =>
      obtain rfl : o = out := by simpa using hk
      have hrest : ∀ o' ∈ outs, o'.index ≠ start + 0 := by
        intro o' ho'
        have := mem_map_of_mem (f := TensorDescr.index) ho'
        rw [hindex.2] at this
        have := left_le_of_mem_range' this
        omega
      rw [hself o hindex.1, hnone outs hrest, append_nil]
    | succ k =>
      have hhead : (f o).filter (fun li => li.outputIndex = start + (k + 1)) = [] := by
        simpa using hnone [o] (by simp only [mem_singleton, forall_eq]; omega)
      have heq : start + (k + 1) = start + 1 + k := by omega
      rw [hhead, nil_append]
      simp only [heq] at hnone hself ⊢
      exact ih hindex.2 (by simpa using hk) hnone hself

theorem mem_of_mem_ofRank {r : ℕ} (h : d ∈ ofRank r ds) :
    d ∈ ds := mem_of_mem_filter h

section Received

variable {inputs outputs : List TensorRegion} {inD outD : List TensorDescr} {size r k : ℕ}
  {out : TensorDescr} {received : List LogicalInput} {x : List ℤ}

section

variable (hv : Validated inputs outputs inD outD)

include hv

theorem input_length (hinp : inp ∈ inD) :
    inp.offset.length = inp.shape.length := by
  obtain ⟨a, ha, hdesc⟩ := exists_region hv.describes_inputs hinp
  rw [hdesc.offset, hdesc.shape]
  exact hv.lengths a (mem_append_left _ ha)

theorem output_length (hout : out ∈ outD) : out.offset.length = out.shape.length := by
  obtain ⟨a, ha, hdesc⟩ := exists_region hv.describes_outputs hout
  rw [hdesc.offset, hdesc.shape]
  exact hv.lengths a (mem_append_right _ ha)

theorem ndim_eq (hinp : inp ∈ inD) (hout : out ∈ outD)
    (hid : inp.tensorId = out.tensorId) : inp.offset.length = out.offset.length := by
  obtain ⟨a, ha, hdesc⟩ := exists_region hv.describes_inputs hinp
  obtain ⟨b, hb, hdesc'⟩ := exists_region hv.describes_outputs hout
  rw [hdesc.offset, hdesc'.offset]
  refine hv.ndims a (mem_append_left _ ha) b (mem_append_right _ hb) ?_
  rw [← hdesc.tensorId, hid, hdesc'.tensorId]

theorem box_length (hinp : inp ∈ inD) (hout : out ∈ outD) (hid : inp.tensorId = out.tensorId) :
    inp.box.length = out.box.length := by
  simp [TensorDescr.box, ← input_length hv hinp, ← output_length hv hout, ndim_eq hv hinp hout hid]

variable (hsize : ∀ a ∈ inputs, a.rank < size) (hrec : received.Perm (sentTo size inD outD r))
  (hk : (ofRank r outD)[k]? = some out) (hnumel : out.numel ≠ 0)

include hsize hrec hk hnumel

theorem received_perm : (received.filter fun li => li.outputIndex = k).Perm
      (inD.filterMap fun inp => logicalInput inp out) := by
  have hf : ∀ src, ∀ o : TensorDescr, ∀ li ∈ (if o.numel = 0 then [] else
      (ofRank src inD).filterMap fun inp => logicalInput inp o), li.outputIndex = o.index := by
    intro src o li hli
    split at hli
    · simp at hli
    · obtain ⟨inp, -, hli⟩ := mem_filterMap.mp hli
      exact (logicalInput_eq_some hli).2.2.2.2.2.2.2
  have hone : ∀ src, (logicalInputsToSend inD outD src r).filter (fun li => li.outputIndex = k) =
      (ofRank src inD).filterMap fun inp => logicalInput inp out := by
    intro src
    have := filter_flatMap_outputIndex (hf src) (by rw [hv.outputIndex r, range_eq_range']) hk
    simpa [logicalInputsToSend, hnumel] using this
  have hranks : ∀ inp ∈ inD, inp.rank < size := by
    intro inp hinp
    obtain ⟨a, ha, hdesc⟩ := exists_region hv.describes_inputs hinp
    exact hdesc.rank ▸ hsize a ha
  refine (hrec.filter _).trans ?_
  rw [sentTo, filter_flatMap]
  simp only [hone, ofRank]
  rw [← filterMap_flatMap]
  exact (flatMap_range_filter_perm TensorDescr.rank inD size hranks).filterMap _

theorem received_fits :
    Fits out.box.length (received.filter fun li => li.outputIndex = k) := by
  intro li hli
  rw [(received_perm hv hsize hrec hk hnumel).mem_iff, mem_filterMap] at hli
  obtain ⟨inp, hinp, hli⟩ := hli
  obtain ⟨⟨hid, -⟩, -, hoff, hshape, -⟩ := logicalInput_eq_some hli
  have hlen := box_length hv hinp (mem_of_mem_ofRank (mem_of_getElem? hk)) hid
  rw [intersection_length hlen] at hoff hshape
  exact ⟨hoff, hshape⟩

/-- There are not more cells than coordinates. -/
theorem cellCount_le (hpos : ∀ s ∈ out.shape, 0 < s) :
    (cellCount (boundaries out.box (received.filter fun li => li.outputIndex = k)) : ℤ) ≤
      out.shape.prod := by
  have hout := mem_of_mem_ofRank (mem_of_getElem? hk)
  have hbox : ∀ q ∈ out.box, 0 < q.2 := fun q hq => hpos q.2 (of_mem_zip hq).2
  have hone : ∀ d ∈ range out.box.length,
      (boundariesAt out.box (received.filter fun li => li.outputIndex = k) d).length - 1 ≤
        (out.box.getD d (0, 0)).2.toNat := by
    intro d hd
    rw [getD_eq_getElem _ _ (mem_range.mp hd)]
    refine length_boundariesAt_le (mem_range.mp hd) (hbox _ (getElem_mem _)) fun li hli => ?_
    rw [(received_perm hv hsize hrec hk hnumel).mem_iff, mem_filterMap] at hli
    obtain ⟨inp, hinp, hli⟩ := hli
    obtain ⟨⟨hid, hint⟩, heq, -⟩ := logicalInput_eq_some hli
    have hinside := intersection_inside hint (box_length hv hinp hout hid) hbox d
    rwa [← heq, getD_eq_getElem out.box _ (mem_range.mp hd)] at hinside
  have hshape : (range out.box.length).map (fun d => (out.box.getD d (0, 0)).2.toNat) =
      out.shape.map Int.toNat := by
    refine ext_getElem (by simp [TensorDescr.box, output_length hv hout]) fun d h₁ h₂ => ?_
    have hd : d < out.box.length := by simpa using h₁
    rw [getElem_map, getElem_range, getD_eq_getElem _ _ hd, getElem_map]
    simp [TensorDescr.box]
  have hprod : ((out.shape.map Int.toNat).prod : ℤ) = out.shape.prod := by
    rw [Nat.cast_list_prod, List.map_map]
    refine congrArg List.prod ((map_congr_left fun s hs => ?_).trans (map_id _))
    exact Int.toNat_of_nonneg (hpos s hs).le
  rw [← hprod, ← hshape, cellCount, boundaries, List.map_map]
  exact_mod_cast prod_le_prod' hone

end

def coverage (inputs : List TensorRegion) (tensorId : String) (x : List ℤ) : ℕ :=
  inputs.countP fun inp => inp.tensorId = tensorId ∧ inBox inp.offset inp.shape x = true

theorem coverage_eq_countP {tensorId : String} (h : Forall₂ Describes inputs inD) :
    coverage inputs tensorId x =
      inD.countP fun inp => inp.tensorId = tensorId ∧ inBox inp.offset inp.shape x = true := by
  induction h with
  | nil => rfl
  | cons hdesc _ ih =>
    unfold coverage at ih ⊢
    simp only [countP_cons, ih, hdesc.tensorId, hdesc.offset, hdesc.shape]

theorem hits_received (hv : Validated inputs outputs inD outD)
    (hsize : ∀ a ∈ inputs, a.rank < size) (hrec : received.Perm (sentTo size inD outD r))
    (hk : (ofRank r outD)[k]? = some out) (hnumel : out.numel ≠ 0)
    (hx : inBox out.offset out.shape x = true) :
    hits (received.filter fun li => li.outputIndex = k) x = coverage inputs out.tensorId x := by
  have hout := mem_of_mem_ofRank (mem_of_getElem? hk)
  rw [hits, (received_perm hv hsize hrec hk hnumel).countP_eq, countP_filterMap,
    coverage_eq_countP hv.describes_inputs]
  refine countP_congr fun inp hinp => ?_
  rw [inBox_logicalInput (input_length hv hinp) (output_length hv hout)
    (ndim_eq hv hinp hout) hx, decide_eq_true_eq]

end Received

/-! ## The outputs of a rank -/

def Uncovered (inputs : List TensorRegion) (out : TensorRegion) : Prop :=
  ∃ x, inBox out.offset out.shape x = true ∧ coverage inputs out.tensorId x = 0

/-- Some coordinate of the output is in two input regions although it must not. -/
def Overlapped (reduce : ReduceOp) (inputs : List TensorRegion) (out : TensorRegion) : Prop :=
  reduce = .none ∧ ∃ x, inBox out.offset out.shape x = true ∧ 2 ≤ coverage inputs out.tensorId x

def Defective (reduce : ReduceOp) (inputs : List TensorRegion) (out : TensorRegion) : Prop :=
  Uncovered inputs out ∨ Overlapped reduce inputs out

theorem numel_eq (shape : List ℤ) : (numel shape : ℤ) = shape.prod % 2 ^ 64 := by
  have hloop : ∀ (l : List ℤ) (n : ℕ), n < 2 ^ 64 →
      ((l.foldl (fun n x => n * (x % 2 ^ 64).toNat % 2 ^ 64) n : ℕ) : ℤ) = n * l.prod % 2 ^ 64 := by
    intro l
    induction l with
    | nil =>
      intro n hn
      simp only [foldl_nil, prod_nil, mul_one]
      omega
    | cons a l ih =>
      intro n _
      have ha : ((a % 2 ^ 64).toNat : ℤ) = a % 2 ^ 64 := by omega
      rw [foldl_cons, ih _ (Nat.mod_lt _ (by norm_num)), prod_cons]
      rw [Int.natCast_emod, Nat.cast_mul, ha, Nat.cast_pow, Nat.cast_ofNat]
      have hhead : (n : ℤ) * (a % 2 ^ 64) % 2 ^ 64 ≡ n * a [ZMOD 2 ^ 64] :=
        (Int.mod_modEq _ _).trans ((Int.mod_modEq a _).mul_left n)
      rw [← mul_assoc]
      exact hhead.mul_right l.prod
  simpa [numel] using hloop shape 1 (by norm_num)

theorem numel_ne_zero {offset shape : List ℤ} (hfit : shape.prod < 2 ^ 63)
    (hx : inBox offset shape x = true) : numel shape ≠ 0 := by
  have hpos := prod_pos (inBox_pos hx)
  have heq := numel_eq shape
  rw [Int.emod_eq_of_lt hpos.le (by omega)] at heq
  omega

section Resolve

variable {reduce : ReduceOp} {pick : ℕ → ℕ → ℕ} {received : List LogicalInput}

/-- Phase 2 for output number `idx`. -/
def resolveAt (reduce : ReduceOp) (pick : ℕ → ℕ → ℕ) (received : List LogicalInput) (idx : ℕ)
    (out : TensorDescr) : Except CompileError (List CellSource) :=
  resolveOutput reduce (pick idx) idx out (received.filter fun li => li.outputIndex = idx)

theorem resolveFrom_cons (start : ℕ) (out : TensorDescr) (outs : List TensorDescr) :
    resolveFrom reduce pick received start (out :: outs) = (do
      let cells ← resolveAt reduce pick received start out
      let rest ← resolveFrom reduce pick received (start + 1) outs
      return cells :: rest) := rfl

variable {start : ℕ} {outs : List TensorDescr}

/-- Phase 2 stops at the first output that is not resolved. -/
theorem resolveFrom_error {out : TensorDescr}
    (hk : outs[k]? = some out) (herr : resolveAt reduce pick received (start + k) out = .error e)
    (hok : ∀ j < k, ∀ o, outs[j]? = some o → ∃ cells, resolveAt reduce pick received (start + j) o
      = .ok cells) : resolveFrom reduce pick received start outs = .error e := by
  induction outs generalizing start k with
  | nil => simp at hk
  | cons o outs ih =>
    rw [resolveFrom_cons]
    cases k with
    | zero =>
      obtain rfl : o = out := by simpa using hk
      rw [show resolveAt reduce pick received start o = .error e from herr]
      rfl
    | succ k =>
      obtain ⟨cells, hcells⟩ := hok 0 (Nat.succ_pos k) o rfl
      rw [show resolveAt reduce pick received start o = .ok cells from hcells]
      have hrest : resolveFrom reduce pick received (start + 1) outs = .error e := by
        refine ih (by simpa using hk) (by rwa [Nat.add_right_comm, Nat.add_assoc]) ?_
        intro j hj o' ho'
        rw [Nat.add_right_comm, Nat.add_assoc]
        exact hok (j + 1) (by omega) o' (by simpa using ho')
      rw [hrest]
      rfl

theorem resolveFrom_ok (hok : ∀ j, ∀ o, outs[j]? = some o → ∃ cells, resolveAt reduce pick
      received (start + j) o = .ok cells) :
    ∃ cells, resolveFrom reduce pick received start outs = .ok cells := by
  induction outs generalizing start with
  | nil => exact ⟨[], rfl⟩
  | cons o outs ih =>
    obtain ⟨cells, hcells⟩ := hok 0 o rfl
    have hrest : ∃ rest, resolveFrom reduce pick received (start + 1) outs = .ok rest := by
      refine ih fun j o' ho' => ?_
      rw [Nat.add_right_comm, Nat.add_assoc]
      exact hok (j + 1) o' (by simpa using ho')
    obtain ⟨rest, hrest⟩ := hrest
    refine ⟨cells :: rest, ?_⟩
    rw [resolveFrom_cons, show resolveAt reduce pick received start o = .ok cells from hcells,
      hrest]
    rfl

/-- What phase 2 has done when it ends. -/
theorem resolveFrom_eq_ok {cells : List (List CellSource)}
    (h : resolveFrom reduce pick received start outs = .ok cells) :
    cells.length = outs.length ∧ (∀ cs ∈ cells, ∀ c ∈ cs, c.source ∈ received) ∧
      ∀ (j : ℕ) (d : TensorDescr), outs[j]? = some d →
        ∃ cs, resolveAt reduce pick received (start + j) d = .ok cs := by
  induction outs generalizing start cells with
  | nil =>
    cases h
    exact ⟨rfl, by simp, by simp⟩
  | cons o outs ih =>
    obtain ⟨cs, hcs, h⟩ := except_bind_eq_ok.mp h
    obtain ⟨rest, hrest, h⟩ := except_bind_eq_ok.mp h
    cases h
    obtain ⟨hlen, hsource, hok⟩ := ih hrest
    refine ⟨by simp [hlen], fun cs' hcs' c hc => ?_, fun j d hj => ?_⟩
    · rcases mem_cons.mp hcs' with rfl | hcs'
      · exact mem_of_mem_filter (resolveOutput_source hcs c hc)
      · exact hsource cs' hcs' c hc
    · cases j with
      | zero =>
        obtain rfl : o = d := by simpa using hj
        exact ⟨cs, hcs⟩
      | succ j =>
        have := hok j d (by simpa using hj)
        rwa [Nat.add_right_comm, Nat.add_assoc] at this

end Resolve

section Exact

variable {inputs outputs : List TensorRegion} {inD outD : List TensorDescr} {size r : ℕ}
  {received : List LogicalInput} {reduce : ReduceOp}

def ownOutputs (r : ℕ) (outputs : List TensorRegion) : List TensorRegion :=
  outputs.filter fun o => o.rank = r

section

variable (h : Forall₂ Describes outputs outD)

include h

theorem describes_ownOutputs (r : ℕ) :
    Forall₂ Describes (ownOutputs r outputs) (ofRank r outD) := by
  induction h with
  | nil => exact .nil
  | cons hdesc _ ih =>
    unfold ownOutputs ofRank at ih ⊢
    simp only [filter_cons, hdesc.rank]
    split
    · exact .cons hdesc ih
    · exact ih

theorem exists_descr {out : TensorRegion} (hk : (ownOutputs r outputs)[k]? = some out) :
    ∃ d, (ofRank r outD)[k]? = some d ∧ Describes out d := by
  have hown := describes_ownOutputs h r
  obtain ⟨hlt, rfl⟩ := List.getElem?_eq_some_iff.mp hk
  have hlt' : k < (ofRank r outD).length := hown.length_eq ▸ hlt
  exact ⟨_, List.getElem?_eq_getElem hlt', hown.get hlt hlt'⟩

theorem exists_ownOutput (hk : (ofRank r outD)[k]? = some d) :
    ∃ out, (ownOutputs r outputs)[k]? = some out ∧ Describes out d := by
  have hown := describes_ownOutputs h r
  obtain ⟨hlt, rfl⟩ := List.getElem?_eq_some_iff.mp hk
  have hlt' : k < (ownOutputs r outputs).length := hown.length_eq ▸ hlt
  exact ⟨_, List.getElem?_eq_getElem hlt', hown.get hlt' hlt⟩

end

/-- What is found out about one output. -/
structure Verdict {α : Type} (reduce : ReduceOp) (inputs : List TensorRegion) (out : TensorRegion)
    (k : ℕ) (res : Except CompileError α) : Prop where
  ok : ¬ Defective reduce inputs out → ∃ a, res = .ok a
  gap : Uncovered inputs out → ∃ count regions, res = .error (.missingCoverage k count regions) ∧
    regions ≠ [] ∧ ∀ c ∈ regions,
      Reported out.offset out.shape (fun x => coverage inputs out.tensorId x = 0) c
  overlap : ¬ Uncovered inputs out → Overlapped reduce inputs out → ∃ count regions,
    res = .error (.overlappingInputs k count regions) ∧ regions ≠ [] ∧ ∀ c ∈ regions,
      Reported out.offset out.shape (fun x => 2 ≤ coverage inputs out.tensorId x) c.1

theorem mem_ownOutputs {o : TensorRegion} :
    o ∈ ownOutputs r outputs ↔ o ∈ outputs ∧ o.rank = r := by
  simp [ownOutputs]

variable {k : ℕ} {d : TensorDescr} {out : TensorRegion} (hv : Validated inputs outputs inD outD)
  (hsize : ∀ a ∈ inputs, a.rank < size) (hrec : received.Perm (sentTo size inD outD r))
  (pick : ℕ → ℕ → ℕ)

include hv hsize hrec

theorem resolveAt_of_numel (hk : (ofRank r outD)[k]? = some d) (hdesc : Describes out d)
    (hnumel : d.numel ≠ 0) (hfit : out.shape.prod < 2 ^ 63) :
    Verdict reduce inputs out k (resolveAt reduce pick received k d) := by
  have hlen := output_length hv (mem_of_mem_ofRank (mem_of_getElem? hk))
  have hfits := received_fits hv hsize hrec hk hnumel
  have hcount : ∀ x, InSpan (span d.box) x → cellCount (boundaries d.box
      (received.filter fun li => li.outputIndex = k)) < 2 ^ 64 := by
    intro x hx
    have hle := cellCount_le hv hsize hrec hk hnumel
      (inBox_pos ((inBox_iff_inSpan hlen).mpr hx))
    rw [hdesc.shape] at hle
    omega
  -- inside the output, what has been received is what the inputs cover
  have hhits : ∀ x, inBox out.offset out.shape x = true →
      hits (received.filter fun li => li.outputIndex = k) x = coverage inputs out.tensorId x := by
    intro x hx
    rw [← hdesc.offset, ← hdesc.shape] at hx
    rw [hits_received hv hsize hrec hk hnumel hx, hdesc.tensorId]
  have hreport : ∀ (Q : ℕ → Prop) (c : Cell), Reported d.offset d.shape
      (fun x => Q (hits (received.filter fun li => li.outputIndex = k) x)) c →
      Reported out.offset out.shape (fun x => Q (coverage inputs out.tensorId x)) c := by
    intro Q c hc
    rw [hdesc.offset, hdesc.shape] at hc
    refine ⟨hc.nonempty, fun x hx => ?_⟩
    obtain ⟨hin, hQ⟩ := hc.inside x hx
    exact ⟨hin, hhits x hin ▸ hQ⟩
  have hgap : HasGap d (received.filter fun li => li.outputIndex = k) ↔ Uncovered inputs out := by
    unfold HasGap Uncovered
    rw [hdesc.offset, hdesc.shape]
    exact exists_congr fun x => and_congr_right fun hx => by rw [hhits x hx]
  have hover : HasOverlap reduce d (received.filter fun li => li.outputIndex = k) ↔
      Overlapped reduce inputs out := by
    unfold HasOverlap Overlapped
    rw [hdesc.offset, hdesc.shape]
    exact and_congr_right fun _ => exists_congr fun x => and_congr_right fun hx => by
      rw [hhits x hx]
  refine ⟨fun hdef => ?_, fun hunc => ?_, fun hunc hov => ?_⟩
  · exact resolveOutput_ok hlen hfits hcount (pick k) k (fun _ h => hdef (.inl (hgap.mp h)))
      (fun _ h => hdef (.inr (hover.mp h)))
  · obtain ⟨count, regions, heq, hne, hreg⟩ :=
      @resolveOutput_gap d _ reduce hlen hfits hcount (pick k) k hnumel (hgap.mpr hunc)
    exact ⟨count, regions, heq, hne, fun c hc => hreport (· = 0) c (hreg c hc)⟩
  · obtain ⟨count, regions, heq, hne, hreg⟩ :=
      resolveOutput_overlap hlen hfits hcount (pick k) k hnumel (fun h => hunc (hgap.mp h))
        (hover.mpr hov)
    exact ⟨count, regions, heq, hne, fun c hc => hreport (2 ≤ ·) c.1 (hreg c hc)⟩

section

variable (hfit : ∀ a ∈ outputs, a.shape.prod < 2 ^ 63)

include hfit

theorem resolveAt_spec (hk : (ofRank r outD)[k]? = some d) (hdesc : Describes out d)
    (hout : out ∈ outputs) : Verdict reduce inputs out k (resolveAt reduce pick received k d) := by
  by_cases hnumel : d.numel = 0
  · -- the output has no coordinate, and is skipped
    have hnone : ∀ x, inBox out.offset out.shape x ≠ true := by
      intro x hx
      exact numel_ne_zero (hfit out hout) hx (hdesc.numel ▸ hnumel)
    refine ⟨fun _ => ⟨[], by rw [resolveAt, resolveOutput, if_pos hnumel]⟩, ?_, ?_⟩
    · rintro ⟨x, hx, -⟩
      exact absurd hx (hnone x)
    · rintro - ⟨-, x, hx, -⟩
      exact absurd hx (hnone x)
  · exact resolveAt_of_numel hv hsize hrec pick hk hdesc hnumel (hfit out hout)

theorem resolveOverlaps_ok (hdef : ∀ out ∈ outputs, out.rank = r → ¬ Defective reduce inputs out) :
    ∃ cells, resolveOverlaps reduce pick (ofRank r outD) received = .ok cells := by
  refine resolveFrom_ok fun j d hj => ?_
  obtain ⟨out, hout, hdesc⟩ := exists_ownOutput hv.describes_outputs hj
  obtain ⟨hmem, hrank⟩ := mem_ownOutputs.1 (mem_of_getElem? hout)
  rw [Nat.zero_add]
  exact (resolveAt_spec hv hsize hrec pick hfit hj hdesc hmem).ok (hdef out hmem hrank)

theorem resolveOverlaps_error (hk : (ofRank r outD)[k]? = some d)
    (hok : ∀ j < k, ∀ o, (ownOutputs r outputs)[j]? = some o → ¬ Defective reduce inputs o)
    (herr : resolveAt reduce pick received k d = .error e) :
    resolveOverlaps reduce pick (ofRank r outD) received = .error e := by
  refine resolveFrom_error hk (by rwa [Nat.zero_add]) fun j hj d' hd' => ?_
  obtain ⟨out, hout, hdesc⟩ := exists_ownOutput hv.describes_outputs hd'
  have hmem := (mem_ownOutputs.1 (mem_of_getElem? hout)).1
  rw [Nat.zero_add]
  exact (resolveAt_spec hv hsize hrec pick hfit hd' hdesc hmem).ok (hok j hj out hout)

end

omit hv hsize hrec in
theorem exists_first_defective (h : ∃ out ∈ outputs, out.rank = r ∧ Defective reduce inputs out) :
    ∃ (k : ℕ) (out : TensorRegion), (ownOutputs r outputs)[k]? = some out ∧
      Defective reduce inputs out ∧
      ∀ j < k, ∀ o, (ownOutputs r outputs)[j]? = some o → ¬ Defective reduce inputs o := by
  classical
  have hex : ∃ k : ℕ, ∃ out, (ownOutputs r outputs)[k]? = some out ∧
      Defective reduce inputs out := by
    obtain ⟨out, hout, hrank, hdef⟩ := h
    obtain ⟨k, hk⟩ := mem_iff_getElem?.mp (mem_ownOutputs.2 ⟨hout, hrank⟩)
    exact ⟨k, out, hk, hdef⟩
  obtain ⟨out, hout, hdef⟩ := Nat.find_spec hex
  exact ⟨Nat.find hex, out, hout, hdef, fun j hj o ho hdef' => Nat.find_min hex hj ⟨o, ho, hdef'⟩⟩

theorem resolveOverlaps_first (hfit : ∀ a ∈ outputs, a.shape.prod < 2 ^ 63)
    (hk : (ownOutputs r outputs)[k]? = some out) (hdef : Defective reduce inputs out)
    (hmin : ∀ j < k, ∀ o, (ownOutputs r outputs)[j]? = some o → ¬ Defective reduce inputs o) :
    Verdict reduce inputs out k (resolveOverlaps reduce pick (ofRank r outD) received) := by
  obtain ⟨d, hd, hdesc⟩ := exists_descr hv.describes_outputs hk
  have hmem := (mem_ownOutputs.1 (mem_of_getElem? hk)).1
  obtain ⟨-, hgap, hover⟩ := resolveAt_spec hv hsize hrec pick hfit hd hdesc hmem
  refine ⟨fun hnot => absurd hdef hnot, fun hunc => ?_, fun hunc hov => ?_⟩
  · obtain ⟨count, regions, herr, hrest⟩ := hgap hunc
    exact ⟨count, regions, resolveOverlaps_error hv hsize hrec pick hfit hd hmin herr, hrest⟩
  · obtain ⟨count, regions, herr, hrest⟩ := hover hunc hov
    exact ⟨count, regions, resolveOverlaps_error hv hsize hrec pick hfit hd hmin herr, hrest⟩

def ThrowsCoverageError {α : Type} (res : Except CompileError α) : Prop :=
  (∃ outIdx count regions, res = .error (.missingCoverage outIdx count regions)) ∨
    ∃ outIdx count regions, res = .error (.overlappingInputs outIdx count regions)

omit hv hsize hrec in
theorem ThrowsCoverageError.exists_error {α : Type} {res : Except CompileError α}
    (h : ThrowsCoverageError res) : ∃ e, res = .error e := by
  obtain ⟨_, _, _, herr⟩ | ⟨_, _, _, herr⟩ := h
  · exact ⟨_, herr⟩
  · exact ⟨_, herr⟩

theorem throwsCoverageError_of_defective (hfit : ∀ a ∈ outputs, a.shape.prod < 2 ^ 63)
    (h : ∃ out ∈ outputs, out.rank = r ∧ Defective reduce inputs out) :
    ThrowsCoverageError (resolveOverlaps reduce pick (ofRank r outD) received) := by
  obtain ⟨k, out, hk, hdef, hmin⟩ := exists_first_defective h
  have hfirst := resolveOverlaps_first hv hsize hrec pick hfit hk hdef hmin
  by_cases hunc : Uncovered inputs out
  · obtain ⟨count, regions, herr, -⟩ := hfirst.gap hunc
    exact .inl ⟨k, count, regions, herr⟩
  · obtain ⟨count, regions, herr, -⟩ := hfirst.overlap hunc (hdef.resolve_left hunc)
    exact .inr ⟨k, count, regions, herr⟩

theorem resolveOverlaps_error_iff (hfit : ∀ a ∈ outputs, a.shape.prod < 2 ^ 63) :
    (∃ e, resolveOverlaps reduce pick (ofRank r outD) received = .error e) ↔
      ∃ out ∈ outputs, out.rank = r ∧ Defective reduce inputs out := by
  constructor
  · rintro ⟨e, he⟩
    by_contra hnone
    obtain ⟨cells, hok⟩ := resolveOverlaps_ok hv hsize hrec pick hfit
      fun out hout hrank hdef => hnone ⟨out, hout, hrank, hdef⟩
    rw [hok] at he
    cases he
  · intro h
    exact (throwsCoverageError_of_defective hv hsize hrec pick hfit h).exists_error

omit hv hsize hrec

/-- Coverage errors are exact. -/
theorem resolveOverlaps_exact (size r : ℕ) (deviceIndex : ℤ) (reduce : ReduceOp)
    (pick : ℕ → ℕ → ℕ) (inputs outputs : List TensorRegion) (inD outD : List TensorDescr)
    (received : List LogicalInput)
    (hvalid : validate r deviceIndex inputs outputs = .ok (inD, outD))
    (hsize : ∀ a ∈ inputs, a.rank < size) (hfit : ∀ a ∈ outputs, a.shape.prod < 2 ^ 63)
    (hrec : received.Perm (sentTo size inD outD r)) :
    (ThrowsCoverageError (resolveOverlaps reduce pick (ofRank r outD) received) ↔
      ∃ out ∈ outputs, out.rank = r ∧ Defective reduce inputs out) ∧
    ((∀ out ∈ outputs, out.rank = r → ¬ Defective reduce inputs out) →
      ∃ cells, resolveOverlaps reduce pick (ofRank r outD) received = .ok cells) ∧
    ∀ (k : ℕ) (out : TensorRegion), (ownOutputs r outputs)[k]? = some out →
      Defective reduce inputs out →
      (∀ j < k, ∀ o, (ownOutputs r outputs)[j]? = some o → ¬ Defective reduce inputs o) →
      (Uncovered inputs out → ∃ count regions,
        resolveOverlaps reduce pick (ofRank r outD) received =
            .error (.missingCoverage k count regions) ∧
          regions ≠ [] ∧ ∀ c ∈ regions,
            Reported out.offset out.shape (fun x => coverage inputs out.tensorId x = 0) c) ∧
      (¬ Uncovered inputs out → ∃ count regions,
        resolveOverlaps reduce pick (ofRank r outD) received =
            .error (.overlappingInputs k count regions) ∧
          regions ≠ [] ∧ ∀ c ∈ regions,
            Reported out.offset out.shape (fun x => 2 ≤ coverage inputs out.tensorId x) c.1) := by
  have hv := validate_spec hvalid
  refine ⟨⟨fun hthrows => ?_, throwsCoverageError_of_defective hv hsize hrec pick hfit⟩,
    resolveOverlaps_ok hv hsize hrec pick hfit, fun k out hk hdef hmin => ?_⟩
  · exact (resolveOverlaps_error_iff hv hsize hrec pick hfit).mp hthrows.exists_error
  · have hfirst := resolveOverlaps_first hv hsize hrec pick hfit hk hdef hmin
    exact ⟨hfirst.gap, fun hunc => hfirst.overlap hunc (hdef.resolve_left hunc)⟩

end Exact

/-- A 1-dimensional output of length 4 with one input of length 3, and an empty one inside. -/
def gapInputs : List TensorRegion :=
  [⟨1, [0], [3], "w", "cpu"⟩, ⟨0, [2], [0], "w", "cpu"⟩]

def gapOutputs : List TensorRegion := [⟨0, [0], [4], "w", "cuda"⟩]

/-- The last coordinate of the output is missing. -/
theorem resolveOverlaps_exact_gap :
    ∃ inD outD, validate 0 0 gapInputs gapOutputs = .ok (inD, outD) ∧
      ThrowsCoverageError (resolveOverlaps .none (fun _ _ => 0) (ofRank 0 outD)
        (sentTo 2 inD outD 0)) := by
  obtain ⟨inD, outD, hvalid⟩ : ∃ inD outD, validate 0 0 gapInputs gapOutputs = .ok (inD, outD) :=
    ⟨_, _, rfl⟩
  refine ⟨inD, outD, hvalid, ?_⟩
  have hexact := resolveOverlaps_exact 2 0 0 .none (fun _ _ => 0) gapInputs gapOutputs inD outD _
    hvalid (by decide) (by decide) (Perm.refl _)
  refine hexact.1.mpr ⟨_, mem_cons_self, rfl, .inl ⟨[3], by decide, by decide⟩⟩

end CompileOp
