/-
PegaFlow/ExpectedImmCounts.lean

How many IMMs a decode rank expects (`decode_worker.py`, `layout_mapping.py`), and how many
prefill ranks send one.
-/
import PegaFlow.PushLayout
import PegaFlow.Tally

namespace PegaFlow

open List

/-! ### The two counts -/

/-- `decode_rank_source_counts` -/
def decodeRankSourceCounts (prefillTpSize decodeTpSize localHeads remoteHeads totalHeads : ℕ)
    (useMla : Bool) : Except String (ℕ → ℕ) := do
  let plans ← (range prefillTpSize).mapM fun p =>
    buildPushLayoutPlan p prefillTpSize (decodeRanks decodeTpSize) localHeads remoteHeads totalHeads
      useMla
  return fun rank => (plans.flatten.map (·.handshake.tpRank)).count rank

/-- What `_refresh_expected_imm_counts` reads; `numKvHeads` is that of the first layout. -/
structure DecodeConfig where
  tpSize : ℕ
  numKvHeads : ℕ
  prefillTpSize : Option ℕ
  totalNumKvHeads : Option ℕ
  useMla : Bool

/-- `_refresh_expected_imm_counts` -/
def DecodeConfig.expectedImmCounts (cfg : DecodeConfig) : Except String (ℕ → ℕ) :=
  let prefillTpSize := (cfg.prefillTpSize.filter (· ≠ 0)).getD cfg.tpSize
  let totalHeads := cfg.totalNumKvHeads.getD (cfg.numKvHeads * cfg.tpSize)
  if cfg.useMla then .ok fun _ => 1
  else if totalHeads = 0 ∨ prefillTpSize = 0 then .error "AssertionError"
  else do
    let localHeads := (totalHeads + prefillTpSize - 1) / prefillTpSize
    let sourceCounts ← decodeRankSourceCounts prefillTpSize cfg.tpSize localHeads cfg.numKvHeads
      totalHeads false
    return fun rank => if sourceCounts rank = 0 then 1 else sourceCounts rank

/-- The prefill ranks that have decode rank `rank` among their targets. -/
def pushers (prefillTpSize : ℕ) (plans : ℕ → List PushTargetPlan) (rank : ℕ) : List ℕ :=
  (range prefillTpSize).filter fun p => rank ∈ (plans p).map (·.handshake.tpRank)

/-- The layout of a side of TP size `t`. -/
def LaidOut (useMla : Bool) (total t : ℕ) : KvCacheLayout → Prop
  | .flash layout => useMla = false ∧ (t ∣ total ∨ total ∣ t) ∧
      layout.numKvHeads = max 1 (total / t)
  | .mla _ => useMla

/-- A head takes as many bytes on both sides. -/
def SameHeadBytes : KvCacheLayout → KvCacheLayout → Prop
  | .flash prefill, .flash decode => prefill.headBytes = decode.headBytes
  | _, _ => True

/-! ### Plans -/

section Plans

variable {p tp n rank l r t : ℕ} {plans : ℕ → List PushTargetPlan}

theorem handshakeForRank_decodeRanks (h : rank < n) :
    handshakeForRank (decodeRanks n) rank = .ok ⟨rank, n⟩ := by
  have hmem : (⟨rank, n⟩ : RankHandshake) ∈ (decodeRanks n).reverse := by
    simp [decodeRanks, h]
  unfold handshakeForRank
  split
  · next handshake hfound =>
    obtain ⟨k, -, rfl⟩ : ∃ k < n, (⟨k, n⟩ : RankHandshake) = handshake := by
      simpa [decodeRanks] using mem_of_find?_eq_some hfound
    obtain rfl : k = rank := by simpa using find?_some hfound
    rfl
  · next hnone => simpa using find?_eq_none.mp hnone _ hmem

theorem exists_buildMlaPlan (hp : p < tp) (hn : 0 < n) (hdvd : n ∣ tp ∨ tp ∣ n) :
    ∃ targets, buildMlaPlan p tp n (decodeRanks n) = .ok targets := by
  unfold buildMlaPlan
  split
  · next hle =>
    obtain ⟨ratio, rfl⟩ : n ∣ tp :=
      hdvd.elim id fun h => by rw [le_antisymm hle (Nat.le_of_dvd hn h)]
    simp only [Nat.mul_mod_right, ne_eq, not_true_eq_false, if_false, Nat.mul_div_cancel_left _ hn]
    split
    · exact ⟨_, rfl⟩
    · rw [handshakeForRank_decodeRanks (Nat.div_lt_of_lt_mul (mul_comm n _ ▸ hp))]
      exact ⟨_, rfl⟩
  · next hle =>
    obtain ⟨ratio, rfl⟩ : tp ∣ n :=
      hdvd.resolve_left fun h => hle (Nat.le_of_dvd (Nat.zero_lt_of_lt hp) h)
    simp only [Nat.mul_mod_right, ne_eq, not_true_eq_false, if_false,
      Nat.mul_div_cancel_left _ (Nat.zero_lt_of_lt hp)]
    refine ⟨_, mapM_eq_ok (g := fun rank => ⟨⟨rank, tp * ratio⟩, []⟩) fun rank hrank => ?_⟩
    have hlt : (p + 1) * ratio ≤ tp * ratio := Nat.mul_le_mul_right _ hp
    rw [mem_range'_1] at hrank
    rw [handshakeForRank_decodeRanks (by rw [Nat.succ_mul] at hlt; omega)]
    rfl

theorem mem_targetSlices (hl : 0 < l) (ht : 0 < t) :
    rank ∈ (targetSlices p l r t).map Prod.fst ↔ ∃ g < t, g / l = p ∧ g / r = rank := by
  simp only [targetSlices, map_filterMap, mem_filterMap, mem_range]
  constructor
  · rintro ⟨o, -, ho⟩
    rw [Option.map_eq_some_iff] at ho
    obtain ⟨e, he, rfl⟩ := ho
    obtain ⟨howner, ⟨⟩⟩ := Option.ite_none_right_eq_some.mp he
    exact ⟨_, Nat.mod_lt _ ht, howner, rfl⟩
  · rintro ⟨g, hg, rfl, rfl⟩
    have hhead : headAt (g / l) l t (g % l) = g := by
      rw [headAt, Nat.div_add_mod', Nat.mod_eq_of_lt hg]
    exact ⟨g % l, Nat.mod_lt _ hl, by simp [hhead]⟩

/-- The plan of prefill rank `p`.  It has a decode rank at most once, and without MLA those that
own a head which rank `p` owns. -/
structure IsPlan (useMla : Bool) (tp n l r t p : ℕ) (targets : List PushTargetPlan) : Prop where
  ok : buildPushLayoutPlan p tp (decodeRanks n) l r t useMla = .ok targets
  nodup : (targets.map (·.handshake.tpRank)).Nodup
  mem : ∀ rank, rank ∈ targets.map (·.handshake.tpRank) ↔
    if useMla then rank ∈ mlaRanks tp n p else ∃ g < t, g / l = p ∧ g / r = rank

theorem buildPushLayoutPlan_eq {useMla : Bool} (hp : p < tp) (hn : 0 < n) (hl : 0 < l) (hr : 0 < r)
    (ht : 0 < t) (hcover : useMla = false → t ≤ tp * l ∧ t ≤ n * r) :
    buildPushLayoutPlan p tp (decodeRanks n) l r t useMla =
      if useMla then buildMlaPlan p tp n (decodeRanks n)
      else if n ∣ tp ∨ tp ∣ n then planTargets (decodeRanks n) l r (targetSlices p l r t)
      else .error ("PdConnector heterogeneous layout mapping requires divisible TP sizes; " ++
        s!"prefill_tp={tp} decode_tp={n}") := by
  have hranks : (decodeRanks n).map RankHandshake.tpRank = range n := by
    simp [decodeRanks, Function.comp_def]
  have hsizes : ∀ handshake ∈ decodeRanks n, handshake.tpSize = n := by
    simp [decodeRanks]
  unfold buildPushLayoutPlan
  split
  · next hnil => simp [decodeRanks, Nat.ne_of_gt hn] at hnil
  · next first rest hcons =>
    have hfirst : first.tpSize = n := hsizes first (hcons ▸ mem_cons_self)
    simp only [hfirst, hranks, nodup_range.dedup, length_range, ne_eq, not_true_eq_false, if_false]
    rw [if_neg (by omega), if_neg (by simpa using hsizes)]
    cases useMla with
    | true => rfl
    | false =>
      obtain ⟨hprefill, hdecode⟩ := hcover rfl
      rw [if_neg Bool.false_ne_true, if_neg Bool.false_ne_true]
      split
      · next hnot => rw [if_neg (by omega)]
      · next hdvd =>
        have hdvd : n ∣ tp ∨ tp ∣ n := by
          rcases not_not.mp hdvd with rfl | hdvd
          · exact .inl dvd_rfl
          · rwa [Nat.dvd_iff_mod_eq_zero, Nat.dvd_iff_mod_eq_zero]
        rw [if_pos hdvd, if_neg (by omega), if_neg (by omega),
          mapM_planHead hl hr ht hprefill hdecode]
        exact congrArg (planTargets _ l r) reduceOption_planned

/-- **No rank raises.** -/
theorem exists_isPlan (useMla : Bool) (hn : 0 < n) (hl : 0 < l) (hr : 0 < r) (ht : 0 < t)
    (hdvd : n ∣ tp ∨ tp ∣ n) (hcover : useMla = false → t ≤ tp * l ∧ t ≤ n * r) :
    ∀ p < tp, ∃ targets, IsPlan useMla tp n l r t p targets := by
  intro p hp
  have hok := buildPushLayoutPlan_eq hp hn hl hr ht hcover
  rw [if_pos hdvd] at hok
  cases useMla with
  | true =>
    obtain ⟨targets, htargets⟩ := exists_buildMlaPlan hp hn hdvd
    have hranks := (buildMlaPlan_ok htargets).2.1
    refine ⟨targets, hok.trans htargets, ?_, fun rank => by rw [hranks]; rfl⟩
    rw [hranks, mlaRanks]
    split
    · split
      · exact nodup_singleton _
      · exact nodup_nil
    · exact nodup_range'
  | false =>
    refine ⟨_, hok.trans (mapM_eq_ok (g := fun rank => ⟨⟨rank, n⟩, dropFullRankSlice l r
      (coalesceHeadSlices (((targetSlices p l r t).filter fun e => e.1 = rank).map Prod.snd))⟩)
        fun rank hrank => ?_), ?_, fun rank => ?_⟩
    · rw [mem_sorted, mem_dedup, mem_targetSlices hl ht] at hrank
      obtain ⟨g, hg, -, rfl⟩ := hrank
      have hcover := hcover rfl
      rw [handshakeForRank_decodeRanks ((Nat.div_lt_iff_lt_mul hr).mpr (by omega))]
      rfl
    · simpa [Function.comp_def] using (sorted_perm _).nodup_iff.mpr (nodup_dedup _)
    · simp only [map_map, Function.comp_def, map_id']
      rw [mem_sorted, mem_dedup, mem_targetSlices hl ht]
      rfl

/-! ### Counting -/

section Counting

variable {useMla : Bool} (h : ∀ p < tp, IsPlan useMla tp n l r t p (plans p))
include h

theorem decodeRankSourceCounts_eq : decodeRankSourceCounts tp n l r t useMla =
    .ok fun rank => (pushers tp plans rank).length := by
  rw [decodeRankSourceCounts, mapM_eq_ok fun p hp => (h p (mem_range.mp hp)).ok]
  refine congrArg Except.ok (funext fun rank => ?_)
  rw [← flatMap_def, map_flatMap, count_flatMap, pushers, length_filter_eq_tally]
  refine congrArg sum (map_congr_left fun p hp => ?_)
  simpa using (h p (mem_range.mp hp)).nodup.count (a := rank)

omit h in
theorem mem_pushers : p ∈ pushers tp plans rank ↔
    p < tp ∧ rank ∈ (plans p).map (·.handshake.tpRank) := by
  rw [pushers, mem_filter, mem_range, decide_eq_true_eq]

theorem length_pushers_mla (hmla : useMla) (htp : 0 < tp) (hdvd : n ∣ tp ∨ tp ∣ n)
    (hrank : rank < n) : (pushers tp plans rank).length = 1 := by
  obtain ⟨p, hp⟩ := flatMap_mlaRanks htp hdvd hrank
  refine ((perm_ext_iff_of_nodup (nodup_range.filter _) (nodup_singleton p)).mpr ?_).length_eq
  intro q
  rw [← hp, ← pushers, mem_pushers, mem_flatMap]
  constructor
  · rintro ⟨hq, hmem⟩
    rw [(h q hq).mem, if_pos hmla] at hmem
    exact ⟨q, mem_range.mpr hq, mem_filterMap.mpr ⟨rank, hmem, by simp⟩⟩
  · rintro ⟨q', hq', hmem⟩
    obtain ⟨r, hr, heq⟩ := mem_filterMap.mp hmem
    obtain ⟨rfl, ⟨⟩⟩ := Option.ite_none_right_eq_some.mp heq
    have hq := mem_range.mp hq'
    exact ⟨hq, by rwa [(h q hq).mem, if_pos hmla]⟩

theorem mem_pushers_heads (hmla : useMla = false) (hl : 0 < l) (ht : t ≤ tp * l) :
    p ∈ pushers tp plans rank ↔ ∃ g < t, g / l = p ∧ g / r = rank := by
  have hiff : ∀ p < tp, rank ∈ (plans p).map (·.handshake.tpRank) ↔
      ∃ g < t, g / l = p ∧ g / r = rank := by
    intro p hp
    rw [(h p hp).mem, if_neg (by simp [hmla])]
  rw [mem_pushers]
  refine ⟨fun ⟨hp, hmem⟩ => (hiff p hp).mp hmem, ?_⟩
  rintro ⟨g, hg, rfl, hrank⟩
  have hp : g / l < tp := (Nat.div_lt_iff_lt_mul hl).mpr (by omega)
  exact ⟨hp, (hiff _ hp).mpr ⟨g, hg, rfl, hrank⟩⟩

theorem length_pushers_eq_zero (hmla : useMla = false) (hl : 0 < l) (hr : 0 < r) (ht : t ≤ tp * l) :
    (pushers tp plans rank).length = 0 ↔ t ≤ rank * r := by
  rw [length_eq_zero_iff, eq_nil_iff_forall_not_mem]
  simp only [mem_pushers_heads h hmla hl ht]
  constructor
  · intro hnone
    by_contra hlt
    exact hnone _ ⟨rank * r, by omega, rfl, Nat.mul_div_cancel _ hr⟩
  · rintro hle p ⟨g, hg, -, rfl⟩
    have := Nat.div_mul_le_self g r
    omega

theorem length_pushers_le_one (hmla : useMla = false) (hl : l = 1) (hr : r = 1) (ht : t ≤ tp * l)
    (rank : ℕ) : (pushers tp plans rank).length ≤ 1 := by
  subst hl hr
  have hsub : pushers tp plans rank ⊆ [rank] := by
    intro p hp
    obtain ⟨g, -, rfl, rfl⟩ := (mem_pushers_heads h hmla one_pos ht).mp hp
    simp
  exact (subperm_of_subset (Nodup.filter _ nodup_range) hsub).length_le

end Counting

end Plans

/-! ### Agreement -/

theorem totals_eq {total tp td l r : ℕ} (hp : tp ∣ total ∨ total ∣ tp)
    (hd : td ∣ total ∨ total ∣ td) (htotal : 0 < total) (htp : 0 < tp) (htd : 0 < td)
    (hl : l = max 1 (total / tp)) (hr : r = max 1 (total / td)) :
    (total + tp - 1) / tp = l ∧ total ≤ tp * l ∧ total ≤ td * r ∧
      (total = min (l * tp) (r * td) ∨ l = 1 ∧ r = 1) := by
  have hside : ∀ t x, 0 < t → (t ∣ total ∨ total ∣ t) → x = max 1 (total / t) →
      (total + t - 1) / t = x ∧ (total = t * x ∨ total ≤ t * x ∧ x = 1) := by
    rintro t x ht (⟨k, rfl⟩ | ⟨k, rfl⟩) rfl
    · have hk : 0 < k := Nat.pos_of_mul_pos_left htotal
      rw [Nat.mul_div_cancel_left _ ht, max_eq_right hk]
      refine ⟨?_, .inl rfl⟩
      rw [Nat.add_sub_assoc ht, Nat.mul_add_div ht, Nat.div_eq_of_lt (by omega), add_zero]
    · have hk : 0 < k := Nat.pos_of_mul_pos_left ht
      have hle : total ≤ total * k := Nat.le_mul_of_pos_right _ hk
      have hdiv : total / (total * k) ≤ 1 := Nat.div_le_of_le_mul (by omega)
      rw [max_eq_left hdiv]
      refine ⟨Nat.div_eq_of_lt_le ?_ ?_, .inr ⟨by omega, rfl⟩⟩ <;> omega
  obtain ⟨hceil, hp⟩ := hside tp l htp hp hl
  obtain ⟨-, hd⟩ := hside td r htd hd hr
  rw [mul_comm l, mul_comm r]
  refine ⟨hceil, ?_, ?_, ?_⟩ <;> omega

theorem LaidOut.heads {useMla : Bool} {total tp td : ℕ} {prefill decode : KvCacheLayout}
    {regions : List TransferRegionLayout} (hprefill : LaidOut useMla total tp prefill)
    (hdecode : LaidOut useMla total td decode) (hbytes : SameHeadBytes prefill decode)
    (hregions : decode.remoteLayout = .ok regions) :
    remoteNumKvHeads regions prefill prefill.numKvHeads = .ok decode.numKvHeads ∧
      0 < prefill.numKvHeads ∧ 0 < decode.numKvHeads ∧
      (useMla = false → (tp ∣ total ∨ total ∣ tp) ∧ (td ∣ total ∨ total ∣ td) ∧
        prefill.numKvHeads = max 1 (total / tp) ∧ decode.numKvHeads = max 1 (total / td)) := by
  match prefill, decode with
  | .flash prefill, .flash decode =>
    obtain ⟨-, hp, hl⟩ := hprefill
    obtain ⟨-, hd, hr⟩ := hdecode
    exact ⟨remoteNumKvHeads_flash hregions hbytes, Nat.lt_of_lt_of_eq (by omega) hl.symm,
      Nat.lt_of_lt_of_eq (by omega) hr.symm, fun _ => ⟨hp, hd, hl, hr⟩⟩
  | .mla prefill, .mla decode =>
    cases regions <;> exact ⟨rfl, one_pos, one_pos, fun h => by cases hprefill ▸ h⟩
  | .flash prefill, .mla decode => cases hprefill.1 ▸ hdecode
  | .mla prefill, .flash decode => cases hdecode.1 ▸ hprefill

theorem decodeTpSize_decodeRanks {n : ℕ} (h : 0 < n) : decodeTpSize (decodeRanks n) = n := by
  obtain ⟨n, rfl⟩ := Nat.exists_eq_succ_of_ne_zero h.ne'
  simp [decodeRanks, range_succ_eq_map, decodeTpSize]

section Totals

variable {l r tp td : ℕ}

theorem totalNumKvHeads_pos (useMla : Bool) (hl : 0 < l) (hr : 0 < r) (htp : 0 < tp)
    (htd : 0 < td) : 0 < totalNumKvHeads l tp r td useMla := by
  unfold totalNumKvHeads
  split
  · exact hl
  · exact Nat.lt_min.mpr ⟨Nat.mul_pos hl htp, Nat.mul_pos hr htd⟩

theorem totalNumKvHeads_le :
    totalNumKvHeads l tp r td false ≤ tp * l ∧ totalNumKvHeads l tp r td false ≤ td * r :=
  ⟨Nat.mul_comm tp l ▸ Nat.min_le_left _ _, Nat.mul_comm td r ▸ Nat.min_le_right _ _⟩

end Totals

/-- **Neither TP size divides the other**: both sides raise the same error. -/
theorem expectedImmCounts_not_dvd {total tp td : ℕ} {prefill decode : KvCacheLayout}
    {regions : List TransferRegionLayout} (htotal : 0 < total) (htp : 0 < tp) (htd : 0 < td)
    (hdvd : ¬ (td ∣ tp ∨ tp ∣ td)) (hprefill : LaidOut false total tp prefill)
    (hdecode : LaidOut false total td decode) (hbytes : SameHeadBytes prefill decode)
    (hregions : decode.remoteLayout = .ok regions) :
    ∃ error,
      DecodeConfig.expectedImmCounts ⟨td, decode.numKvHeads, some tp, some total, false⟩ =
        .error error ∧
      ∀ p < tp, buildLayerPushPlan prefill decode p tp (decodeRanks td) false = .error error := by
  obtain ⟨hheads, hl, hr, hsides⟩ := hprefill.heads hdecode hbytes hregions
  obtain ⟨hp, hd, hleq, hreq⟩ := hsides rfl
  obtain ⟨hceil, hcover, hcover', -⟩ := totals_eq hp hd htotal htp htd hleq hreq
  simp only [buildLayerPushPlan, hregions, bind, Except.bind, hheads, decodeTpSize_decodeRanks htd]
  generalize prefill.numKvHeads = l at *
  generalize decode.numKvHeads = r at *
  -- the two sides have their own totals, but the error does not depend on it
  obtain ⟨error, hraise⟩ : ∃ error, ∀ t, 0 < t → t ≤ tp * l ∧ t ≤ td * r → ∀ p < tp,
      buildPushLayoutPlan p tp (decodeRanks td) l r t false = .error error :=
    ⟨_, fun t ht hle p hp => (buildPushLayoutPlan_eq hp htd hl hr ht fun _ => hle).trans
      ((if_neg Bool.false_ne_true).trans (if_neg hdvd))⟩
  refine ⟨error, ?_, hraise _ (totalNumKvHeads_pos false hl hr htp htd) totalNumKvHeads_le⟩
  have hcounts : decodeRankSourceCounts tp td l r total false = .error error := by
    obtain ⟨n, rfl⟩ := Nat.exists_eq_succ_of_ne_zero htp.ne'
    rw [decodeRankSourceCounts, range_succ_eq_map, mapM_cons,
      hraise total htotal ⟨hcover, hcover'⟩ 0 htp]
    rfl
  simp [DecodeConfig.expectedImmCounts, Option.filter_some, Nat.ne_of_gt htp,
    Nat.ne_of_gt htotal, hceil, hcounts]

/-- **Expected IMM counts.**  Let a side of TP size `t` have `max 1 (total / t)` heads per rank, or
let the model use MLA, and let one TP size divide the other.  Then neither side raises, and the
count that the decode side puts into the handshake of a rank is the number of prefill ranks that
have the rank among their targets, if and only if the rank has a head of its own, or with MLA. -/
theorem expectedImmCounts_eq_iff (total tp td : ℕ) (useMla : Bool) (prefill decode : KvCacheLayout)
    (regions : List TransferRegionLayout) (htotal : 0 < total) (htp : 0 < tp) (htd : 0 < td)
    (hdvd : td ∣ tp ∨ tp ∣ td) (hprefill : LaidOut useMla total tp prefill)
    (hdecode : LaidOut useMla total td decode) (hbytes : SameHeadBytes prefill decode)
    (hregions : decode.remoteLayout = .ok regions) :
    ∃ counts plans,
      DecodeConfig.expectedImmCounts ⟨td, decode.numKvHeads, some tp, some total, useMla⟩ =
        .ok counts ∧
      (∀ p < tp, buildLayerPushPlan prefill decode p tp (decodeRanks td) useMla = .ok (plans p)) ∧
      ∀ rank < td, counts rank = (pushers tp plans rank).length ↔
        useMla = true ∨ rank * decode.numKvHeads < tp * prefill.numKvHeads := by
  obtain ⟨hheads, hl, hr, hsides⟩ := hprefill.heads hdecode hbytes hregions
  simp only [buildLayerPushPlan, hregions, bind, Except.bind, hheads, decodeTpSize_decodeRanks htd]
  generalize prefill.numKvHeads = l at *
  generalize decode.numKvHeads = r at *
  choose! plans hplans using
    exists_isPlan useMla htd hl hr (totalNumKvHeads_pos useMla hl hr htp htd) hdvd
      fun hmla => hmla ▸ totalNumKvHeads_le
  cases useMla with
  | true =>
    refine ⟨fun _ => 1, plans, rfl, fun p hp => (hplans p hp).ok, fun rank hrank => ?_⟩
    rw [length_pushers_mla hplans rfl htp hdvd hrank]
    simp
  | false =>
    obtain ⟨hp, hd, hleq, hreq⟩ := hsides rfl
    obtain ⟨hceil, hcover, hcover', htotals⟩ := totals_eq hp hd htotal htp htd hleq hreq
    have hcounts : ∃ counts, decodeRankSourceCounts tp td l r total false = .ok counts ∧
        ∀ rank < td, (if counts rank = 0 then 1 else counts rank) =
          (pushers tp plans rank).length ↔ rank * r < tp * l := by
      have hzero : ∀ rank, (pushers tp plans rank).length = 0 ↔ min (l * tp) (r * td) ≤ rank * r :=
        fun rank => length_pushers_eq_zero hplans rfl hl hr totalNumKvHeads_le.1
      rw [Nat.mul_comm tp]
      rcases htotals with htotals | ⟨rfl, rfl⟩
      · rw [htotals]
        refine ⟨_, decodeRankSourceCounts_eq hplans, fun rank hrank => ?_⟩
        have hlt : rank * r < r * td := Nat.mul_comm td r ▸ Nat.mul_lt_mul_of_pos_right hrank hr
        have := hzero rank
        split <;> omega
      · choose! plans' hplans' using
          exists_isPlan false htd hl hr htotal hdvd fun _ => ⟨hcover, hcover'⟩
        refine ⟨_, decodeRankSourceCounts_eq hplans', fun rank hrank => ?_⟩
        have := hzero rank
        have := length_pushers_le_one hplans rfl rfl rfl totalNumKvHeads_le.1 rank
        have := length_pushers_le_one hplans' rfl rfl rfl hcover rank
        split <;> omega
    obtain ⟨counts, hok, hcounts⟩ := hcounts
    refine ⟨fun rank => if counts rank = 0 then 1 else counts rank, plans, ?_,
      fun p hp => (hplans p hp).ok, fun rank hrank => ?_⟩
    · simp [DecodeConfig.expectedImmCounts, Option.filter_some, Nat.ne_of_gt htp,
        Nat.ne_of_gt htotal, hceil, hok]
    · rw [hcounts rank hrank]
      simp

theorem expectedImmCounts_twoToOne : ∃ counts plans,
    DecodeConfig.expectedImmCounts ⟨1, 2, some 2, some 2, false⟩ = .ok counts ∧
    (∀ p < 2, buildLayerPushPlan (.flash (layoutOf (packedTensor 1 100)))
      (.flash (layoutOf (packedTensor 2 200))) p 2 (decodeRanks 1) false = .ok (plans p)) ∧
    counts 0 = (pushers 2 plans 0).length := by
  obtain ⟨counts, plans, hcounts, hplans, hiff⟩ := expectedImmCounts_eq_iff 2 2 1 false
    (.flash (layoutOf (packedTensor 1 100))) (.flash (layoutOf (packedTensor 2 200))) _
    (by decide) (by decide) (by decide) (by decide) (by unfold LaidOut; decide)
    (by unfold LaidOut; decide) rfl rfl
  exact ⟨counts, plans, hcounts, hplans, (hiff 0 (by decide)).mpr (by decide)⟩

/-- Two heads on two prefill ranks and, replicated, on four decode ranks: rank 2 expects one IMM,
and no prefill rank has it among its targets. -/
theorem expectedImmCounts_replica :
    (DecodeConfig.expectedImmCounts ⟨4, 1, some 2, some 2, false⟩).map (· 2) = .ok 1 ∧
    ∃ plans, (∀ p < 2, buildLayerPushPlan (.flash (layoutOf (packedTensor 1 100)))
      (.flash (layoutOf (packedTensor 1 200))) p 2 (decodeRanks 4) false = .ok (plans p)) ∧
      pushers 2 plans 2 = [] :=
  ⟨by decide +kernel, plansFor 2 1 4 1, by decide +kernel, by decide +kernel⟩

end PegaFlow
