/-
PegaFlow/HeadMapping.lean

Which prefill rank sends which KV head to which decode rank
(`pd_connector/layout_mapping.py`).

A rank of a side with `localHeads` heads per rank has the global heads `rank * localHeads`,
`rank * localHeads + 1`, ... modulo the total.  When the ranks of a side have more heads than
there are, heads are replicated; the first rank that has a head owns it.  Every prefill rank
plans pushes for the heads it owns, to the rank that owns the head on the decode side, and
merges heads that follow each other on both sides.
-/
import Mathlib.Data.List.Dedup
import Mathlib.Data.List.Range
import PegaFlow.Loops
import PegaFlow.SortedPairs

namespace PegaFlow

open List

/-! ### Plans -/

/-- A handshake of a decode rank, as far as ranks go. -/
structure RankHandshake where
  tpRank : ℕ
  tpSize : ℕ
deriving DecidableEq, Repr

structure HeadSlice where
  localStart : ℕ
  localEnd : ℕ
  remoteStart : ℕ
  remoteEnd : ℕ
  globalHeads : List ℕ
  local_lt : localStart < localEnd
  remote_lt : remoteStart < remoteEnd
  count_eq : localEnd - localStart = remoteEnd - remoteStart
  heads_length : globalHeads.length = localEnd - localStart
deriving DecidableEq

structure PushTargetPlan where
  handshake : RankHandshake
  headSlices : List HeadSlice
deriving DecidableEq

namespace HeadSlice

/-- The slice of one head. -/
def single (localIdx remoteIdx globalHead : ℕ) : HeadSlice where
  localStart := localIdx
  localEnd := localIdx + 1
  remoteStart := remoteIdx
  remoteEnd := remoteIdx + 1
  globalHeads := [globalHead]
  local_lt := Nat.lt_succ_self _
  remote_lt := Nat.lt_succ_self _
  count_eq := by omega
  heads_length := by simp

def Follows (prev item : HeadSlice) : Prop :=
  prev.localEnd = item.localStart ∧ prev.remoteEnd = item.remoteStart ∧
    prev.globalHeads.getLast?.map (· + 1) = item.globalHeads.head?

instance (prev item : HeadSlice) : Decidable (prev.Follows item) :=
  inferInstanceAs (Decidable (_ ∧ _ ∧ _))

def merge (prev item : HeadSlice) (h : prev.Follows item) : HeadSlice where
  localStart := prev.localStart
  localEnd := item.localEnd
  remoteStart := prev.remoteStart
  remoteEnd := item.remoteEnd
  globalHeads := prev.globalHeads ++ item.globalHeads
  local_lt := by have := prev.local_lt; have := item.local_lt; have := h.1; omega
  remote_lt := by have := prev.remote_lt; have := item.remote_lt; have := h.2.1; omega
  count_eq := by
    have := prev.local_lt; have := item.local_lt; have := prev.remote_lt; have := item.remote_lt
    have := prev.count_eq; have := item.count_eq; have := h.1; have := h.2.1
    omega
  heads_length := by
    have := prev.local_lt; have := item.local_lt; have := h.1
    rw [length_append, prev.heads_length, item.heads_length]
    omega

/-- The heads of the slice, as pairs of a local and a remote place. -/
def pairs (slice : HeadSlice) : List (ℕ × ℕ) :=
  (range (slice.localEnd - slice.localStart)).map fun i =>
    (slice.localStart + i, slice.remoteStart + i)

end HeadSlice

def rankGlobalHeads (rank localHeads totalHeads : ℕ) : List ℕ :=
  (range localHeads).map fun offset => (rank * localHeads + offset) % totalHeads

/-- `_owner_rank_for_global_head` -/
def ownerRankForGlobalHead (globalHead rankCount localHeads totalHeads : ℕ) : Except String ℕ :=
  match (range rankCount).find? fun rank =>
      (rankGlobalHeads rank localHeads totalHeads).contains globalHead with
  | some rank => .ok rank
  | none => .error (s!"PdConnector could not find owner for global KV head {globalHead}; " ++
      s!"rank_count={rankCount} local_heads={localHeads} total_heads={totalHeads}")

/-- The loop of `_coalesce_head_slices`. -/
def coalesceSlicesFrom (prev : HeadSlice) : List HeadSlice → List HeadSlice
  | [] => [prev]
  | item :: slices =>
      if h : prev.Follows item then coalesceSlicesFrom (prev.merge item h) slices
      else prev :: coalesceSlicesFrom item slices

def coalesceHeadSlices (slices : List HeadSlice) : List HeadSlice :=
  match slices.insertionSort fun a b =>
      a.localStart < b.localStart ∨ a.localStart = b.localStart ∧ a.remoteStart ≤ b.remoteStart with
  | [] => []
  | first :: rest => coalesceSlicesFrom first rest

def dropFullRankSlice (localHeads remoteHeads : ℕ) : List HeadSlice → List HeadSlice
  | [only] =>
      if only.localStart = 0 ∧ only.localEnd = localHeads ∧ only.remoteStart = 0 ∧
          only.remoteEnd = remoteHeads then []
      else [only]
  | slices => slices

/-- `handshakes_by_rank[rank]` -/
def handshakeForRank (handshakes : List RankHandshake) (rank : ℕ) : Except String RankHandshake :=
  match handshakes.reverse.find? fun handshake => handshake.tpRank = rank with
  | some handshake => .ok handshake
  | none => .error s!"KeyError: {rank}"

def buildMlaPlan (prefillTpRank prefillTpSize decodeTpSize : ℕ)
    (handshakes : List RankHandshake) : Except String (List PushTargetPlan) :=
  let message := "PdConnector MLA heterogeneous TP requires divisible TP sizes; " ++
    s!"prefill_tp={prefillTpSize} decode_tp={decodeTpSize}"
  if decodeTpSize ≤ prefillTpSize then
    if prefillTpSize % decodeTpSize ≠ 0 then .error message
    else
      let ratio := prefillTpSize / decodeTpSize
      if prefillTpRank % ratio ≠ 0 then .ok []
      else do
        let handshake ← handshakeForRank handshakes (prefillTpRank / ratio)
        return [{ handshake, headSlices := [] }]
  else if decodeTpSize % prefillTpSize ≠ 0 then .error message
  else
    let ratio := decodeTpSize / prefillTpSize
    (range' (prefillTpRank * ratio) ratio).mapM fun decodeRank => do
      let handshake ← handshakeForRank handshakes decodeRank
      return { handshake, headSlices := [] }

/-- One round of the loop over the heads of the rank: the decode rank and the slice of the
head, unless another rank owns it. -/
def planHead (prefillTpRank prefillTpSize decodeTpSize localHeads remoteHeads totalHeads : ℕ)
    (e : ℕ × ℕ) : Except String (Option (ℕ × HeadSlice)) := do
  let owner ← ownerRankForGlobalHead e.1 prefillTpSize localHeads totalHeads
  if owner ≠ prefillTpRank then return none
  else
    let decodeRank ← ownerRankForGlobalHead e.1 decodeTpSize remoteHeads totalHeads
    match (rankGlobalHeads decodeRank remoteHeads totalHeads).idxOf? e.1 with
    | none => .error "ValueError: tuple.index(x): x not in tuple"
    | some remoteIdx => return some (decodeRank, .single e.2 remoteIdx e.1)

/-- The targets: the slices by decode rank, in the order of the ranks. -/
def planTargets (handshakes : List RankHandshake) (localHeads remoteHeads : ℕ)
    (targetSlices : List (ℕ × HeadSlice)) : Except String (List PushTargetPlan) :=
  (sorted (targetSlices.map Prod.fst).dedup).mapM fun rank => do
    let handshake ← handshakeForRank handshakes rank
    return { handshake
             headSlices := dropFullRankSlice localHeads remoteHeads (coalesceHeadSlices
               ((targetSlices.filter fun e => e.1 = rank).map Prod.snd)) }

def buildPushLayoutPlan (prefillTpRank prefillTpSize : ℕ) (handshakes : List RankHandshake)
    (localHeads remoteHeads totalHeads : ℕ) (useMla : Bool) :
    Except String (List PushTargetPlan) :=
  match handshakes with
  | [] => .error "PdConnector push request has no handshakes"
  | first :: _ =>
      let decodeTpSize := first.tpSize
      if prefillTpSize ≤ prefillTpRank ∨ localHeads = 0 ∨ remoteHeads = 0 ∨ totalHeads = 0 then
        .error "AssertionError"
      else if ∃ handshake ∈ handshakes, handshake.tpSize ≠ decodeTpSize then
        .error ("PdConnector handshakes disagree on decode TP size: " ++
          s!"{handshakes.map RankHandshake.tpSize}")
      else if (handshakes.map RankHandshake.tpRank).dedup.length ≠ decodeTpSize then
        .error ("PdConnector requires one decode handshake per TP rank; " ++
          s!"decode_tp={decodeTpSize} " ++
          s!"available={sorted (handshakes.map RankHandshake.tpRank).dedup}")
      else if useMla then buildMlaPlan prefillTpRank prefillTpSize decodeTpSize handshakes
      else if ¬(prefillTpSize = decodeTpSize ∨ prefillTpSize % decodeTpSize = 0 ∨
          decodeTpSize % prefillTpSize = 0) then
        .error ("PdConnector heterogeneous layout mapping requires divisible TP sizes; " ++
          s!"prefill_tp={prefillTpSize} decode_tp={decodeTpSize}")
      else if prefillTpSize * localHeads < totalHeads then
        .error ("PdConnector prefill KV-head coverage is smaller than total KV heads; " ++
          s!"prefill_tp={prefillTpSize} local_heads={localHeads} total_heads={totalHeads}")
      else if decodeTpSize * remoteHeads < totalHeads then
        .error ("PdConnector decode KV-head coverage is smaller than total KV heads; " ++
          s!"decode_tp={decodeTpSize} remote_heads={remoteHeads} total_heads={totalHeads}")
      else do
        let targetSlices ← (rankGlobalHeads prefillTpRank localHeads totalHeads).zipIdx.mapM
          (planHead prefillTpRank prefillTpSize decodeTpSize localHeads remoteHeads totalHeads)
        planTargets handshakes localHeads remoteHeads targetSlices.reduceOption

/-- The TP size of the decode side. -/
def decodeTpSize : List RankHandshake → ℕ
  | [] => 0
  | first :: _ => first.tpSize

/-- `_total_num_kv_heads` -/
def totalNumKvHeads (localHeads localTpSize remoteHeads remoteTpSize : ℕ) (useMla : Bool) : ℕ :=
  if useMla then localHeads else min (localHeads * localTpSize) (remoteHeads * remoteTpSize)

/-! ### Coverage -/

/-- The heads a target gets, as pairs of a local and a remote place.  No slices stand for the
whole rank. -/
def PushTargetPlan.headPairs (localHeads : ℕ) (target : PushTargetPlan) : List (ℕ × ℕ) :=
  if target.headSlices = [] then (range localHeads).map fun i => (i, i)
  else target.headSlices.flatMap HeadSlice.pairs

/-- The sources of slot `slot` of decode rank `rank`, as pairs of a prefill rank and a place
in it, with multiplicity. -/
def sources (prefillTpSize localHeads : ℕ) (plans : ℕ → List PushTargetPlan) (rank slot : ℕ) :
    List (ℕ × ℕ) :=
  (range prefillTpSize).flatMap fun p => (plans p).flatMap fun target =>
    (target.headPairs localHeads).filterMap fun e =>
      if target.handshake.tpRank = rank ∧ e.2 = slot then some (p, e.1) else none

/-- **KV heads are covered**: every slot of every decode rank has exactly one source, which
has the same global head; and every target is one slice, or the whole rank. -/
def HeadsCovered (prefillTpSize decodeTpSize localHeads remoteHeads totalHeads : ℕ)
    (plans : ℕ → List PushTargetPlan) : Prop :=
  (∀ rank < decodeTpSize, ∀ slot < remoteHeads, ∃ p o,
    sources prefillTpSize localHeads plans rank slot = [(p, o)] ∧
      (rankGlobalHeads p localHeads totalHeads)[o]? =
        (rankGlobalHeads rank remoteHeads totalHeads)[slot]?) ∧
  ∀ p < prefillTpSize, ∀ target ∈ plans p, target.headSlices.length ≤ 1

/-- The prefill ranks that push to a decode rank. -/
def sourceRanks (prefillTpSize : ℕ) (plans : ℕ → List PushTargetPlan) (rank : ℕ) : List ℕ :=
  (range prefillTpSize).flatMap fun p => (plans p).filterMap fun target =>
    if target.handshake.tpRank = rank then some p else none

/-! ### Owners -/

variable {p o rank slot g n : ℕ}

section Owners

variable {heads total : ℕ}

theorem mem_rankGlobalHeads :
    g ∈ rankGlobalHeads rank heads total ↔ ∃ o < heads, (rank * heads + o) % total = g := by
  simp [rankGlobalHeads]

theorem getElem?_rankGlobalHeads (ho : o < heads) :
    (rankGlobalHeads rank heads total)[o]? = some ((rank * heads + o) % total) := by
  simp [rankGlobalHeads, ho]

theorem add_lt_of_lt_div (hrank : rank < g / heads) (ho : o < heads) : rank * heads + o < g := by
  calc rank * heads + o < (rank + 1) * heads := by rw [Nat.succ_mul]; omega
    _ ≤ g / heads * heads := Nat.mul_le_mul_right _ hrank
    _ ≤ g := Nat.div_mul_le_self _ _

theorem ownerRankForGlobalHead_eq (hheads : 0 < heads) (hg : g < total) (hn : total ≤ n * heads) :
    ownerRankForGlobalHead g n heads total = .ok (g / heads) := by
  have hfind : (range n).find? (fun rank =>
      (rankGlobalHeads rank heads total).contains g) = some (g / heads) := by
    rw [find?_range_eq_some]
    refine ⟨?_, ?_, ?_⟩
    · rw [contains_iff_mem, mem_rankGlobalHeads]
      refine ⟨g % heads, Nat.mod_lt _ hheads, ?_⟩
      rw [Nat.div_add_mod', Nat.mod_eq_of_lt hg]
    · exact mem_range.mpr ((Nat.div_lt_iff_lt_mul hheads).mpr (lt_of_lt_of_le hg hn))
    · intro rank hrank
      rw [Bool.not_eq_true', ← Bool.not_eq_true, contains_iff_mem, mem_rankGlobalHeads]
      rintro ⟨o, ho, heq⟩
      have hlt := add_lt_of_lt_div hrank ho
      rw [Nat.mod_eq_of_lt (lt_trans hlt hg)] at heq
      omega
  rw [ownerRankForGlobalHead, hfind]

theorem idxOf?_rankGlobalHeads (hheads : 0 < heads) (hg : g < total) :
    (rankGlobalHeads (g / heads) heads total).idxOf? g = some (g % heads) := by
  rw [idxOf?_eq_some_iff]
  have hlen : (rankGlobalHeads (g / heads) heads total).length = heads := by
    simp [rankGlobalHeads]
  have hdiv : g / heads * heads + g % heads = g := Nat.div_add_mod' g heads
  refine ⟨by rw [hlen]; exact Nat.mod_lt _ hheads, ?_, ?_⟩
  · simp only [rankGlobalHeads, getElem_map, getElem_range]
    rw [hdiv, Nat.mod_eq_of_lt hg]
  · intro j hj
    simp only [rankGlobalHeads, getElem_map, getElem_range]
    rw [Nat.mod_eq_of_lt (by omega)]
    omega

end Owners

/-! ### Merging -/

namespace HeadSlice

variable {prev item : HeadSlice}

theorem single_pairs (o j g : ℕ) : (single o j g).pairs = [(o, j)] := by
  simp [pairs, single]

theorem merge_pairs (h : prev.Follows item) :
    (prev.merge item h).pairs = prev.pairs ++ item.pairs := by
  have hlocal := prev.local_lt
  have hitem := item.local_lt
  have hend := h.1
  have hremote := h.2.1
  have hcount := prev.count_eq
  have hsplit : item.localEnd - prev.localStart =
      (prev.localEnd - prev.localStart) + (item.localEnd - item.localStart) := by omega
  have hplus : prev.remoteStart + (prev.localEnd - prev.localStart) = item.remoteStart := by
    omega
  have hlocalPlus : prev.localStart + (prev.localEnd - prev.localStart) = item.localStart := by
    omega
  simp only [pairs, merge, hsplit, range_add, map_append, map_map,
    Function.comp_def, ← add_assoc, hplus, hlocalPlus]

theorem merge_follows_iff (h : prev.Follows item) {next : HeadSlice} :
    (prev.merge item h).Follows next ↔ item.Follows next := by
  have hne : item.globalHeads ≠ [] := by
    rw [ne_eq, ← length_eq_zero_iff, item.heads_length]
    have := item.local_lt
    omega
  simp only [Follows, merge, getLast?_append_of_ne_nil _ hne]

end HeadSlice

theorem coalesceSlicesFrom_pairs (prev : HeadSlice) (slices : List HeadSlice) :
    (coalesceSlicesFrom prev slices).flatMap HeadSlice.pairs =
      prev.pairs ++ slices.flatMap HeadSlice.pairs := by
  induction slices generalizing prev with
  | nil => simp [coalesceSlicesFrom]
  | cons item slices ih =>
    rw [coalesceSlicesFrom]
    split
    · next h => rw [ih, HeadSlice.merge_pairs, flatMap_cons, append_assoc]
    · rw [flatMap_cons, ih, flatMap_cons]

theorem coalesceSlicesFrom_ne_nil (prev : HeadSlice) (slices : List HeadSlice) :
    coalesceSlicesFrom prev slices ≠ [] := by
  intro hnil
  have hpairs := coalesceSlicesFrom_pairs prev slices
  rw [hnil] at hpairs
  have := prev.local_lt
  have hlen := congrArg length hpairs
  simp [HeadSlice.pairs] at hlen
  omega

-- `tp` and `n` are the TP sizes of the two sides, `l` and `r` the heads of a rank, `t` the total
variable {tp l r t : ℕ} {slices : List HeadSlice} {slice : HeadSlice}

theorem length_coalesceSlicesFrom {prev : HeadSlice}
    (h : List.IsChain HeadSlice.Follows (prev :: slices)) :
    (coalesceSlicesFrom prev slices).length = 1 := by
  induction slices generalizing prev with
  | nil => rfl
  | cons item slices ih =>
    obtain ⟨hfollows, hrest⟩ := isChain_cons_cons.mp h
    rw [coalesceSlicesFrom, dif_pos hfollows]
    refine ih ?_
    cases slices with
    | nil => exact .singleton _
    | cons next slices =>
      obtain ⟨hnext, hrest⟩ := isChain_cons_cons.mp hrest
      exact isChain_cons_cons.mpr ⟨(HeadSlice.merge_follows_iff hfollows).mpr hnext, hrest⟩

theorem headPairs_dropFullRankSlice (handshake : RankHandshake) (hne : slices ≠ []) :
    PushTargetPlan.headPairs l { handshake, headSlices := dropFullRankSlice l r slices } =
      slices.flatMap HeadSlice.pairs := by
  unfold PushTargetPlan.headPairs dropFullRankSlice
  split
  · next only =>
    split
    · next hfull => simp [HeadSlice.pairs, hfull.1, hfull.2.1, hfull.2.2.1]
    · simp
  · rw [if_neg hne]

theorem coalesceHeadSlices_cons {first : HeadSlice} {rest : List HeadSlice}
    (h : (first :: rest).Pairwise fun a b => a.localStart < b.localStart) :
    coalesceHeadSlices (first :: rest) = coalesceSlicesFrom first rest := by
  rw [coalesceHeadSlices, (h.imp fun hlt => Or.inl hlt).insertionSort_eq]

/-! ### Plans of accepted requests -/

variable {handshakes : List RankHandshake} {target : PushTargetPlan} {targets : List PushTargetPlan}
  {plans : ℕ → List PushTargetPlan} {ranks : List ℕ} {src : ℕ × ℕ} {useMla : Bool}

/-- The head at place `o` of prefill rank `p`. -/
def headAt (p localHeads totalHeads o : ℕ) : ℕ := (p * localHeads + o) % totalHeads

/-- The slices of the heads that rank `p` owns, for one decode rank. -/
def ownedSlices (p localHeads remoteHeads totalHeads rank : ℕ) : List HeadSlice :=
  (range localHeads).filterMap fun o =>
    if headAt p localHeads totalHeads o / localHeads = p ∧
        headAt p localHeads totalHeads o / remoteHeads = rank then
      some (.single o (headAt p localHeads totalHeads o % remoteHeads)
        (headAt p localHeads totalHeads o))
    else none

theorem zipIdx_rankGlobalHeads : (rankGlobalHeads p l t).zipIdx =
    (range l).map fun o => (headAt p l t o, o) := by
  apply ext_getElem?
  intro o
  by_cases ho : o < l
  · simp [rankGlobalHeads, headAt, ho]
  · simp [rankGlobalHeads, headAt, ho]

theorem planHead_eq (hlocal : 0 < l) (hremote : 0 < r) (hprefill : t ≤ tp * l) (hdecode : t ≤ n * r)
    (hg : g < t) (o : ℕ) :
    planHead p tp n l r t (g, o) = .ok (if g / l = p then
        some (g / r, .single o (g % r) g) else none) := by
  unfold planHead
  rw [ownerRankForGlobalHead_eq hlocal hg hprefill, ownerRankForGlobalHead_eq hremote hg hdecode]
  simp only [bind, Except.bind, pure, Except.pure, idxOf?_rankGlobalHeads hremote hg]
  by_cases howner : g / l = p
  · simp [howner]
  · simp [howner]

/-- What a plan without MLA consists of: for each decode rank that gets something, the merged
slices of the heads owned. -/
structure IsHeadPlan (p localHeads remoteHeads totalHeads : ℕ) (ranks : List ℕ)
    (targets : List PushTargetPlan) : Prop where
  nodup : ranks.Nodup
  mem : ∀ rank, rank ∈ ranks ↔ ownedSlices p localHeads remoteHeads totalHeads rank ≠ []
  targets : Forall₂ (fun rank target => target.handshake.tpRank = rank ∧
    target.headSlices = dropFullRankSlice localHeads remoteHeads
      (coalesceHeadSlices (ownedSlices p localHeads remoteHeads totalHeads rank))) ranks targets

theorem handshakeForRank_ok {handshake : RankHandshake}
    (h : handshakeForRank handshakes rank = .ok handshake) : handshake.tpRank = rank := by
  unfold handshakeForRank at h
  split at h
  · next handshake' hfind =>
    cases h
    simpa using find?_some hfind
  · cases h

/-- The entries of `target_slices`. -/
def targetSlices (p localHeads remoteHeads totalHeads : ℕ) : List (ℕ × HeadSlice) :=
  (range localHeads).filterMap fun o =>
    if headAt p localHeads totalHeads o / localHeads = p then
      some (headAt p localHeads totalHeads o / remoteHeads,
        .single o (headAt p localHeads totalHeads o % remoteHeads)
          (headAt p localHeads totalHeads o))
    else none

theorem mapM_planHead (hlocal : 0 < l) (hremote : 0 < r) (htotal : 0 < t) (hprefill : t ≤ tp * l)
    (hdecode : t ≤ n * r) :
    (rankGlobalHeads p l t).zipIdx.mapM (planHead p tp n l r t) =
      .ok ((rankGlobalHeads p l t).zipIdx.map fun e => if e.1 / l = p then
          some (e.1 / r, .single e.2 (e.1 % r) e.1) else none) := by
  refine mapM_eq_ok ?_
  intro e he
  rw [zipIdx_rankGlobalHeads] at he
  obtain ⟨o, -, rfl⟩ := mem_map.mp he
  exact planHead_eq hlocal hremote hprefill hdecode (Nat.mod_lt _ htotal) o

theorem reduceOption_planned :
    (((rankGlobalHeads p l t).zipIdx.map fun e => if e.1 / l = p then
          some (e.1 / r, HeadSlice.single e.2 (e.1 % r) e.1)
        else none).reduceOption) = targetSlices p l r t := by
  rw [zipIdx_rankGlobalHeads, map_map]
  exact filterMap_map

theorem filter_targetSlices (rank : ℕ) :
    ((targetSlices p l r t).filter fun e => e.1 = rank).map Prod.snd =
      ownedSlices p l r t rank := by
  unfold targetSlices ownedSlices
  rw [← filterMap_eq_filter, filterMap_filterMap, map_filterMap]
  refine filterMap_congr ?_
  intro o _
  by_cases howner : headAt p l t o / l = p
  · by_cases hrank : headAt p l t o / r = rank
    · simp [howner, hrank, Option.guard]
    · simp [howner, hrank, Option.guard]
  · simp [howner]

theorem isHeadPlan_of_planTargets
    (h : planTargets handshakes l r (targetSlices p l r t) = .ok targets) :
    ∃ ranks, IsHeadPlan p l r t ranks targets := by
  refine ⟨_, (sorted_perm _).nodup_iff.mpr (nodup_dedup _), ?_, (mapM_forall₂ h).imp ?_⟩
  · intro rank
    rw [mem_sorted, ← filter_targetSlices, ne_eq, map_eq_nil_iff]
    simp
  · intro rank target htarget
    obtain ⟨handshake, hhandshake, htarget⟩ := bind_ok htarget
    cases htarget
    exact ⟨handshakeForRank_ok hhandshake, by rw [filter_targetSlices]⟩

theorem buildPushLayoutPlan_ok (h : buildPushLayoutPlan p tp handshakes l r t useMla =
      .ok targets) :
    0 < l ∧ 0 < r ∧ 0 < t ∧ 0 < decodeTpSize handshakes ∧
      if useMla then buildMlaPlan p tp (decodeTpSize handshakes) handshakes = .ok targets
      else ∃ ranks, t ≤ tp * l ∧ t ≤ decodeTpSize handshakes * r ∧
        IsHeadPlan p l r t ranks targets := by
  cases handshakes with
  | nil => cases h
  | cons first rest =>
    obtain ⟨hpos, h⟩ := ite_error_ok h
    obtain ⟨-, h⟩ := ite_error_ok h
    obtain ⟨hranks, h⟩ := ite_error_ok h
    have hdecode : 0 < first.tpSize := by
      rw [← not_not.mp hranks]
      exact length_pos_of_mem (mem_dedup.mpr mem_cons_self)
    refine ⟨by omega, by omega, by omega, hdecode, ?_⟩
    cases useMla with
    | true => exact h
    | false =>
      obtain ⟨-, h⟩ := ite_error_ok h
      obtain ⟨hprefill, h⟩ := ite_error_ok h
      obtain ⟨hcover, h⟩ := ite_error_ok h
      obtain ⟨slices, hslices, h⟩ := bind_ok h
      rw [mapM_planHead (by omega) (by omega) (by omega) (by omega) (by omega)] at hslices
      cases hslices
      rw [reduceOption_planned] at h
      obtain ⟨ranks, hplan⟩ := isHeadPlan_of_planTargets h
      exact ⟨ranks, by omega, by rw [decodeTpSize]; omega, hplan⟩

/-! ### Sources of a slot -/

theorem ownedSlices_pairwise (rank : ℕ) :
    (ownedSlices p l r t rank).Pairwise fun a b => a.localStart < b.localStart := by
  rw [ownedSlices, pairwise_filterMap]
  refine pairwise_lt_range.imp ?_
  intro o o' hlt a ha a' ha'
  obtain ⟨-, ⟨⟩⟩ := Option.ite_none_right_eq_some.mp ha
  obtain ⟨-, ⟨⟩⟩ := Option.ite_none_right_eq_some.mp ha'
  exact hlt

theorem coalesceHeadSlices_pairs (h : slices.Pairwise fun a b => a.localStart < b.localStart) :
    (coalesceHeadSlices slices).flatMap HeadSlice.pairs = slices.flatMap HeadSlice.pairs ∧
      (slices ≠ [] → coalesceHeadSlices slices ≠ []) := by
  cases slices with
  | nil => exact ⟨rfl, fun hne => absurd rfl hne⟩
  | cons first rest =>
    rw [coalesceHeadSlices_cons h]
    exact ⟨coalesceSlicesFrom_pairs first rest, fun _ => coalesceSlicesFrom_ne_nil first rest⟩

theorem headPairs_eq (hslices : target.headSlices = dropFullRankSlice l r
      (coalesceHeadSlices (ownedSlices p l r t rank))) (hne : ownedSlices p l r t rank ≠ []) :
    target.headPairs l = (ownedSlices p l r t rank).flatMap HeadSlice.pairs := by
  have hsorted : (ownedSlices p l r t rank).Pairwise
      fun a b => a.localStart < b.localStart := ownedSlices_pairwise rank
  obtain ⟨hpairs, hcoalesced⟩ := coalesceHeadSlices_pairs hsorted
  obtain ⟨handshake, headSlices⟩ := target
  subst hslices
  rw [headPairs_dropFullRankSlice handshake (hcoalesced hne), hpairs]

/-- The places of rank `p` that are sources of the slot: the head there is the slot's, and `p`
owns it. -/
def sourcesOf (p localHeads remoteHeads totalHeads rank slot : ℕ) : List (ℕ × ℕ) :=
  (range localHeads).filterMap fun o =>
    if headAt p localHeads totalHeads o / localHeads = p ∧
        headAt p localHeads totalHeads o = rank * remoteHeads + slot then some (p, o) else none

theorem ownedSlices_sources (hslot : slot < r) :
    ((ownedSlices p l r t rank).flatMap HeadSlice.pairs).filterMap
      (fun e => if e.2 = slot then some (p, e.1) else none) = sourcesOf p l r t rank slot := by
  unfold ownedSlices sourcesOf
  rw [filterMap_flatMap, filterMap_eq_flatMap_toList, flatMap_assoc,
    filterMap_eq_flatMap_toList]
  refine flatMap_congr ?_
  intro o _
  have hdiv : headAt p l t o = rank * r + slot ↔
      headAt p l t o / r = rank ∧
        headAt p l t o % r = slot := by
    constructor
    · intro heq
      rw [heq, mul_comm, Nat.mul_add_div (Nat.zero_lt_of_lt hslot), Nat.mul_add_mod,
        Nat.div_eq_of_lt hslot, Nat.mod_eq_of_lt hslot]
      exact ⟨rfl, rfl⟩
    · rintro ⟨rfl, rfl⟩
      exact (Nat.div_add_mod' _ _).symm
  by_cases howner : headAt p l t o / l = p
  · by_cases hrank : headAt p l t o / r = rank
    · by_cases hmod : headAt p l t o % r = slot
      · simp [howner, hrank, hmod, hdiv, HeadSlice.single_pairs]
      · simp [howner, hrank, hmod, hdiv, HeadSlice.single_pairs]
    · simp [howner, hrank, hdiv]
  · simp [howner]

theorem IsHeadPlan.sources (h : IsHeadPlan p l r t ranks targets) (hslot : slot < r) :
    (targets.flatMap fun target => (target.headPairs l).filterMap fun e =>
      if target.handshake.tpRank = rank ∧ e.2 = slot then some (p, e.1) else none) =
      sourcesOf p l r t rank slot := by
  rw [← ownedSlices_sources hslot]
  have hrounds : (targets.flatMap fun target => (target.headPairs l).filterMap fun e =>
      if target.handshake.tpRank = rank ∧ e.2 = slot then some (p, e.1) else none) =
      ranks.flatMap fun rank' =>
        ((ownedSlices p l r t rank').flatMap
          HeadSlice.pairs).filterMap fun e =>
            if rank' = rank ∧ e.2 = slot then some (p, e.1) else none := by
    refine flatMap_eq_of_forall₂ ((forall₂_and_left _ _).mpr
      ⟨fun rank' hrank' => (h.mem rank').mp hrank', h.targets⟩) ?_
    rintro rank' target ⟨hne, rfl, hslices⟩
    rw [headPairs_eq hslices hne]
  rw [hrounds]
  by_cases hrank : rank ∈ ranks
  · rw [flatMap_eq_of_unique h.nodup hrank]
    · simp
    · intro rank' _ hne
      simp [hne]
  · have hnil : ownedSlices p l r t rank = [] :=
      not_not.mp fun hne => hrank ((h.mem rank).mpr hne)
    rw [hnil, flatMap_nil, filterMap_nil, flatMap_eq_nil_iff]
    intro rank' hrank'
    have hne : rank' ≠ rank := fun heq => hrank (heq ▸ hrank')
    simp [hne]

theorem mem_sourcesOf :
    src ∈ sourcesOf p l r t rank slot ↔ src.1 = p ∧ src.2 < l ∧ headAt p l t src.2 / l = p ∧
        headAt p l t src.2 = rank * r + slot := by
  obtain ⟨q, o⟩ := src
  simp only [sourcesOf, mem_filterMap, mem_range, Option.ite_none_right_eq_some,
    Option.some.injEq, Prod.mk.injEq]
  constructor
  · rintro ⟨o', ho', hcond, rfl, rfl⟩
    exact ⟨rfl, ho', hcond⟩
  · rintro ⟨rfl, ho, hcond⟩
    exact ⟨o, ho, hcond, rfl, rfl⟩

theorem headAt_eq_iff (htotal : l ≤ t) (hg : g < t) (ho : o < l) (hp : g / l = p) :
    headAt p l t o = g ↔ o = g % l := by
  have hdiv : p * l + g % l = g := by rw [← hp]; exact Nat.div_add_mod' _ _
  unfold headAt
  constructor
  · intro heq
    by_cases hlt : p * l + o < t
    · rw [Nat.mod_eq_of_lt hlt] at heq
      omega
    · rw [Nat.mod_eq_sub_mod (by omega), Nat.mod_eq_of_lt (by omega)] at heq
      omega
  · rintro rfl
    rw [hdiv, Nat.mod_eq_of_lt hg]

/-! ### Coverage without MLA -/

section Covered

theorem filterMap_range_interval {α : Type*} (e : ℕ → α) (n lo hi : ℕ) :
    ((range n).filterMap fun o => if lo ≤ o ∧ o < hi then some (e o) else none) =
      (range' lo (min n hi - lo)).map e := by
  induction n with
  | zero => simp
  | succ n ih =>
    rw [range_succ, filterMap_append, ih]
    by_cases hn : lo ≤ n ∧ n < hi
    · have hlen : min (n + 1) hi - lo = min n hi - lo + 1 := by omega
      have hlast : lo + (min n hi - lo) = n := by omega
      rw [hlen, range'_concat, one_mul, hlast]
      simp [hn]
    · have hlen : min (n + 1) hi - lo = min n hi - lo := by omega
      rw [hlen]
      simp [hn]

section Owned

variable (hlocal : 0 < l) (htotal : l ≤ t)
include hlocal htotal

theorem headAt_div_eq_iff (ho : o < l) : headAt p l t o / l = p ↔ p * l + o < t := by
  unfold headAt
  constructor
  · intro hdiv
    by_contra hge
    have hle : (p * l + o) % t ≤ p * l + o - t := by
      rw [Nat.mod_eq_sub_mod (by omega)]
      exact Nat.mod_le _ _
    have hp : p * l ≤ (p * l + o) % t := by
      conv_lhs => rw [← hdiv]
      exact Nat.div_mul_le_self _ _
    omega
  · intro hlt
    rw [Nat.mod_eq_of_lt hlt, mul_comm, Nat.mul_add_div hlocal, Nat.div_eq_of_lt ho,
      add_zero]

theorem flatMap_sourcesOf (hprefill : t ≤ tp * l) (hg : rank * r + slot < t) :
    ((range tp).flatMap fun p => sourcesOf p l r t rank slot) =
      [((rank * r + slot) / l, (rank * r + slot) % l)] := by
  have howner : (rank * r + slot) / l < tp :=
    (Nat.div_lt_iff_lt_mul hlocal).mpr (lt_of_lt_of_le hg hprefill)
  rw [flatMap_eq_of_unique nodup_range (mem_range.mpr howner)]
  · rw [sourcesOf, filterMap_eq_flatMap_toList, flatMap_eq_of_unique nodup_range
      (mem_range.mpr (Nat.mod_lt (rank * r + slot) hlocal))]
    · rw [(headAt_eq_iff htotal hg (Nat.mod_lt _ hlocal) rfl).mpr rfl]
      simp
    · intro o ho hne
      rw [if_neg]
      · rfl
      · rintro ⟨-, heq⟩
        exact hne ((headAt_eq_iff htotal hg (mem_range.mp ho) rfl).mp heq)
  · intro p _ hne
    rw [eq_nil_iff_forall_not_mem]
    intro src hsrc
    obtain ⟨-, -, howner', heq⟩ := mem_sourcesOf.mp hsrc
    exact hne (by rw [← howner', heq])

variable (hremote : 0 < r)
include hremote

theorem ownedSlices_eq (p rank : ℕ) :
    ∃ n, ownedSlices p l r t rank = (range' (rank * r - p * l) n).map fun o =>
        .single o (p * l + o - rank * r) (p * l + o) := by
  refine ⟨min l (min t (rank * r + r) - p * l) -
    (rank * r - p * l), ?_⟩
  rw [← filterMap_range_interval]
  refine filterMap_congr ?_
  intro o ho
  have ho : o < l := mem_range.mp ho
  have howner := headAt_div_eq_iff (p := p) hlocal htotal ho
  by_cases hlt : p * l + o < t
  · have hhead : headAt p l t o = p * l + o := Nat.mod_eq_of_lt hlt
    rw [hhead] at howner ⊢
    by_cases hrank : (p * l + o) / r = rank
    · have hbounds := (Nat.div_eq_iff hremote).mp hrank
      have hmod : (p * l + o) % r = p * l + o - rank * r := by
        rw [← hrank, Nat.mod_eq_sub_div_mul]
      rw [if_pos ⟨howner.mpr hlt, hrank⟩, if_pos (by omega), hmod]
    · have hbounds := mt (Nat.div_eq_iff hremote).mpr hrank
      rw [if_neg (fun h => hrank h.2), if_neg (by omega)]
  · rw [if_neg (fun h => hlt (howner.mp h.1)), if_neg (by omega)]

theorem ownedSlices_isChain :
    (ownedSlices p l r t rank).IsChain HeadSlice.Follows := by
  obtain ⟨n, hslices⟩ := ownedSlices_eq hlocal htotal hremote p rank
  rw [hslices, range'_eq_map_range, map_map, isChain_map, isChain_range]
  intro i _
  refine ⟨rfl, ?_, ?_⟩
  · simp only [Function.comp_apply, HeadSlice.single]
    omega
  · simp [HeadSlice.single, add_assoc]

theorem length_headSlices_le_one (hslices : target.headSlices = dropFullRankSlice l r
      (coalesceHeadSlices (ownedSlices p l r t rank))) : target.headSlices.length ≤ 1 := by
  have hchain : (ownedSlices p l r t rank).IsChain
      HeadSlice.Follows := ownedSlices_isChain hlocal htotal hremote
  have hsorted : (ownedSlices p l r t rank).Pairwise
      fun a b => a.localStart < b.localStart := ownedSlices_pairwise rank
  rw [hslices]
  cases howned : ownedSlices p l r t rank with
  | nil => exact Nat.zero_le _
  | cons first rest =>
    rw [howned] at hchain hsorted
    rw [coalesceHeadSlices_cons hsorted]
    obtain ⟨only, honly⟩ := length_eq_one_iff.mp (length_coalesceSlicesFrom hchain)
    rw [honly, dropFullRankSlice]
    split
    · exact Nat.zero_le _
    · exact Nat.le_refl _

end Owned

variable (hplans : ∀ p < tp, ∃ ranks,
  IsHeadPlan p l r t ranks (plans p))
include hplans

theorem sources_eq (hslot : slot < r) :
    sources tp l plans rank slot = (range tp).flatMap fun p => sourcesOf p l r t rank slot := by
  refine flatMap_congr ?_
  intro p hp
  obtain ⟨ranks, hplan⟩ := hplans p (mem_range.mp hp)
  exact hplan.sources hslot

theorem mem_sources (hslot : slot < r) :
    src ∈ sources tp l plans rank slot ↔ src.1 < tp ∧ src.2 < l ∧
        headAt src.1 l t src.2 / l = src.1 ∧ headAt src.1 l t src.2 = rank * r + slot := by
  rw [sources_eq hplans hslot, mem_flatMap]
  constructor
  · rintro ⟨p, hp, hsrc⟩
    obtain ⟨heq, hrest⟩ := mem_sourcesOf.mp hsrc
    rw [heq]
    exact ⟨mem_range.mp hp, hrest⟩
  · rintro ⟨hp, hrest⟩
    exact ⟨src.1, mem_range.mpr hp, mem_sourcesOf.mpr ⟨rfl, hrest⟩⟩

/-- **Coverage** of the plans, whatever the total. -/
theorem headsCovered_iff (hlocal : 0 < l) (hremote : 0 < r) (hpos : 0 < t) (hdecode : 0 < n)
    (hprefill : t ≤ tp * l) : HeadsCovered tp n l r t plans ↔ n * r ≤ t ∧ l ≤ t := by
  constructor
  · rintro ⟨hcovered, -⟩
    constructor
    · -- the last slot of the last n rank has a source, so its head is below the total
      obtain ⟨rank, rfl⟩ : ∃ rank, n = rank + 1 := ⟨n - 1, by omega⟩
      obtain ⟨slot, hslot⟩ : ∃ slot, slot + 1 = r := ⟨r - 1, by omega⟩
      obtain ⟨p, o, hsrc, -⟩ := hcovered rank (Nat.lt_succ_self rank) slot (by omega)
      have hmem : (p, o) ∈ sources tp l plans rank slot :=
        hsrc ▸ mem_singleton_self _
      obtain ⟨-, -, -, hhead⟩ := (mem_sources hplans (by omega)).mp hmem
      have hlt : headAt p l t o < t := Nat.mod_lt _ hpos
      dsimp only at hhead
      rw [Nat.succ_mul]
      omega
    · -- otherwise rank 0 has head 0 at place 0 and again at the place of the total
      by_contra hlt
      obtain ⟨p, o, hsrc, -⟩ := hcovered 0 hdecode 0 hremote
      have hranks : 0 < tp :=
        Nat.pos_of_mul_pos_right (lt_of_lt_of_le hpos hprefill)
      have hfirst : (0, 0) ∈ sources tp l plans 0 0 :=
        (mem_sources hplans hremote).mpr ⟨hranks, hlocal, by simp [headAt], by simp [headAt]⟩
      have hsecond : (0, t) ∈ sources tp l plans 0 0 :=
        (mem_sources hplans hremote).mpr
          ⟨hranks, Nat.lt_of_not_le hlt, by simp [headAt], by simp [headAt]⟩
      rw [hsrc, mem_singleton] at hfirst hsecond
      have heq := congrArg Prod.snd (hfirst.trans hsecond.symm)
      exact ne_of_lt hpos heq
  · rintro ⟨hreplicas, htotal⟩
    constructor
    · intro rank hrank slot hslot
      have hg : rank * r + slot < t := by
        calc rank * r + slot < (rank + 1) * r := by rw [Nat.succ_mul]; omega
          _ ≤ n * r := Nat.mul_le_mul_right _ hrank
          _ ≤ t := hreplicas
      refine ⟨(rank * r + slot) / l, (rank * r + slot) % l,
        ?_, ?_⟩
      · rw [sources_eq hplans hslot]
        exact flatMap_sourcesOf hlocal htotal hprefill hg
      · rw [getElem?_rankGlobalHeads (Nat.mod_lt _ hlocal), getElem?_rankGlobalHeads hslot,
          Nat.div_add_mod']
    · intro p hp target htarget
      obtain ⟨ranks, hplan⟩ := hplans p hp
      obtain ⟨rank, -, -, hslices⟩ := forall₂_mem_right hplan.targets htarget
      exact length_headSlices_le_one hlocal htotal hremote hslices

end Covered

/-! ### MLA -/

/-- The decode ranks that prefill rank `p` pushes to. -/
def mlaRanks (prefillTpSize decode p : ℕ) : List ℕ :=
  if decode ≤ prefillTpSize then
    if p % (prefillTpSize / decode) = 0 then [p / (prefillTpSize / decode)] else []
  else range' (p * (decode / prefillTpSize)) (decode / prefillTpSize)

theorem tpRank_of_mapM (h : ranks.mapM (fun decodeRank => do
      let handshake ← handshakeForRank handshakes decodeRank
      return ({ handshake, headSlices := [] } : PushTargetPlan)) = .ok targets) :
    targets.map (·.handshake.tpRank) = ranks := by
  have hall := mapM_forall₂ h
  clear h
  induction hall with
  | nil => rfl
  | cons htarget _ ih =>
    obtain ⟨handshake, hhandshake, htarget⟩ := bind_ok htarget
    cases htarget
    rw [map_cons, ih, handshakeForRank_ok hhandshake]

theorem buildMlaPlan_ok (h : buildMlaPlan p tp n handshakes = .ok targets) :
    (n ∣ tp ∨ tp ∣ n) ∧ targets.map (·.handshake.tpRank) = mlaRanks tp n p ∧
      ∀ target ∈ targets, target.headSlices = [] := by
  unfold buildMlaPlan at h
  unfold mlaRanks
  split at h
  · next hle =>
    obtain ⟨hmod, h⟩ := ite_error_ok h
    refine ⟨.inl (Nat.dvd_of_mod_eq_zero (not_not.mp hmod)), ?_⟩
    rw [if_pos hle]
    dsimp only at h
    split at h
    · next hskip =>
      cases h
      rw [if_neg hskip]
      exact ⟨rfl, fun _ htarget => absurd htarget not_mem_nil⟩
    · next hrank =>
      obtain ⟨handshake, hhandshake, h⟩ := bind_ok h
      cases h
      rw [if_pos (not_not.mp hrank), map_singleton, handshakeForRank_ok hhandshake]
      exact ⟨rfl, fun _ htarget => by rw [mem_singleton.mp htarget]⟩
  · next hle =>
    obtain ⟨hmod, h⟩ := ite_error_ok h
    refine ⟨.inr (Nat.dvd_of_mod_eq_zero (not_not.mp hmod)), ?_⟩
    rw [if_neg hle]
    refine ⟨tpRank_of_mapM h, ?_⟩
    intro target htarget
    obtain ⟨rank, -, htarget⟩ := forall₂_mem_right (mapM_forall₂ h) htarget
    obtain ⟨handshake, -, ⟨⟩⟩ := bind_ok htarget
    rfl

theorem flatMap_mlaRanks_of_le (hle : n ≤ tp) (hdvd : n ∣ tp) (hrank : rank < n) :
    ((range tp).flatMap fun p =>
      (mlaRanks tp n p).filterMap fun r => if r = rank then some p else none) =
        [rank * (tp / n)] := by
  obtain ⟨ratio, rfl⟩ := hdvd
  have hdecode : 0 < n := Nat.zero_lt_of_lt hrank
  have hratio : 0 < ratio := Nat.pos_of_mul_pos_left (lt_of_lt_of_le hdecode hle)
  simp only [mlaRanks, if_pos hle, Nat.mul_div_cancel_left ratio hdecode]
  rw [flatMap_eq_of_unique nodup_range
    (mem_range.mpr (Nat.mul_lt_mul_of_pos_right hrank hratio))]
  · simp [Nat.mul_div_cancel _ hratio]
  · intro p _ hne
    split
    · next hmod =>
      have hother : p / ratio ≠ rank := by
        rintro rfl
        exact hne (Nat.div_mul_cancel (Nat.dvd_of_mod_eq_zero hmod)).symm
      simp [hother]
    · rfl

theorem flatMap_mlaRanks_of_lt (hlt : tp < n) (hprefill : 0 < tp)
    (hdvd : tp ∣ n) (hrank : rank < n) :
    ((List.range tp).flatMap fun p =>
      (mlaRanks tp n p).filterMap fun r => if r = rank then some p else none) =
        [rank / (n / tp)] := by
  obtain ⟨ratio, rfl⟩ := hdvd
  have hratio : 0 < ratio := Nat.pos_of_mul_pos_left (Nat.zero_lt_of_lt hrank)
  simp only [mlaRanks, if_neg (Nat.not_le_of_lt hlt), Nat.mul_div_cancel_left ratio hprefill]
  have hbounds := (Nat.div_eq_iff hratio).mp (Eq.refl (rank / ratio))
  rw [flatMap_eq_of_unique nodup_range
    (mem_range.mpr ((Nat.div_lt_iff_lt_mul hratio).mpr hrank))]
  · have hmem : rank ∈ List.range' (rank / ratio * ratio) ratio := by
      rw [mem_range'_1]
      omega
    rw [filterMap_eq_flatMap_toList, flatMap_eq_of_unique nodup_range' hmem]
    · simp
    · intro r _ hne
      simp [hne]
  · intro p _ hne
    rw [filterMap_eq_nil_iff]
    intro r hr
    have hother : r ≠ rank := by
      rintro rfl
      have hr := mem_range'_1.mp hr
      exact hne ((Nat.div_eq_iff hratio).mpr (by omega)).symm
    rw [if_neg hother]

theorem flatMap_mlaRanks (hprefill : 0 < tp) (hdvd : n ∣ tp ∨ tp ∣ n) (hrank : rank < n) :
    ∃ p, ((List.range tp).flatMap fun p =>
      (mlaRanks tp n p).filterMap fun r => if r = rank then some p else none) = [p] := by
  rcases Nat.lt_or_ge tp n with hlt | hle
  · have hdvd' : tp ∣ n :=
      hdvd.resolve_left fun h => Nat.not_le_of_lt hlt (Nat.le_of_dvd hprefill h)
    exact ⟨_, flatMap_mlaRanks_of_lt hlt hprefill hdvd' hrank⟩
  · have hdvd' : n ∣ tp := by
      refine hdvd.elim id fun h => ?_
      rw [Nat.le_antisymm hle (Nat.le_of_dvd (Nat.zero_lt_of_lt hrank) h)]
    exact ⟨_, flatMap_mlaRanks_of_le hle hdvd' hrank⟩

theorem sourceRanks_mla (hprefill : 0 < tp)
    (h : ∀ p < tp, buildMlaPlan p tp n handshakes = .ok (plans p)) (hrank : rank < n) :
    ∃ p, sourceRanks tp plans rank = [p] := by
  obtain ⟨p, hp⟩ := flatMap_mlaRanks hprefill (buildMlaPlan_ok (h 0 hprefill)).1 hrank
  refine ⟨p, hp ▸ flatMap_congr ?_⟩
  intro q hq
  rw [← (buildMlaPlan_ok (h q (mem_range.mp hq))).2.1, filterMap_map]
  rfl

/-- **Coverage of the decode side.**  Let all prefill ranks accept, with the total the prefill
worker computes.  With MLA, every decode rank has exactly one source rank.  Without, every slot
of every decode rank has exactly one source with the same global head, and all targets are
single slices, if and only if the decode side has no replicas and no prefill rank has more
heads than the decode side. -/
theorem pushLayoutPlan_covers_iff (prefillTpSize localHeads remoteHeads : ℕ) (useMla : Bool)
    (handshakes : List RankHandshake) (plans : ℕ → List PushTargetPlan)
    (hprefill : 0 < prefillTpSize)
    (h : ∀ p < prefillTpSize, buildPushLayoutPlan p prefillTpSize handshakes localHeads remoteHeads
      (totalNumKvHeads localHeads prefillTpSize remoteHeads (decodeTpSize handshakes) useMla)
        useMla = .ok (plans p)) :
    if useMla then ∀ rank < decodeTpSize handshakes, ∃ p, sourceRanks prefillTpSize plans rank = [p]
    else HeadsCovered prefillTpSize (decodeTpSize handshakes) localHeads remoteHeads
        (totalNumKvHeads localHeads prefillTpSize remoteHeads (decodeTpSize handshakes) false)
        plans ↔ decodeTpSize handshakes * remoteHeads ≤ prefillTpSize * localHeads ∧
        localHeads ≤ decodeTpSize handshakes * remoteHeads := by
  cases useMla with
  | true =>
    intro rank hrank
    exact sourceRanks_mla hprefill (fun p hp => (buildPushLayoutPlan_ok (h p hp)).2.2.2.2) hrank
  | false =>
    obtain ⟨hlocal, hremote, hpos, hdecode, ranks, htotal, -⟩ :=
      buildPushLayoutPlan_ok (h 0 hprefill)
    have hplans : ∀ p < prefillTpSize, ∃ ranks, IsHeadPlan p localHeads remoteHeads
        (totalNumKvHeads localHeads prefillTpSize remoteHeads (decodeTpSize handshakes) false) ranks
        (plans p) := by
      intro p hp
      obtain ⟨-, -, -, -, ranks, -, -, hplan⟩ := buildPushLayoutPlan_ok (h p hp)
      exact ⟨ranks, hplan⟩
    refine (headsCovered_iff hplans hlocal hremote hpos hdecode htotal).trans ?_
    rw [totalNumKvHeads, if_neg Bool.false_ne_true, Nat.mul_comm localHeads,
      Nat.mul_comm remoteHeads]
    omega

/-- One handshake for each of `n` decode ranks. -/
def decodeRanks (n : ℕ) : List RankHandshake :=
  (range n).map fun tpRank => { tpRank, tpSize := n }

/-- The plans of `prefillTpSize` ranks with `localHeads` heads each, for `n` decode ranks with
`remoteHeads` each; no targets where a rank raises. -/
def plansFor (prefillTpSize localHeads n remoteHeads : ℕ) (p : ℕ) : List PushTargetPlan :=
  (buildPushLayoutPlan p prefillTpSize (decodeRanks n) localHeads remoteHeads
    (totalNumKvHeads localHeads prefillTpSize remoteHeads n false) false).toOption.getD []

theorem headsCovered_fourToTwo : HeadsCovered 4 2 1 2 4 (plansFor 4 1 2 2) :=
  (pushLayoutPlan_covers_iff 4 1 2 false (decodeRanks 2) (plansFor 4 1 2 2) (by decide)
    (by decide +kernel)).mpr (by decide)

/-- Two heads in all, on two prefill ranks and replicated on four decode ranks: all prefill
ranks accept, and slot 0 of decode rank 2 has no source. -/
theorem not_headsCovered_replicas :
    (∀ p < 2, buildPushLayoutPlan p 2 (decodeRanks 4) 1 1 (totalNumKvHeads 1 2 1 4 false) false =
      .ok (plansFor 2 1 4 1 p)) ∧ ¬ HeadsCovered 2 4 1 1 2 (plansFor 2 1 4 1) := by
  refine ⟨by decide +kernel, ?_⟩
  rintro ⟨hcovered, -⟩
  obtain ⟨p, o, hsrc, -⟩ := hcovered 2 (by decide) 0 (by decide)
  have hnone : sources 2 1 (plansFor 2 1 4 1) 2 0 = [] := by decide +kernel
  cases hsrc

end PegaFlow
