/-
PegaFlow/LookupAllocation.lean

A lookup and the allocation after it.

`get_num_new_matched_tokens` tells vLLM how many tokens of a request can be loaded.  vLLM allocates
blocks for them and passes the number back to `update_state_after_alloc`, which turns it into a
number of blocks again, checks it against the probe and builds the destinations of the load.
-/
import PegaFlow.LeaseProbes
import PegaFlow.LeaseSizes
import PegaFlow.Loops

namespace PegaFlow

open List Option

namespace Leases

variable {Hash : Type} {sizes : List ℕ} {log : List (QueryCall × QueryReply)}

/-! ### Sizes of all leases -/

/-- The sizes of the leases that came with the answers of a log. -/
def leaseSizes (log : List (QueryCall × QueryReply)) : List ℕ :=
  (log.filter fun e => e.2.leased).map fun e => e.2.blocks

/-- The sizes of leases, by their numbers. -/
def sizeIn (sizes : List ℕ) (lease : ℕ) : Option ℕ := sizes[lease]?

theorem length_leaseSizes (log : List (QueryCall × QueryReply)) :
    (leaseSizes log).length = log.countP fun e => e.2.leased := by
  rw [leaseSizes, length_map, countP_eq_length_filter]

theorem answered_leaseSizes (sizes : List ℕ) (hwithin : ∀ e ∈ log, e.2.blocks ≤ e.1.numHashes) :
    Prog.Answered QueryReply.leased (Fits (sizeIn (sizes ++ leaseSizes log))) sizes.length log := by
  induction log generalizing sizes with
  | nil => trivial
  | cons e log ih =>
    obtain ⟨call, reply⟩ := e
    have hle : reply.blocks ≤ call.numHashes := hwithin _ mem_cons_self
    have hrest : ∀ e ∈ log, e.2.blocks ≤ e.1.numHashes :=
      fun e he => hwithin e (mem_cons_of_mem _ he)
    cases hleased : reply.leased with
    | false =>
      have hsizes : leaseSizes ((call, reply) :: log) = leaseSizes log := by
        rw [leaseSizes, filter_cons_of_neg (by simpa using hleased)]
        rfl
      rw [hsizes, Prog.Answered, hleased]
      exact ⟨⟨hle, by rintro k ⟨⟩⟩, ih sizes hrest⟩
    | true =>
      have hsizes : sizes ++ leaseSizes ((call, reply) :: log) =
          (sizes ++ [reply.blocks]) ++ leaseSizes log := by
        have hfilter : ((call, reply) :: log).filter (fun e => e.2.leased) =
            (call, reply) :: log.filter fun e => e.2.leased := filter_cons_of_pos hleased
        rw [leaseSizes, hfilter, append_assoc]
        rfl
      have hnext := ih (sizes ++ [reply.blocks]) hrest
      rw [length_append] at hnext
      rw [hsizes, Prog.Answered, hleased]
      refine ⟨⟨hle, ?_⟩, hnext⟩
      rintro k ⟨⟩
      rw [sizeIn, append_assoc, getElem?_append_right (le_refl _), Nat.sub_self]
      rfl

theorem SizedTuple.append {n : ℕ} {leases : LeaseTuple} (h : SizedTuple (sizeIn sizes) n leases)
    (new : List ℕ) : SizedTuple (sizeIn (sizes ++ new)) n leases := by
  intro k hk
  have hsize : sizes[k]? = some n := h k hk
  obtain ⟨hlt, -⟩ := List.getElem?_eq_some_iff.mp hsize
  rw [sizeIn, getElem?_append_left hlt, hsize]

/-! ### Probes -/

variable {computedBlocks group : ℕ} {size : ℕ → Option ℕ} {probe : QueryProbe Hash}
  {r : ShardedQueryReady} (cfg : LeaseConfig Hash)

/-- What a probe holds: the leases are on `leasedBlocks` blocks, of which the hit are the first. -/
structure ProbeHit (size : ℕ → Option ℕ) (probe : QueryProbe Hash)
    (r : ShardedQueryReady) : Prop where
  tail_le : probe.tailTokens ≤ cfg.ctx.virtualBlockSize
  le : r.numHitBlocks ≤ probe.leasedBlocks
  leased_le : probe.leasedBlocks ≤ probe.queryHashes.length
  length_leases : r.leases.length = cfg.numShards
  leased : probe.leasedBlocks ≠ 0 → none ∉ r.leases
  sized : SizedTuple size probe.leasedBlocks r.leases
  full : r.recurrentHold = none → r.numHitBlocks = probe.leasedBlocks
  ungrouped : r.leasesByGroup = none → r.blockRangesByGroup = none
  grouped : ∀ byGroup, r.leasesByGroup = some byGroup → r.recurrentHold = none ∧
    ∃ ranges, r.blockRangesByGroup = some ranges ∧ ∀ group < cfg.cacheGroups.groupCount,
      GroupHit cfg size probe.computedBlocks r byGroup ranges group

theorem GroupHit.append {cfg : LeaseConfig Hash} {byGroup : List LeaseTuple} {ranges : List (ℕ × ℕ)}
    (h : GroupHit cfg (sizeIn sizes) computedBlocks r byGroup ranges group) (new : List ℕ) :
    GroupHit cfg (sizeIn (sizes ++ new)) computedBlocks r byGroup ranges group where
  dense := h.dense
  sliding hkind request := ⟨(h.sliding hkind request).1, (h.sliding hkind request).2.append new⟩

theorem ProbeHit.append {cfg : LeaseConfig Hash} (h : ProbeHit cfg (sizeIn sizes) probe r)
    (new : List ℕ) : ProbeHit cfg (sizeIn (sizes ++ new)) probe r :=
  { h with
    sized := h.sized.append new
    grouped := fun byGroup hgroup => by
      obtain ⟨hhold, ranges, hranges, hgroups⟩ := h.grouped byGroup hgroup
      exact ⟨hhold, ranges, hranges, fun group hlt => (hgroups group hlt).append new⟩ }

theorem LookupHit.probeHit {cfg : LeaseConfig Hash} (probe : QueryProbe Hash)
    (h : LookupHit cfg size probe.computedBlocks probe.queryHashes.length r)
    (htail : probe.tailTokens ≤ cfg.ctx.virtualBlockSize) :
    ProbeHit cfg size { probe with result := some r, leasedBlocks := r.numHitBlocks } r where
  tail_le := htail
  le := le_refl _
  leased_le := h.le
  length_leases := h.length_leases
  leased := h.leased
  sized := h.sized
  full := fun _ => rfl
  ungrouped := h.ungrouped
  grouped := h.grouped

theorem shrinks_probeHit (size : ℕ → Option ℕ) : Shrinks cfg (ProbeHit cfg size) where
  tail_le h := h.tail_le
  shrink h hhold hle :=
    { h with
      le := hle.trans h.le
      full := fun hnone => by cases hnone
      grouped := fun byGroup hgroup => by
        rw [(h.grouped byGroup hgroup).1] at hhold
        cases hhold }

/-! ### Polls -/

variable {queryHashes : List Hash} {tailTokens : ℕ}

/-- The history has the sizes of all leases handed out, and the probes fit it. -/
structure Sized (sizes : List ℕ) (s : Connector Hash) : Prop where
  length_eq : sizes.length = s.ledger.handed
  probes : Probed (ProbeHit cfg (sizeIn sizes)) s

theorem sized_init : Sized cfg [] Connector.init where
  length_eq := rfl
  probes reqId probe r h := absurd h (by simp [Connector.init])

section Poll

variable {cfg : LeaseConfig Hash} {s s' : Connector Hash} {request : Request Hash}

theorem Sized.calm (h : Sized cfg sizes s) (hcalm : Calm s s') : Sized cfg sizes s' :=
  ⟨h.length_eq.trans hcalm.handed.symm, h.probes.calm hcalm⟩

theorem Sized.withReplies (h : Sized cfg sizes s) (replies : List QueryReply) :
    Sized cfg sizes (s.withReplies replies) :=
  ⟨h.length_eq, h.probes⟩

variable [DecidableEq Hash]

/-- **A poll** adds the sizes of its leases to the history, and tokens are offered with the probe
of the query. -/
theorem sized_poll (h : Sized cfg sizes s) (hstart : s.ledger.log = []) (numComputedTokens : ℕ)
    (hwithin : ∀ e ∈ (s.getNumNewMatchedTokens cfg request numComputedTokens).2.ledger.log,
      e.2.blocks ≤ e.1.numHashes) :
    let out := s.getNumNewMatchedTokens cfg request numComputedTokens
    Sized cfg (sizes ++ leaseSizes out.2.ledger.log) out.2 ∧
      ∃ queryHashes tailTokens,
        Polled cfg (ProbeHit cfg (sizeIn (sizes ++ leaseSizes out.2.ledger.log))) request
          (numComputedTokens / cfg.ctx.virtualBlockSize) queryHashes tailTokens out ∧
        ∀ tokens, out.1 = .ok (some tokens, true) →
          cfg.buildQuery request (numComputedTokens / cfg.ctx.virtualBlockSize) =
            .ok (queryHashes, tailTokens) := by
  intro out
  obtain ⟨log, hlog, hhanded⟩ := exists_log_getNumNewMatchedTokens cfg s request numComputedTokens
  rw [hstart, nil_append] at hlog
  have hlength : (sizes ++ leaseSizes out.2.ledger.log).length = out.2.ledger.handed := by
    rw [length_append, length_leaseSizes, h.length_eq, hhanded, hlog]
  have hbefore : Probed (ProbeHit cfg (sizeIn (sizes ++ leaseSizes out.2.ledger.log))) s :=
    fun reqId probe r hlookup hresult => (h.probes reqId probe r hlookup hresult).append _
  suffices hnew : _ by
    obtain ⟨queryHashes, tailTokens, hpolled, hquery⟩ :=
      polled_getNumNewMatchedTokens (shrinks_probeHit cfg _) hbefore request numComputedTokens hnew
    exact ⟨⟨hlength, hpolled.probed⟩, queryHashes, tailTokens, hpolled, hquery⟩
  -- what the lookup returns fits the sizes of its answers
  intro s' hcalm queryHashes tailTokens r hquery _ run hok hlog
  have hanswered := answered_leaseSizes sizes hwithin
  rw [h.length_eq, ← hcalm.handed] at hanswered
  obtain ⟨-, -, B, -, hret, -⟩ := (countAvailableBlockPrefix_keeps (raises_true request)
    (numComputedTokens / cfg.ctx.virtualBlockSize) queryHashes).run nodup_nil (by simp)
      (by rw [← hlog, hcalm.log, hstart]; rfl) hanswered
  rw [show (Prog.run QueryReply.leased _ s'.ledger).1 = .ok (some r) from hok] at hret
  obtain ⟨-, ⟨⟨⟩, -⟩ | ⟨ready, _, ⟨⟩, hready, hresult⟩⟩ := hret
  exact LookupHit.probeHit
    { computedBlocks := numComputedTokens / cfg.ctx.virtualBlockSize, queryHashes, tailTokens }
    (hresult.lookupHit hready) (of_buildQuery hquery).2.le

end Poll

/-! ### Tokens and blocks -/

section Tokens

variable {cfg : LeaseConfig Hash} {request : Request Hash} {tokens : ℕ}

theorem roundUp_eq_iff {blocks size : ℕ} (hsize : 0 < size) :
    (tokens + size - 1) / size = blocks ↔
      blocks * size < tokens + size ∧ tokens ≤ blocks * size := by
  rw [Nat.div_eq_iff hsize]
  omega

/-- The request has two tokens or more in the last block of the hit: one to load and one that is
left to compute.  A hit that ends at a checkpoint is not clipped. -/
def LastReached (cfg : LeaseConfig Hash) (request : Request Hash) (probe : QueryProbe Hash)
    (r : ShardedQueryReady) : Prop :=
  r.recurrentHold = none →
    (probe.computedBlocks + r.numHitBlocks) * cfg.ctx.virtualBlockSize + 2 ≤
      request.numTokens + cfg.ctx.virtualBlockSize

theorem Offered.blocks_iff {tokens : ℤ} (h : Offered cfg request probe r tokens)
    (htail : probe.tailTokens ≤ cfg.ctx.virtualBlockSize) :
    (tokens.toNat + cfg.ctx.virtualBlockSize - 1) / cfg.ctx.virtualBlockSize = r.numHitBlocks ↔
      LastReached cfg request probe r := by
  have hvbs := cfg.ctx.virtualBlockSize_pos
  rw [roundUp_eq_iff hvbs, LastReached]
  have hpos := h.pos
  rcases h.eq with ⟨hhold, rfl⟩ | ⟨hhold, rfl⟩
  · have hhigh : hitTokens cfg request probe r ≤ _ := hitTokens_le htail
    rw [Nat.add_mul]
    unfold hitTokens ConnectorContext.hitTokens at hpos hhigh ⊢
    dsimp only at hpos hhigh ⊢
    rw [Int.sub_mul, ← Int.natCast_mul, ← Int.natCast_mul] at hpos hhigh ⊢
    rw [show (r.recurrentHold = none) = True from eq_true hhold, true_imp_iff]
    split at hpos <;> omega
  · rw [← Int.natCast_mul, Int.toNat_natCast]
    exact ⟨fun _ hnone => absurd hnone hhold, fun _ => ⟨by omega, le_refl _⟩⟩

end Tokens

/-! ### Destinations -/

variable {start tokens : ℕ}

section Load

variable (cfg : LeaseConfig Hash) {ranges : Option (List (ℕ × ℕ))} {blocks leased : ℕ}

/-- The number of destinations of a group: the blocks of its own span for a sliding window, and
those of the prefix for all others. -/
def loadLength (leased : ℕ) (ranges : Option (List (ℕ × ℕ))) (group : ℕ) : ℕ :=
  match ranges with
  | some ranges =>
      if kindOf cfg group = some .sliding then
        (ranges.getD group (0, 0)).2 - (ranges.getD group (0, 0)).1
      else leased
  | none => leased

theorem length_groupDestinations (hle : blocks ≤ leased) {ids : List ℕ}
    (hlong : kindOf cfg group ≠ some .scratch →
      (loadRange cfg start blocks ranges group).2 ≤ ids.length) :
    (groupDestinations cfg start blocks leased ranges ids group).length =
      loadLength cfg leased ranges group := by
  unfold groupDestinations
  split
  · next hscratch =>
    rw [length_replicate]
    rcases ranges with _ | ranges
    · rfl
    · exact (if_neg (by rw [hscratch]; exact nofun)).symm
  · next hscratch =>
    have hend := hlong hscratch
    have hlen : ((ids.take (loadRange cfg start blocks ranges group).2).drop
        (loadRange cfg start blocks ranges group).1).length =
          (loadRange cfg start blocks ranges group).2 -
            (loadRange cfg start blocks ranges group).1 := by
      rw [length_drop, length_take, min_eq_left hend]
    split
    · next hsliding =>
      rw [length_map, hlen]
      rcases ranges with _ | ranges
      · exact absurd hsliding.1 Bool.false_ne_true
      · rw [loadRange, loadLength, if_pos hsliding.2, if_pos hsliding.2]
    · next hsliding =>
      -- all other groups have the blocks of the prefix, and padding
      have hrange : loadRange cfg start blocks ranges group = (start, start + blocks) ∧
          loadLength cfg leased ranges group = leased := by
        rcases ranges with _ | ranges
        · exact ⟨rfl, rfl⟩
        · have hkind : kindOf cfg group ≠ some .sliding := fun hkind => hsliding ⟨rfl, hkind⟩
          rw [loadRange, loadLength, if_neg hkind, if_neg hkind]
          exact ⟨rfl, rfl⟩
      rw [hrange.1, Nat.add_sub_cancel_left] at hlen
      rw [hrange.1, hrange.2]
      split
      · simp only [length_append, length_replicate, length_drop, length_map]
        rw [← length_drop, hlen]
        omega
      · rw [length_append, length_map, hlen, length_replicate]
        exact Nat.add_sub_cancel' hle

section Tables

variable {tables : List (List (ℕ × Bool))} {vectors : List (List (Option ℕ))}

theorem getElem?_ids {tables : List (List (ℕ × Bool))} (hgroup : group < tables.length) :
    (tables.map fun group => group.map Prod.fst)[group]? =
      some ((tables.getD group []).map Prod.fst) := by
  simp [hgroup]

theorem loadBlockIdsByGroup_ok (hle : blocks ≤ leased)
    (hlong : ∀ group < tables.length, kindOf cfg group ≠ some .scratch →
      (loadRange cfg start blocks ranges group).2 ≤ (tables.getD group []).length) :
    ∃ vectors, loadBlockIdsByGroup cfg (tables.map fun group => group.map Prod.fst) start blocks
        leased ranges = .ok vectors ∧ ∀ group < tables.length,
          (vectors.getD group []).length = loadLength cfg leased ranges group := by
  refine ⟨_, (if_neg ?_).trans (if_neg (Nat.not_lt.mpr hle)), fun group hgroup => ?_⟩
  · rintro ⟨⟨ids, group⟩, hmem, hkind, hshort⟩
    have hids := mem_zipIdx_iff_getElem?.mp hmem
    have hgroup : group < tables.length := length_map _ ▸ (List.getElem?_eq_some_iff.mp hids).1
    obtain rfl := some.inj ((getElem?_ids hgroup).symm.trans hids)
    rw [length_map] at hshort
    exact absurd hshort (Nat.not_lt.mpr (hlong group hgroup hkind))
  · rw [getD_eq_getElem?_getD, getElem?_map, getElem?_zipIdx, getElem?_ids hgroup, map_some,
      map_some, getD_some, Nat.zero_add]
    refine length_groupDestinations cfg hle fun hkind => ?_
    rw [length_map]
    exact hlong group hgroup hkind

theorem long_of_loadBlockIdsByGroup (h : loadBlockIdsByGroup cfg
      (tables.map fun group => group.map Prod.fst) start blocks leased ranges = .ok vectors)
    (hgroup : group < tables.length) (hkind : kindOf cfg group ≠ some .scratch) :
    (loadRange cfg start blocks ranges group).2 ≤ (tables.getD group []).length := by
  by_contra hshort
  rw [Nat.not_le, ← length_map Prod.fst] at hshort
  have hmem : ((tables.getD group []).map Prod.fst, group) ∈
      (tables.map fun group => group.map Prod.fst).zipIdx :=
    mem_zipIdx_iff_getElem?.mpr (getElem?_ids hgroup)
  unfold loadBlockIdsByGroup at h
  rw [if_pos ⟨_, hmem, hkind, hshort⟩] at h
  cases h

end Tables

end Load

/-! ### Allocations -/

section Allocation

variable {cfg : LeaseConfig Hash} {s : Connector Hash} {request : Request Hash}
  {blocks : List (List (ℕ × Bool))}

/-- The tokens in a block of a group's table. -/
def blockTokens (cfg : LeaseConfig Hash) (group : ℕ) : ℕ :=
  if kindOf cfg group = some .sliding then SlidingLookup.groupSize cfg group
  else cfg.ctx.virtualBlockSize

/-- A block table of vLLM that has `computedBlocks` blocks from its own cache and covers `tokens`
tokens in all groups. -/
structure Table (cfg : LeaseConfig Hash) (blocks : List (List (ℕ × Bool)))
    (computedBlocks tokens : ℕ) : Prop where
  groups : blocks.length = cfg.cacheGroups.groupCount
  computed : (blocks.getD cfg.cacheGroups.hashGroupIndex []).countP Prod.snd = computedBlocks
  covers : ∀ group < cfg.cacheGroups.groupCount, kindOf cfg group ≠ some .scratch →
    tokens ≤ (blocks.getD group []).length * blockTokens cfg group

/-- The blocks of sliding windows are no larger than the others (`from_config`). -/
def WindowsFit (cfg : LeaseConfig Hash) : Prop :=
  ∀ group < cfg.cacheGroups.groupCount, kindOf cfg group = some .sliding →
    SlidingLookup.groupSize cfg group ≤ cfg.ctx.virtualBlockSize

/-- The tables of sliding windows reach the last whole block of the hit, though one token of it
may be left to compute. -/
def WindowsReached (cfg : LeaseConfig Hash) (blocks : List (List (ℕ × Bool)))
    (probe : QueryProbe Hash) (r : ShardedQueryReady) : Prop :=
  r.blockRangesByGroup ≠ none → ∀ group < cfg.cacheGroups.groupCount,
    kindOf cfg group = some .sliding →
      (probe.computedBlocks + r.numHitBlocks) * cfg.ctx.virtualBlockSize /
        SlidingLookup.groupSize cfg group ≤ (blocks.getD group []).length

/-- The lease of a group that goes with the intent. -/
def LeaseSet.ofGroup (r : LeaseSet) (group : ℕ) : LeaseTuple :=
  match r.leasesByGroup with
  | some byGroup => byGroup.getD group []
  | none => r.leases

theorem add_roundUp_le {length size : ℕ} (hsize : 0 < size)
    (h : start * size + tokens ≤ length * size) : start + (tokens + size - 1) / size ≤ length := by
  have hdiv := Nat.div_mul_le_self (tokens + size - 1) size
  refine Nat.le_of_lt_succ (Nat.lt_of_mul_lt_mul_right (a := size) ?_)
  rw [Nat.add_mul, Nat.succ_mul]
  omega

theorem Table.long_iff (hwindows : WindowsFit cfg) (hprobe : ProbeHit cfg size probe r)
    (request : Request Hash) (htable : Table cfg blocks probe.computedBlocks
      (probe.computedBlocks * cfg.ctx.virtualBlockSize + tokens))
    (hblocks : (tokens + cfg.ctx.virtualBlockSize - 1) / cfg.ctx.virtualBlockSize =
      r.numHitBlocks) :
    (∀ group < blocks.length, kindOf cfg group ≠ some .scratch →
      (loadRange cfg probe.computedBlocks r.numHitBlocks r.blockRangesByGroup group).2 ≤
        (blocks.getD group []).length) ↔ WindowsReached cfg blocks probe r := by
  rw [htable.groups]
  have hvbs := cfg.ctx.virtualBlockSize_pos
  have hprefix : ∀ group < cfg.cacheGroups.groupCount, kindOf cfg group ≠ some .scratch →
      probe.computedBlocks + r.numHitBlocks ≤ (blocks.getD group []).length := by
    intro group hgroup hkind
    have hcover := htable.covers group hgroup hkind
    rw [← hblocks]
    refine add_roundUp_le hvbs (hcover.trans (Nat.mul_le_mul_left _ ?_))
    unfold blockTokens
    split
    · next hsliding => exact hwindows group hgroup hsliding
    · exact le_refl _
  rcases hranges : r.blockRangesByGroup with _ | ranges
  · refine iff_of_true hprefix ?_
    rw [WindowsReached, hranges]
    exact fun hne => absurd rfl hne
  -- the span of a sliding window ends with the last whole block of the group
  obtain ⟨byGroup, hby⟩ : ∃ byGroup, r.leasesByGroup = some byGroup := by
    rcases hby : r.leasesByGroup with _ | byGroup
    · rw [hprobe.ungrouped hby] at hranges
      cases hranges
    · exact ⟨byGroup, rfl⟩
  obtain ⟨-, ranges', hranges', hgroups⟩ := hprobe.grouped byGroup hby
  obtain rfl := Option.some.inj (hranges.symm.trans hranges')
  have hspan : ∀ group < cfg.cacheGroups.groupCount, kindOf cfg group = some .sliding →
      (ranges.getD group (0, 0)).2 = (probe.computedBlocks + r.numHitBlocks) *
        cfg.ctx.virtualBlockSize / SlidingLookup.groupSize cfg group := by
    intro group hgroup hsliding
    rw [((hgroups group hgroup).sliding hsliding request).1]
    rfl
  rw [WindowsReached, hranges]
  constructor
  · intro hlong _ group hgroup hsliding
    have hend := hlong group hgroup (by rw [hsliding]; exact nofun)
    rw [loadRange, if_pos hsliding, hspan group hgroup hsliding] at hend
    exact hend
  · intro hreached group hgroup hkind
    unfold loadRange
    dsimp only
    split
    · next hsliding =>
      rw [hspan group hgroup hsliding]
      exact hreached (some_ne_none _) group hgroup hsliding
    · exact hprefix group hgroup hkind

theorem ProbeHit.sizedTuple_ofGroup (h : ProbeHit cfg size probe r) (request : Request Hash)
    (hgroup : group < cfg.cacheGroups.groupCount) :
    SizedTuple size (loadLength cfg probe.leasedBlocks r.blockRangesByGroup group)
      (r.toLeaseSet.ofGroup group) := by
  unfold LeaseSet.ofGroup
  split
  · next byGroup hby =>
    obtain ⟨-, ranges, hranges, hgroups⟩ := h.grouped byGroup hby
    rw [hranges, loadLength]
    split
    · next hsliding => exact ((hgroups group hgroup).sliding hsliding request).2
    · next hdense =>
      rw [(hgroups group hgroup).dense hdense]
      exact h.sized
  · next hby =>
    rw [h.ungrouped hby]
    exact h.sized

variable [DecidableEq Hash]

theorem updateStateAfterAlloc_eq
    (hlookup : s.pendingQueryProbes.lookup request.requestId = some probe)
    (hresult : probe.result = some r) (hquery : cfg.buildQuery request probe.computedBlocks =
      .ok (probe.queryHashes, probe.tailTokens)) (hleases : r.leases ≠ [] ∧ none ∉ r.leases)
    (hpos : tokens ≠ 0) (hgroups : blocks.length = cfg.cacheGroups.groupCount)
    (hcomputed : (blocks.getD cfg.cacheGroups.hashGroupIndex []).countP Prod.snd =
      probe.computedBlocks)
    (hblocks : (tokens + cfg.ctx.virtualBlockSize - 1) / cfg.ctx.virtualBlockSize =
      r.numHitBlocks) :
    s.updateStateAfterAlloc cfg request (some blocks) tokens =
      match loadBlockIdsByGroup cfg (blocks.map fun group => group.map Prod.fst)
        probe.computedBlocks r.numHitBlocks probe.leasedBlocks r.blockRangesByGroup with
      | .error e => (.error e, s.releasePendingQueryProbe cfg request.requestId)
      | .ok vectors => (.ok (), { s with
          pendingLoadIntents := s.pendingLoadIntents.insert request.requestId
            { r.toLeaseSet with blockIdsByGroup := vectors, numTokens := tokens }
          pendingQueryProbes := s.pendingQueryProbes.erase request.requestId }) := by
  obtain ⟨⟨hashes, hhashes⟩, -⟩ := of_buildQuery hquery
  have hmatch : probe.matchesQuery probe.computedBlocks probe.queryHashes probe.tailTokens :=
    decide_eq_true ⟨rfl, rfl, rfl⟩
  have hcopy : cfg.copyBlockIdsByGroup (blocks.map fun group => group.map Prod.fst) =
      .ok (blocks.map fun group => group.map Prod.fst) :=
    if_pos ((length_map _).trans hgroups)
  unfold Connector.updateStateAfterAlloc
  simp only [hhashes, if_neg hpos, hcopy, getD_some, hcomputed, hlookup, hblocks,
    map_some, bind_some, hresult]
  generalize loadBlockIdsByGroup cfg _ _ _ _ _ = loaded
  cases loaded with
  | error e => rfl
  | ok vectors => simp [hquery, hmatch, Connector.storeIntent, hleases]

end Allocation

/-! ### All runs -/

section Runs

variable [DecidableEq Hash] {cfg : LeaseConfig Hash}

/-- A step of the connector, with the sizes of all leases so far. -/
def sizedStep (cfg : LeaseConfig Hash) (x : List ℕ × Connector Hash) (a : Action Hash) :
    Option (List ℕ × Connector Hash) :=
  (Connector.step cfg x.2 a).map fun s =>
    match a with
    | .getNumNewMatchedTokens _ _ _ => (x.1 ++ leaseSizes s.ledger.log, s)
    | _ => (x.1, s)

/-- The backend reports no more hits than it was asked for. -/
def HitsWithin (cfg : LeaseConfig Hash) (x : List ℕ × Connector Hash) : Action Hash → Prop
  | .getNumNewMatchedTokens request numComputedTokens replies =>
      ∀ e ∈ ((x.2.withReplies replies).getNumNewMatchedTokens cfg request
        numComputedTokens).2.ledger.log, e.2.blocks ≤ e.1.numHashes
  | _ => True

instance (cfg : LeaseConfig Hash) (x : List ℕ × Connector Hash) :
    (a : Action Hash) → Decidable (HitsWithin cfg x a)
  | .getNumNewMatchedTokens request numComputedTokens replies =>
      inferInstanceAs (Decidable (∀ e ∈ ((x.2.withReplies replies).getNumNewMatchedTokens cfg
        request numComputedTokens).2.ledger.log, e.2.blocks ≤ e.1.numHashes))
  | .updateStateAfterAlloc _ _ _ | .requestFinished _ | .updateConnectorOutput _
  | .buildConnectorMeta _ | .shutdown => inferInstanceAs (Decidable True)

theorem sized_step {x x' : List ℕ × Connector Hash} {a : Action Hash} (h : Sized cfg x.1 x.2)
    (hwithin : HitsWithin cfg x a) (hstep : sizedStep cfg x a = some x') : Sized cfg x'.1 x'.2 := by
  obtain ⟨s', hs', rfl⟩ := map_eq_some_iff.mp hstep
  cases a with
  | getNumNewMatchedTokens request numComputedTokens replies =>
    obtain rfl := some.inj hs'
    exact (sized_poll (h.withReplies replies) rfl numComputedTokens hwithin).1
  | updateStateAfterAlloc | requestFinished | updateConnectorOutput | buildConnectorMeta
  | shutdown => exact h.calm (calm_step hs' fun _ _ _ => nofun)

/-- The allocation is accepted: the number of blocks to load is the hit of the probe, and the
destinations of each group are as many as its lease has blocks. -/
def Agrees (cfg : LeaseConfig Hash) (size : ℕ → Option ℕ) (s : Connector Hash)
    (request : Request Hash) (blocks : List (List (ℕ × Bool))) (tokens : ℕ)
    (r : ShardedQueryReady) : Prop :=
  (tokens + cfg.ctx.virtualBlockSize - 1) / cfg.ctx.virtualBlockSize = r.numHitBlocks ∧
    ∃ vectors, s.updateStateAfterAlloc cfg request (some blocks) tokens =
        (.ok (), { s with
          pendingLoadIntents := s.pendingLoadIntents.insert request.requestId
            { r.toLeaseSet with blockIdsByGroup := vectors, numTokens := tokens }
          pendingQueryProbes := s.pendingQueryProbes.erase request.requestId }) ∧
      ∀ group < cfg.cacheGroups.groupCount,
        SizedTuple size (vectors.getD group []).length (r.toLeaseSet.ofGroup group)

theorem agrees_iff {s : Connector Hash} {request : Request Hash} {blocks : List (List (ℕ × Bool))}
    (hwindows : WindowsFit cfg)
    (hlookup : s.pendingQueryProbes.lookup request.requestId = some probe)
    (hresult : probe.result = some r) (hprobe : ProbeHit cfg size probe r)
    (hquery : cfg.buildQuery request probe.computedBlocks =
      .ok (probe.queryHashes, probe.tailTokens)) (hpos : tokens ≠ 0)
    (htable : Table cfg blocks probe.computedBlocks
      (probe.computedBlocks * cfg.ctx.virtualBlockSize + tokens)) :
    Agrees cfg size s request blocks tokens r ↔
      (tokens + cfg.ctx.virtualBlockSize - 1) / cfg.ctx.virtualBlockSize = r.numHitBlocks ∧
        WindowsReached cfg blocks probe r := by
  refine and_congr_right fun hblocks => ?_
  have hleased : probe.leasedBlocks ≠ 0 := by
    have hroom : cfg.ctx.virtualBlockSize ≤ tokens + cfg.ctx.virtualBlockSize - 1 := by omega
    have hdiv := Nat.div_pos hroom cfg.ctx.virtualBlockSize_pos
    have hle := hprobe.le
    omega
  have hleases : r.leases ≠ [] := by
    rw [← length_pos_iff, hprobe.length_leases]
    exact cfg.numShards_pos
  have hupdate := updateStateAfterAlloc_eq hlookup hresult hquery
    ⟨hleases, hprobe.leased hleased⟩ hpos htable.groups htable.computed hblocks
  rw [← htable.long_iff hwindows hprobe request hblocks, hupdate]
  constructor
  · rintro ⟨vectors, heq, -⟩
    split at heq
    · cases heq
    · next hload => exact fun group => long_of_loadBlockIdsByGroup cfg hload
  · intro hlong
    obtain ⟨vectors, hload, hlengths⟩ := loadBlockIdsByGroup_ok cfg hprobe.le hlong
    refine ⟨vectors, by rw [hload], fun group hgroup => ?_⟩
    rw [hlengths group (htable.groups ▸ hgroup)]
    exact hprobe.sizedTuple_ofGroup request hgroup

/-- **Lookup and allocation agree**, exactly if the request reaches two tokens into the last block
of the hit and the tables of sliding windows reach its end.  This is after any run, if a poll
offers tokens and vLLM allocates a table that covers them. -/
theorem lookup_allocation_agree_iff (cfg : LeaseConfig Hash) (hwindows : WindowsFit cfg)
    (acts : List (Action Hash)) (sizes : List ℕ) (s : Connector Hash)
    (halong : Along (sizedStep cfg) (HitsWithin cfg) ([], Connector.init) acts)
    (hrun : exec (sizedStep cfg) ([], Connector.init) acts = some (sizes, s))
    (request : Request Hash) (numComputedTokens : ℕ) (replies : List QueryReply)
    (hwithin : HitsWithin cfg (sizes, s)
      (.getNumNewMatchedTokens request numComputedTokens replies)) (tokens : ℤ)
    (s' : Connector Hash)
    (hpoll : (s.withReplies replies).getNumNewMatchedTokens cfg request numComputedTokens =
      (.ok (some tokens, true), s')) (blocks : List (List (ℕ × Bool)))
    (htable : Table cfg blocks (numComputedTokens / cfg.ctx.virtualBlockSize)
      (numComputedTokens / cfg.ctx.virtualBlockSize * cfg.ctx.virtualBlockSize + tokens.toNat)) :
    ∃ probe r, s'.pendingQueryProbes.lookup request.requestId = some probe ∧
      probe.result = some r ∧
      (Agrees cfg (sizeIn (sizes ++ leaseSizes s'.ledger.log)) s' request blocks tokens.toNat r ↔
        LastReached cfg request probe r ∧ WindowsReached cfg blocks probe r) := by
  have hsized : Sized cfg sizes s :=
    (always_of_along (I := fun x => Sized cfg x.1 x.2) (fun _ _ _ => sized_step) (sized_init cfg)
      halong).exec hrun
  obtain ⟨-, queryHashes, tailTokens, hpolled, hquery⟩ :=
    sized_poll (hsized.withReplies replies) rfl numComputedTokens hwithin
  rw [hpoll] at hpolled hquery
  replace hquery := hquery tokens rfl
  obtain ⟨probe, r, hlookup, hresult, hcomputed, rfl, rfl, hoffered⟩ := hpolled.offered tokens rfl
  rw [← hcomputed] at htable hquery
  have hprobe := hpolled.probed _ probe r hlookup hresult
  have hpos := hoffered.pos
  refine ⟨probe, r, hlookup, hresult, ?_⟩
  rw [agrees_iff hwindows hlookup hresult hprobe hquery (by omega) htable,
    hoffered.blocks_iff hprobe.tail_le]

end Runs

open SchedulerConfig (tailLoad sixTokenPrompt)

/-- One shard, blocks of four tokens, with tail blocks loaded. -/
def tailLease : LeaseConfig ℕ :=
  { tailLoad with
    numShards := 1
    numShards_pos := Nat.one_pos }

/-- The prompt is found, and the request ends before it is loaded. -/
def endedRequest : List (Action ℕ) :=
  [.getNumNewMatchedTokens (sixTokenPrompt 0) 0 [.ready 2 [] true], .requestFinished "r"]

theorem isSome_endedRequest :
    (exec (sizedStep tailLease) ([], Connector.init) endedRequest).isSome := rfl

/-- The connector after `endedRequest`, with the sizes of its leases. -/
def afterEnded : List ℕ × Connector ℕ :=
  (exec (sizedStep tailLease) ([], Connector.init) endedRequest).get isSome_endedRequest

/-- The request comes again with one generated token. -/
def resumedPoll : Except String (Option ℤ × Bool) × Connector ℕ :=
  (afterEnded.2.withReplies [.ready 2 [] true]).getNumNewMatchedTokens tailLease
    (sixTokenPrompt 1) 0

/-- With one generated token the tail block is still open: six tokens are offered, for the two
blocks of the lease. -/
theorem lookup_allocation_agree_openTail :
    ∃ r, Agrees tailLease (sizeIn (afterEnded.1 ++ leaseSizes resumedPoll.2.ledger.log))
      resumedPoll.2 (sixTokenPrompt 1) [[(5, false), (6, false)]] 6 r := by
  have hrun : exec (sizedStep tailLease) ([], Connector.init) endedRequest =
      some (afterEnded.1, afterEnded.2) := (some_get isSome_endedRequest).symm
  have hoffer : resumedPoll.1 = .ok (some 6, true) := by decide +kernel
  obtain ⟨probe, r, hlookup, hresult, hiff⟩ := lookup_allocation_agree_iff tailLease
    (by unfold WindowsFit; decide) endedRequest _ _ (by decide +kernel) hrun (sixTokenPrompt 1) 0
    [.ready 2 [] true] (by decide +kernel) 6 resumedPoll.2 (Prod.ext hoffer rfl)
    [[(5, false), (6, false)]] ⟨rfl, rfl, by unfold kindOf; decide⟩
  have hreached : ∀ probe ∈ resumedPoll.2.pendingQueryProbes.lookup "r", ∀ r ∈ probe.result,
      (probe.computedBlocks + r.numHitBlocks) * 4 + 2 ≤ 7 + 4 ∧ r.blockRangesByGroup = none := by
    decide +kernel
  obtain ⟨hlast, hranges⟩ := hreached probe hlookup r hresult
  exact ⟨r, hiff.mpr ⟨fun _ => hlast, fun hne => absurd hranges hne⟩⟩

/-- With two generated tokens the tail block is full, and the query still has a key for the tail.
All three keys are found; seven tokens are offered, for two of the three blocks, and the
allocation raises. -/
theorem mismatch_closedTail :
    HitsWithin tailLease ([], Connector.init)
        (.getNumNewMatchedTokens (sixTokenPrompt 2) 0 [.ready 3 [] true]) ∧
      Table tailLease [[(5, false), (6, false)]] 0 7 ∧
      ((Connector.init.withReplies [.ready 3 [] true]).getNumNewMatchedTokens tailLease
        (sixTokenPrompt 2) 0).1 = .ok (some 7, true) ∧
      (((Connector.init.withReplies [.ready 3 [] true]).getNumNewMatchedTokens tailLease
        (sixTokenPrompt 2) 0).2.updateStateAfterAlloc tailLease (sixTokenPrompt 2)
          (some [[(5, false), (6, false)]]) 7).1 =
        .error "req r leased block mismatch: leased=3 load=2" := by
  refine ⟨by decide +kernel, ⟨rfl, rfl, by unfold kindOf; decide⟩, by decide +kernel, ?_⟩
  decide +kernel

end Leases

end PegaFlow
