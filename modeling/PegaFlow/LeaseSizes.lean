/-
PegaFlow/LeaseSizes.lean

How many blocks the leases of a lookup hold.
-/
import PegaFlow.LeaseLookups

namespace PegaFlow

open List

namespace Leases

variable {Hash : Type}

/-! ### Answers and leases -/

/-- The blocks an answer has found. -/
def QueryReply.blocks : QueryReply → ℕ
  | .ready numHitBlocks _ _ => numHitBlocks
  | _ => 0

/-- An answer finds no more blocks than were asked for, and its lease holds what it found. -/
structure Fits (size : ℕ → Option ℕ) (c : QueryCall) (reply : QueryReply) (lease : Option ℕ) :
    Prop where
  within : reply.blocks ≤ c.numHashes
  sized : ∀ k, lease = some k → size k = some reply.blocks

/-- The leases hold `n` blocks each. -/
def SizedTuple (size : ℕ → Option ℕ) (n : ℕ) (leases : LeaseTuple) : Prop :=
  ∀ k, some k ∈ leases → size k = some n

variable {size : ℕ → Option ℕ}

variable {cfg : LeaseConfig Hash} {id : QueryId} {n : ℕ} {r ready : ShardedQueryReady}
  {blockHashes : List Hash}

/-! ### Prefix queries -/

theorem QueryHit.sized (h : QueryHit (Fits size) cfg id n r) :
    SizedTuple size r.numHitBlocks r.leases := by
  intro k hk
  obtain ⟨shard, hget⟩ := getElem?_of_mem hk
  rcases h.lease shard _ hget with ⟨-, hnone⟩ | ⟨_, _, result, haccepted, hblocks, hlease⟩
  · cases hnone
  · rw [haccepted.meets.sized k hlease, ← hblocks]
    rfl

theorem QueryHit.leased {R : Answers} (h : QueryHit R cfg id n r) (hpos : r.numHitBlocks ≠ 0) :
    none ∉ r.leases := by
  intro hnone
  obtain ⟨shard, hget⟩ := getElem?_of_mem hnone
  rcases h.lease shard _ hget with ⟨hzero, -⟩ | ⟨_, _, result, haccepted, hblocks, hlease⟩
  · exact hpos hzero
  · exact (raises_dense_iff.mp haccepted.accepted).2.1 (hblocks ▸ hpos) hlease

/-! ### Hybrid lookups -/

/-- What a lookup from `computedBlocks` on has for a cache group: the leases of the prefix, or those
of the window that the hit needs. -/
structure GroupHit (cfg : LeaseConfig Hash) (size : ℕ → Option ℕ) (computedBlocks : ℕ)
    (r : ShardedQueryReady) (byGroup : List LeaseTuple) (ranges : List (ℕ × ℕ)) (group : ℕ) :
    Prop where
  dense : cfg.cacheGroups.groups[group]?.map CacheGroup.kind ≠ some .sliding →
    byGroup.getD group [] = r.leases
  sliding : cfg.cacheGroups.groups[group]?.map CacheGroup.kind = some .sliding →
    ∀ request, ranges.getD group (0, 0) =
        SlidingLookup.span cfg { request, computedBlocks } group r.numHitBlocks ∧
      SizedTuple size ((ranges.getD group (0, 0)).2 - (ranges.getD group (0, 0)).1)
        (byGroup.getD group [])

/-- **What a lookup returns.** -/
structure LookupHit (cfg : LeaseConfig Hash) (size : ℕ → Option ℕ) (computedBlocks queried : ℕ)
    (r : ShardedQueryReady) : Prop where
  le : r.numHitBlocks ≤ queried
  length_leases : r.leases.length = cfg.numShards
  leased : r.numHitBlocks ≠ 0 → none ∉ r.leases
  sized : SizedTuple size r.numHitBlocks r.leases
  ungrouped : r.leasesByGroup = none → r.blockRangesByGroup = none
  grouped : ∀ byGroup, r.leasesByGroup = some byGroup → r.recurrentHold = none ∧
    ∃ ranges, r.blockRangesByGroup = some ranges ∧
      ∀ group < cfg.cacheGroups.groupCount, GroupHit cfg size computedBlocks r byGroup ranges group

theorem QueryHit.lookupHit (h : QueryHit (Fits size) cfg id n r) (computedBlocks : ℕ) :
    LookupHit cfg size computedBlocks n r where
  le := h.le
  length_leases := h.length_leases
  leased := h.leased
  sized := h.sized
  ungrouped := fun _ => h.blockRanges
  grouped := by
    rw [h.leasesByGroup]
    exact nofun

theorem lookupHit_noHit {leases : LeaseTuple} (h : leases.length = cfg.numShards)
    (computedBlocks n : ℕ) : LookupHit cfg size computedBlocks n (noHit leases) where
  le := Nat.zero_le _
  length_leases := by rw [noHit, length_map, h]
  leased := fun hne => absurd rfl hne
  sized := by
    intro k hk
    obtain ⟨lease, -, hlease⟩ := mem_map.mp hk
    cases hlease
  ungrouped := fun _ => rfl
  grouped := nofun

theorem HybridResult.lookupHit {reqId : String}
    (hready : QueryHit (Fits size) cfg id blockHashes.length ready)
    (h : HybridResult (Fits size) cfg reqId blockHashes ready r) (computedBlocks : ℕ) :
    LookupHit cfg size computedBlocks blockHashes.length r := by
  cases h with
  | empty => exact hready.lookupHit computedBlocks
  | noBoundary | lost => exact lookupHit_noHit hready.length_leases ..
  | hit _ hhit hdense =>
    exact ⟨(reconcileHybridHit_le hhit).trans hready.le, hdense.length_leases, hdense.leased,
      hdense.sized, fun _ => rfl, nofun⟩

/-! ### Sliding-window lookups -/

theorem SlidingLookup.FoundSpan.sized {lookup : SlidingLookup Hash} {blocks group : ℕ}
    {e : ℕ × (ℕ × ℕ) × LeaseTuple} (h : lookup.FoundSpan (Fits size) cfg blocks group e) :
    SizedTuple size ((lookup.span cfg group blocks).2 - (lookup.span cfg group blocks).1)
      e.2.2 := by
  obtain ⟨_, _, ⟨_, hashes, results, -, -, hfound, ⟨⟩⟩, hfull, rfl⟩ := h
  intro k hk
  obtain ⟨m, hm, hlease⟩ := mem_map.mp hk
  obtain ⟨shard, -, haccepted⟩ := forall₂_mem_right hfound hm
  have hsub : range _ ⊆ m.positions := fun i hi =>
    (mem_commonPositions (ne_nil_of_mem hm)).mp (hfull.2 i (mem_range.mp hi)) m hm
  have hge := (subperm_of_subset nodup_range hsub).length_le
  have hle : m.positions.length ≤ ((hashes.take (lookup.span cfg group blocks).2).drop
      (lookup.span cfg group blocks).1).length := haccepted.meets.within
  rw [length_range] at hge
  rw [length_drop, length_take] at hle
  rw [haccepted.meets.sized k hlease]
  show some m.positions.length = _
  congr 1
  omega

namespace SlidingLookup

variable {lookup : SlidingLookup Hash} {layout : CacheGroupLayout} {group : ℕ}

theorem storageGroupOf_eq_zero (hsliding : layout.has .sliding)
    (hkind : layout.groups[group]?.map CacheGroup.kind ≠ some .sliding) :
    layout.storageGroupOf group = 0 := by
  unfold CacheGroupLayout.storageGroupOf
  split
  · next heq => exact absurd heq hkind
  · exact if_pos hsliding
  · rfl

theorem mem_indicesOf {kind : GroupKind} :
    group ∈ layout.indicesOf kind ↔
      group < layout.groupCount ∧ layout.groups[group]?.map CacheGroup.kind = some kind := by
  rw [CacheGroupLayout.indicesOf, mem_filter, mem_range, decide_eq_true_eq]

theorem SlidingResult.lookupHit {fullHashes : List Hash} (hsliding : cfg.cacheGroups.has .sliding)
    (hready : QueryHit (Fits size) cfg id fullHashes.length ready)
    (h : SlidingResult (Fits size) cfg lookup fullHashes ready r) :
    LookupHit cfg size lookup.computedBlocks fullHashes.length r := by
  cases h with
  | empty => exact hready.lookupHit _
  | miss => exact lookupHit_noHit hready.length_leases ..
  | @hit _ _ dense found _ hdense hfound =>
    obtain ⟨_, _, hdense, hn⟩ := hready.of_eq_or hdense
    refine ⟨hdense.le.trans hn, hdense.length_leases, hdense.leased, hdense.sized, nofun, ?_⟩
    rintro byGroup ⟨⟩
    refine ⟨hdense.recurrentHold, _, rfl, fun group hgroup => ?_⟩
    have hlookup := lookup_found hfound group
    obtain ⟨hby, hranges⟩ := getD_attached lookup dense.leases found dense.numHitBlocks hgroup
    refine ⟨fun hkind => ?_, fun hkind request => ?_⟩
    · have hnone := hlookup.2 fun hmem => hkind (mem_indicesOf.mp hmem).2
      rw [hby, hnone]
      exact if_pos (storageGroupOf_eq_zero hsliding hkind)
    · obtain ⟨leases, hsome, hspan⟩ := hlookup.1 (mem_indicesOf.mpr ⟨hgroup, hkind⟩)
      rw [hby, hranges, hsome]
      exact ⟨rfl, hspan.sized⟩

end SlidingLookup

theorem LookupResult.lookupHit {request : Request Hash} {computedBlocks : ℕ}
    (hready : QueryHit (Fits size) cfg id blockHashes.length ready)
    (h : LookupResult (Fits size) cfg request computedBlocks blockHashes ready r) :
    LookupHit cfg size computedBlocks blockHashes.length r := by
  cases h with
  | hybrid _ h => exact h.lookupHit hready computedBlocks
  | sliding _ hsliding h => exact h.lookupHit hsliding hready
  | dense => exact hready.lookupHit computedBlocks

end Leases

end PegaFlow
