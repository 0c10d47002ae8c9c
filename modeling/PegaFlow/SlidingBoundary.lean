/-
PegaFlow/SlidingBoundary.lean

The boundary of a sliding-window lookup (`connector/scheduler.py`).
-/
import Mathlib.Order.Bounds.Basic
import PegaFlow.FixedCache
import PegaFlow.LeaseAccounting

namespace PegaFlow

open List

namespace Leases

variable {Hash : Type}

/-! ### Boundaries that serve -/

namespace Stored

section Serves

variable (stored : Stored) (cfg : LeaseConfig Hash) (lookup : SlidingLookup Hash)

/-- The request has a key for block `i` of the group, and every shard has it. -/
def Has (group i : ℕ) : Prop :=
  (∃ hashes, requestBlockHashes cfg.ctx lookup.request
      (some (cfg.cacheGroups.blockSizeOf group)) = .ok hashes ∧ i < hashes.length) ∧
    ∀ shard < cfg.numShards, i ∈ stored.members (cfg.cacheGroups.storageGroupOf group) shard

/-- Every shard has all blocks of the group that a hit of `blocks` scheduler blocks needs. -/
def ServesGroup (blocks group : ℕ) : Prop :=
  ∀ i < (lookup.span cfg group blocks).2, (lookup.span cfg group blocks).1 ≤ i →
    stored.Has cfg lookup group i

def Serves (blocks : ℕ) : Prop :=
  ∀ group ∈ cfg.cacheGroups.indicesOf .sliding, stored.ServesGroup cfg lookup blocks group

/-- One lease per shard, taken by a query for the span of the group and for no other block. -/
structure Covers (blocks group : ℕ) (leases : LeaseTuple) : Prop where
  length_leases : leases.length = cfg.numShards
  lease : ∀ shard < cfg.numShards,
    let (start, stop) := lookup.span cfg group blocks
    let storageGroup := cfg.cacheGroups.storageGroupOf group
    start < stop → ∃ n, leases[shard]? = some (some n) ∧
      stored.call n = memberCall (.groupSpan lookup.request.requestId storageGroup start stop)
        (stop - start) storageGroup shard

end Serves

end Stored

namespace SlidingLookup

variable {cfg : LeaseConfig Hash} {stored : Stored} {lookup : SlidingLookup Hash}
  {blocks group : ℕ} {candidate : ℕ}

/-! ### What the queries find -/

/-- A query for a span finds the blocks that every shard has. -/
theorem GroupSpan.mem_iff {span : ℕ × ℕ} {result : List ℕ × LeaseTuple}
    (h : lookup.GroupSpan stored.Answers cfg group span result) (p : ℕ) :
    p ∈ result.1 ↔ p < span.2 - span.1 ∧ stored.Has cfg lookup group (span.1 + p) := by
  obtain ⟨blockSize, hashes, results, hsize, hhashes, hfound, rfl⟩ := h
  obtain rfl := Nat.eq_of_mul_eq_mul_right cfg.ctx.dcpWorldSize_pos hsize
  have hlt : p < ((hashes.take span.2).drop span.1).length ↔
      p < span.2 - span.1 ∧ span.1 + p < hashes.length := by
    rw [length_drop, length_take]
    omega
  rw [mem_commonPositions fun hnil => Nat.ne_of_gt cfg.numShards_pos
    (by simpa [hnil] using hfound.length_eq)]
  constructor
  · intro hall
    have hshard : ∀ shard < cfg.numShards, p < ((hashes.take span.2).drop span.1).length ∧
        span.1 + p ∈ stored.members (cfg.cacheGroups.storageGroupOf group) shard := by
      intro shard hshard
      obtain ⟨m, hm, haccepted⟩ := forall₂_mem_left hfound (mem_range.mpr hshard)
      have hp := hall m hm
      rw [haccepted.finds.positions] at hp
      exact Stored.mem_found.mp hp
    obtain ⟨hp, hkey⟩ := hlt.mp (hshard 0 cfg.numShards_pos).1
    exact ⟨hp, ⟨hashes, hhashes, hkey⟩, fun shard h => (hshard shard h).2⟩
  · rintro ⟨hp, ⟨hashes', hhashes', hkey⟩, hmem⟩ m hm
    obtain rfl := Except.ok.inj (hhashes.symm.trans hhashes')
    obtain ⟨shard, hshard, haccepted⟩ := forall₂_mem_right hfound hm
    rw [haccepted.finds.positions]
    exact Stored.mem_found.mpr ⟨hlt.mpr ⟨hp, hkey⟩, hmem shard (mem_range.mp hshard)⟩

theorem Complete.iff {full : Prop} (h : lookup.Complete stored.Answers cfg full blocks group) :
    full ↔ stored.ServesGroup cfg lookup blocks group := by
  obtain ⟨result, hspan, hfull⟩ := h
  rw [← hfull]
  constructor
  · intro hall i hlt hge
    have hmem := ((hspan.mem_iff _).mp
      (hall.2 (i - (lookup.span cfg group blocks).1) (by omega))).2
    rwa [Nat.add_sub_cancel' hge] at hmem
  · intro hserves
    exact ⟨fun p hp => ((hspan.mem_iff p).mp hp).1, fun p hp =>
      (hspan.mem_iff p).mpr ⟨hp, hserves _ (by omega) (Nat.le_add_right _ _)⟩⟩

/-- The blocks found back to the local prefix tell which boundaries up to the hit serve. -/
theorem Probed.iff {b : ℕ} {e : ℕ × List ℕ} (h : lookup.Probed stored.Answers cfg blocks group e)
    (hb : b ≤ blocks) :
    (∀ i < (lookup.span cfg e.1 b).2, (lookup.span cfg e.1 b).1 ≤ i → i ∈ e.2) ↔
      stored.ServesGroup cfg lookup b group := by
  obtain ⟨result, hspan, rfl⟩ := h
  refine forall_congr' fun i => imp_congr_right fun hlt => imp_congr_right fun hge => ?_
  have hstart : lookup.computedTokens cfg / groupSize cfg group ≤ i :=
    (Nat.div_le_div_right (le_max_left _ _)).trans hge
  have hstop : i < (lookup.span cfg group blocks).2 := hlt.trans_le
    (Nat.div_le_div_right (Nat.mul_le_mul_right _ (Nat.add_le_add_left hb _)))
  rw [mem_map]
  constructor
  · rintro ⟨p, hp, rfl⟩
    exact ((hspan.mem_iff p).mp hp).2
  · intro hhas
    exact ⟨i - _, (hspan.mem_iff _).mpr ⟨Nat.sub_lt_sub_right hstart hstop,
      by rwa [Nat.add_sub_cancel' hstart]⟩, Nat.add_sub_cancel' hstart⟩

/-- A full span is leased. -/
theorem FoundSpan.covers {e : ℕ × (ℕ × ℕ) × LeaseTuple}
    (h : lookup.FoundSpan stored.Answers cfg blocks group e) :
    stored.Covers cfg lookup blocks group e.2.2 := by
  refine ⟨h.length_leases, fun shard hshard => ?_⟩
  obtain ⟨_, _, ⟨_, hashes, results, -, -, hfound, ⟨⟩⟩, hfull, rfl⟩ := h
  generalize lookup.span cfg group blocks = span at hfound hfull ⊢
  obtain ⟨start, stop⟩ := span
  intro hlt
  obtain ⟨m, hm, haccepted⟩ := forall₂_getElem? hfound
    (List.getElem?_eq_some_iff.mpr ⟨by simpa using hshard, getElem_range _⟩)
  have hlast : stop - start - 1 ∈ m.positions :=
    (mem_commonPositions (ne_nil_of_mem (mem_of_getElem? hm))).mp (hfull.2 _ (by omega)) m
      (mem_of_getElem? hm)
  obtain ⟨n, hlease, hcall⟩ := haccepted.finds.lease (ne_nil_of_mem hlast)
  refine ⟨n, by rw [memberLeases, getElem?_map, hm, Option.map_some, hlease], hcall.trans ?_⟩
  rw [haccepted.finds.positions] at hlast
  have hkeys : stop - start - 1 < ((hashes.take stop).drop start).length :=
    (Stored.mem_found.mp hlast).1
  have hle : ((hashes.take stop).drop start).length ≤ stop - start := by
    rw [length_drop, length_take]
    omega
  rw [show ((hashes.take stop).drop start).length = stop - start by omega]

/-! ### The boundary -/

/-- A search from `n` down to 1 finds the greatest number with the property, or 0. -/
theorem isGreatest_find? (p : ℕ → Bool) (n : ℕ) :
    IsGreatest {b | b ≤ n ∧ (b = 0 ∨ p b)} (((range' 1 n).reverse.find? p).getD 0) := by
  induction n with
  | zero => exact ⟨⟨le_refl 0, .inl rfl⟩, fun b hb => hb.1⟩
  | succ n ih =>
    rw [range'_1_concat, reverse_append, reverse_singleton, singleton_append, find?_cons,
      add_comm 1 n]
    cases hp : p (n + 1) with
    | true => exact ⟨⟨le_refl _, .inr hp⟩, fun b hb => hb.1⟩
    | false =>
      refine ⟨⟨ih.1.1.trans (Nat.le_succ n), ih.1.2⟩, fun b hb => ih.2 ⟨?_, hb.2⟩⟩
      refine Nat.le_of_lt_succ (lt_of_le_of_ne hb.1 ?_)
      rintro rfl
      simp [hp] at hb

/-- **The boundary tried is the last one that serves.** -/
theorem Reaches.isGreatest (h : lookup.Reaches stored.Answers cfg blocks candidate) :
    IsGreatest {b | b ≤ blocks ∧ (b = 0 ∨ stored.Serves cfg lookup b)} candidate := by
  rcases h with ⟨rfl, hyes⟩ | ⟨⟨group, hgroup, hno⟩, membership, rfl, hprobed⟩
  · exact ⟨⟨Nat.le_refl _, .inr fun group hgroup => (hyes group hgroup).iff.mp trivial⟩,
      fun b hb => hb.1⟩
  have hserves : ∀ b ≤ blocks, (∀ e ∈ membership, ∀ i < (lookup.span cfg e.1 b).2,
      (lookup.span cfg e.1 b).1 ≤ i → i ∈ e.2) ↔ stored.Serves cfg lookup b := by
    intro b hb
    constructor
    · intro hall group hgroup
      obtain ⟨e, he, hprobe⟩ := forall₂_mem_left hprobed hgroup
      exact (hprobe.iff hb).mp (hall e he)
    · intro hall e he
      obtain ⟨group, hgroup, hprobe⟩ := forall₂_mem_right hprobed he
      exact (hprobe.iff hb).mpr (hall group hgroup)
  have hnot : ¬ stored.Serves cfg lookup blocks := fun hall => hno.iff.mpr (hall group hgroup)
  obtain ⟨⟨hle, hfound⟩, hmax⟩ := isGreatest_find? (fun b => decide (∀ e ∈ membership,
    ∀ i < (lookup.span cfg e.1 b).2, (lookup.span cfg e.1 b).1 ≤ i → i ∈ e.2)) (blocks - 1)
  have hle' := hle.trans (Nat.sub_le _ _)
  refine ⟨⟨hle', hfound.imp_right fun h => (hserves _ hle').mp (of_decide_eq_true h)⟩, ?_⟩
  rintro b ⟨hb, rfl | hall⟩
  · exact Nat.zero_le _
  · refine hmax ⟨?_, .inr (decide_eq_true ((hserves b hb).mpr hall))⟩
    have hne : b ≠ blocks := fun heq => hnot (heq ▸ hall)
    omega

/-- A boundary that serves is not given up: the shards have its prefix. -/
theorem Lost.eq_zero {fullHashes : List Hash}
    (h : lookup.Lost stored.Answers cfg fullHashes candidate)
    (hserves : candidate = 0 ∨ stored.Serves cfg lookup candidate)
    (hinside : ∀ p < candidate, stored.InPrefix cfg.numShards fullHashes.length p) :
    candidate = 0 := by
  rcases h with hzero | hwaits | ⟨dense, hdense, hne⟩ | ⟨group, hgroup, hno⟩
  · exact hzero
  · exact absurd hwaits not_waits_stored
  · refine absurd (le_antisymm (hdense.le.trans (length_take_le _ _)) ?_) hne
    refine Nat.le_of_not_lt fun hlt => lt_irrefl _ ((hdense.agree.lt_iff _).mpr ?_)
    have hinside := hinside _ hlt
    exact ⟨by rw [length_take]; exact Nat.lt_min.mpr ⟨hlt, hinside.1⟩, hinside.2⟩
  · exact hserves.resolve_right fun hall => hno.iff.mpr (hall group hgroup)

/-- **Sliding-window lookups are maximal.**  For a cache that does not change, and a prefix of any
length that all shards have, the lookup ends at the last boundary in the prefix for which every
sliding-window group has all blocks of its span on every shard, or without a hit if there is none.
The leases of these groups are on exactly their spans there, and all other leases are released. -/
theorem sliding_boundary_maximal (cfg : LeaseConfig Hash) (stored : Stored)
    (lookup : SlidingLookup Hash) (fullHashes : List Hash) (tailTokens : ℕ)
    (hquery : cfg.buildQuery lookup.request lookup.computedBlocks = .ok (fullHashes, tailTokens))
    (ready : ShardedQueryReady) (hplain : ready.Plain cfg)
    (hinside : ∀ p < ready.numHitBlocks, stored.InPrefix cfg.numShards fullHashes.length p)
    (w : Ledger QueryCall QueryReply) (hnodup : (held cfg.numShards ready.leases).Nodup)
    (hlt : ∀ lease ∈ held cfg.numShards ready.leases, lease < w.handed)
    (log : List (QueryCall × QueryReply))
    (hlog : ((lookup.attachSlidingGroupQueries cfg fullHashes ready).run QueryReply.leased
      w).2.log = w.log ++ log)
    (hanswers : Prog.Answered QueryReply.leased stored.Answers w.handed log) :
    let (result, w') := (lookup.attachSlidingGroupQueries cfg fullHashes ready).run
      QueryReply.leased w
    ∃ r given, result = .ok r ∧
      IsGreatest {b | b ≤ ready.numHitBlocks ∧ (b = 0 ∨ stored.Serves cfg lookup b)}
        r.numHitBlocks ∧
      (r.numHitBlocks ≠ 0 → ∃ byGroup ranges,
        r.leasesByGroup = some byGroup ∧ r.blockRangesByGroup = some ranges ∧
        ∀ group ∈ cfg.cacheGroups.indicesOf .sliding,
          ranges.getD group (0, 0) = lookup.span cfg group r.numHitBlocks ∧
          stored.Covers cfg lookup r.numHitBlocks group (byGroup.getD group [])) ∧
      w'.released = w.released ++ given ∧
      (given ++ r.owned cfg.numShards).Perm
        (held cfg.numShards ready.leases ++ List.range' w.handed (w'.handed - w.handed)) := by
  obtain ⟨hashes, hhashes, -⟩ := bind_ok hquery
  have hraises : Raises stored.Answers cfg lookup.request False := raises_stored hhashes
  obtain ⟨-, given, B, hgiven, hret, hperm⟩ :=
    (attachSlidingGroupQueries_keeps hraises fullHashes hplain hnodup).run hnodup hlt hlog hanswers
  generalize (lookup.attachSlidingGroupQueries cfg fullHashes ready).run QueryReply.leased w =
    out at hgiven hret hperm ⊢
  obtain ⟨e | r, w'⟩ := out
  · exact hret.2.elim
  obtain ⟨rfl, hresult⟩ := hret
  refine ⟨r, given, rfl, ?_, ?_, hgiven, hperm⟩
  · cases hresult with
    | empty hempty => exact ⟨⟨Nat.le_refl _, .inl hempty⟩, fun b hb => hb.1⟩
    | miss hreaches hlost =>
      have hgreatest := hreaches.isGreatest
      obtain rfl := hlost.eq_zero hgreatest.1.2 fun p hp => hinside p (hp.trans_le hgreatest.1.1)
      exact hgreatest
    | hit hreaches => exact hreaches.isGreatest
  · intro hne
    cases hresult with
    | empty hempty => exact absurd hempty hne
    | miss => exact absurd rfl hne
    | @hit _ _ dense found _ _ hfound =>
      refine ⟨_, _, rfl, rfl, fun group hgroup => ?_⟩
      obtain ⟨leases, hlookup, hspan⟩ := (lookup_found hfound group).1 hgroup
      have hget := getD_attached lookup dense.leases found dense.numHitBlocks
        (mem_range.mp (mem_filter.mp hgroup).1)
      rw [hlookup] at hget
      rw [hget.1, hget.2]
      exact ⟨rfl, hspan.covers⟩

/-- The answers of two shards for a window of one block.  The second shard does not have the last of
the three blocks, so the lookup ends one block earlier. -/
def windowLog : List (QueryCall × QueryReply) :=
  [(memberCall (.groupSpan "a" 1 2 3) 1 1 0, .ready 1 [0] true),
    (memberCall (.groupSpan "a" 1 2 3) 1 1 1, .ready 0 [] false),
    (memberCall (.groupSpan "a" 1 0 3) 3 1 0, .ready 3 [0, 1, 2] true),
    (memberCall (.groupSpan "a" 1 0 3) 3 1 1, .ready 2 [0, 1] true),
    (denseCall (.denseShrunk "a" 2) 2 0, .ready 2 [] true),
    (denseCall (.denseShrunk "a" 2) 2 1, .ready 2 [] true),
    (memberCall (.groupSpan "a" 1 1 2) 1 1 0, .ready 1 [0] true),
    (memberCall (.groupSpan "a" 1 1 2) 1 1 1, .ready 1 [0] true)]

def windowStored : Stored where
  prefixBlocks _ := 3
  members _ shard := [[0, 1, 2], [0, 1]].getD shard []
  call lease := ((windowLog.filter fun e => e.2.leased).map Prod.fst).getD (lease - 2)
    (denseCall (.request "") 0 0)

theorem sliding_boundary_maximal_windowStored :
    let cfg := { smallLeaseConfig [⟨.dense, 1⟩, ⟨.sliding, 1⟩] 2 (by decide) with
      slidingWindowOf := fun _ => some 2 }
    let lookup : SlidingLookup ℕ := ⟨smallRequest "a" [10, 11, 12], 0⟩
    let ready : ShardedQueryReady := { numHitBlocks := 3, leases := [some 0, some 1] }
    let w : Ledger QueryCall QueryReply :=
      { handed := 2, replies := windowLog.map Prod.snd, released := [], log := [] }
    ∃ r, ((lookup.attachSlidingGroupQueries cfg [10, 11, 12] ready).run QueryReply.leased w).1 =
        .ok r ∧ r.numHitBlocks = 2 ∧
      IsGreatest {b | b ≤ 3 ∧ (b = 0 ∨ windowStored.Serves cfg lookup b)} 2 := by
  intro cfg lookup ready w
  obtain ⟨r, -, hr, hgreatest, -⟩ := sliding_boundary_maximal cfg windowStored lookup [10, 11, 12] 0
    (by decide +kernel) ready ⟨rfl, rfl, rfl, rfl, rfl⟩ (fun p hp => ⟨hp, fun _ _ => hp⟩) w
    (by decide) (by decide) windowLog (by decide +kernel)
    ⟨⟨nofun, by rintro _ ⟨⟩; exact ⟨true, rfl, fun _ => ⟨2, rfl, rfl⟩⟩⟩,
      ⟨nofun, by rintro _ ⟨⟩; exact ⟨false, rfl, fun h => absurd rfl h⟩⟩,
      ⟨nofun, by rintro _ ⟨⟩; exact ⟨true, rfl, fun _ => ⟨3, rfl, rfl⟩⟩⟩,
      ⟨nofun, by rintro _ ⟨⟩; exact ⟨true, rfl, fun _ => ⟨4, rfl, rfl⟩⟩⟩,
      ⟨fun _ => ⟨[], true, rfl, nofun⟩, nofun⟩, ⟨fun _ => ⟨[], true, rfl, nofun⟩, nofun⟩,
      ⟨nofun, by rintro _ ⟨⟩; exact ⟨true, rfl, fun _ => ⟨7, rfl, rfl⟩⟩⟩,
      ⟨nofun, by rintro _ ⟨⟩; exact ⟨true, rfl, fun _ => ⟨8, rfl, rfl⟩⟩⟩, trivial⟩
  have htwo : ((lookup.attachSlidingGroupQueries cfg [10, 11, 12] ready).run QueryReply.leased
      w).1.map ShardedQueryReady.numHitBlocks = .ok 2 := by decide +kernel
  rw [hr] at htwo
  have hblocks : r.numHitBlocks = 2 := Except.ok.inj htwo
  exact ⟨r, hr, hblocks, hblocks ▸ hgreatest⟩

end SlidingLookup

end Leases

end PegaFlow
