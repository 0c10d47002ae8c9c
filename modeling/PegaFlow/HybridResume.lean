/-
PegaFlow/HybridResume.lean

Where a hybrid model resumes (`connector/scheduler.py`, `connector/worker.py`).
-/
import Mathlib.Order.Bounds.Basic
import PegaFlow.FixedCache
import PegaFlow.LookupAllocation

namespace PegaFlow

open List Option

namespace Leases

variable {Hash : Type}

/-! ### Loads of the worker -/

/-- A load: a lease, and for every cache group the destinations of the leased blocks. -/
structure Load where
  lease : Option ℕ
  vectors : List (List (Option ℕ))
deriving DecidableEq, Repr, Inhabited

section Worker

variable (cfg : LeaseConfig Hash) (shard : ℕ) (reqId : String) (intent : LoadIntent)

/-- The load of one recurrent group: of the leased states only the checkpoint has a
destination. -/
def recurrentLoad (hold : RecurrentLoadHold) (group slot : ℕ) : Except String Load :=
  match hold.hitPositions[slot]?.bind (·[shard]?), hold.leases[slot]?.bind (·[shard]?) with
  | some positions, some lease =>
      if hold.checkpoint ∉ positions then
        .error (s!"req {reqId}: recurrent group {group} shard {shard} " ++
          s!"lease has no checkpoint at query position {hold.checkpoint}")
      else
        match (intent.blockIdsByGroup.getD group []).reverse.findSome? id with
        | none => .error (s!"req {reqId}: no recurrent destination block in group " ++
            s!"{group} for checkpoint {hold.checkpoint}")
        | some destination =>
            let unused := replicate positions.length none
            let row := unused.set (positions.idxOf hold.checkpoint) (some destination)
            let vectors := replicate cfg.cacheGroups.groupCount unused
            .ok { lease, vectors := vectors.set group row }
  | _, _ => .error "IndexError: tuple index out of range"

/-- The loads of an intent without leases per group, in `start_load_kv`. -/
def intentLoads : Except String (List Load) :=
  if intent.leases.length ≠ cfg.numShards then
    .error (s!"load intent has {intent.leases.length} TP shard leases; " ++
      s!"expected {cfg.numShards}")
  else
    let lease := intent.leases.getD shard none
    let recurrentGroups := cfg.cacheGroups.indicesOf .recurrent
    match intent.recurrentHold with
    | none => .ok [{ lease, vectors := intent.blockIdsByGroup }]
    | some hold => do
        -- the states travel with their own leases
        let vectors := intent.blockIdsByGroup.mapIdx fun group ids =>
          if group ∈ recurrentGroups then replicate ids.length none else ids
        let loads ← recurrentGroups.zipIdx.mapM fun e =>
          recurrentLoad cfg shard reqId intent hold e.1 e.2
        return { lease, vectors } :: loads

end Worker

/-- The load writes block `i` of its lease to a block of the group. -/
def Load.Writes (load : Load) (group i destination : ℕ) : Prop :=
  ∃ row, load.vectors[group]? = some row ∧ row[i]? = some (some destination)

/-! ### Hybrid lookups -/

variable {cfg : LeaseConfig Hash} {stored : Stored} {request : Request Hash}
  {computedBlocks tailTokens : ℕ} {reqId : String} {queryHashes : List Hash}

/-- Every recurrent group has the state on every shard. -/
def Stored.Common (stored : Stored) (cfg : LeaseConfig Hash) (p : ℕ) : Prop :=
  ∀ group ∈ cfg.cacheGroups.indicesOf .recurrent, ∀ shard < cfg.numShards,
    p ∈ stored.members (cfg.cacheGroups.storageGroupOf group) shard

/-- A hit that ends with block `p` leaves a token to compute. -/
def LeavesToken (cfg : LeaseConfig Hash) (request : Request Hash) (computedBlocks p : ℕ) : Prop :=
  (computedBlocks + p + 1) * cfg.ctx.virtualBlockSize < request.numTokens

/-- The checkpoints the request can resume at. -/
def resumable (cfg : LeaseConfig Hash) (stored : Stored) (request : Request Hash)
    (numHashes computedBlocks : ℕ) : Set ℕ :=
  { p | stored.InPrefix cfg.numShards numHashes p ∧ stored.Common cfg p ∧
    LeavesToken cfg request computedBlocks p }

/-- The query for the states of a storage group on a shard. -/
def stateQuery (reqId : String) (numHashes groupId shard : ℕ) : QueryCall :=
  { shard, id := .group reqId groupId, numHashes, groupId := some groupId }

/-- The states of a storage group, for all shards. -/
def stateHits (cfg : LeaseConfig Hash) (stored : Stored) (reqId : String) (numHashes groupId : ℕ) :
    List (List ℕ) :=
  (range cfg.numShards).map fun shard =>
    stored.found (stateQuery reqId numHashes groupId shard) groupId

theorem forall_mem_stateHits {numHashes p : ℕ} (hp : p < numHashes) (groupIds : List ℕ) :
    (∀ positions ∈ (groupIds.map (stateHits cfg stored reqId numHashes)).flatten, p ∈ positions) ↔
      ∀ groupId ∈ groupIds, ∀ shard < cfg.numShards, p ∈ stored.members groupId shard := by
  have hfound : ∀ groupId shard, p ∈ stored.found (stateQuery reqId numHashes groupId shard)
      groupId ↔ p ∈ stored.members groupId shard := by
    intro groupId shard
    rw [Stored.mem_found]
    show p < numHashes ∧ 0 + p ∈ stored.members groupId shard ↔ _
    rw [zero_add, and_iff_right hp]
  constructor
  · intro h groupId hgroup shard hshard
    exact (hfound groupId shard).mp (h _ (mem_flatten.mpr ⟨_, mem_map_of_mem hgroup,
      mem_map_of_mem (mem_range.mpr hshard)⟩))
  · intro h positions hmem
    obtain ⟨_, hhits, hmem⟩ := mem_flatten.mp hmem
    obtain ⟨groupId, hgroup, rfl⟩ := mem_map.mp hhits
    obtain ⟨shard, hshard, rfl⟩ := mem_map.mp hmem
    exact (hfound groupId shard).mpr (h groupId hgroup shard (mem_range.mp hshard))

/-- What a hybrid lookup returns: the leases of states on all shards, with every boundary that is
left, or no hit. -/
structure HybridHit (cfg : LeaseConfig Hash) (stored : Stored) (reqId : String) (numHashes : ℕ)
    (r : ShardedQueryReady) : Prop where
  le : r.numHitBlocks ≤ numHashes
  length_leases : r.leases.length = cfg.numShards
  leased : r.numHitBlocks ≠ 0 → none ∉ r.leases
  ungrouped : r.leasesByGroup = none ∧ r.blockRangesByGroup = none
  usable : ∀ p, p ∈ r.usablePositions ↔
    stored.InPrefix cfg.numShards numHashes p ∧ stored.Common cfg p
  lt : ∀ p ∈ r.usablePositions, p < r.numHitBlocks
  miss : r.recurrentHold = none → r.numHitBlocks = 0
  hold : ∀ hold, r.recurrentHold = some hold → ∃ perGroup,
    hold.leases = perGroup.map memberLeases ∧ hold.hitPositions = statePositions perGroup ∧
    GroupsFound stored.Answers cfg reqId numHashes perGroup

theorem HybridResult.hybridHit (hrecurrent : cfg.cacheGroups.has .recurrent = true)
    {blockHashes : List Hash} {id : QueryId} {ready r : ShardedQueryReady}
    (hready : QueryHit stored.Answers cfg id blockHashes.length ready)
    (h : HybridResult stored.Answers cfg reqId blockHashes ready r) :
    HybridHit cfg stored reqId blockHashes.length r := by
  -- the boundaries of `reconcileHybridHit`, for the states of all groups and shards
  let hits := ((cfg.cacheGroups.indicesOf .recurrent).map cfg.cacheGroups.storageGroupOf).map
    (stateHits cfg stored reqId blockHashes.length)
  have hpositions : ∀ {perGroup}, GroupsFound stored.Answers cfg reqId blockHashes.length perGroup →
      statePositions perGroup = hits := fun hfound =>
    map_eq_of_forall₂ hfound fun _ _ h => map_eq_of_forall₂ h fun _ _ h => h.finds.positions
  have hreach := hready.agree.lt_iff
  have hcommon : ∀ p, (p < ready.numHitBlocks ∧ ∀ positions ∈ hits.flatten, p ∈ positions) ↔
      stored.InPrefix cfg.numShards blockHashes.length p ∧ stored.Common cfg p := by
    intro p
    rw [hreach]
    refine and_congr_right fun hp => ?_
    rw [forall_mem_stateHits hp.1, List.forall_mem_map]
    rfl
  cases h with
  | empty hempty =>
    refine ⟨hready.le, hready.length_leases, hready.leased,
      ⟨hready.leasesByGroup, hready.blockRanges⟩, fun p => ?_, ?_, fun _ => hempty, ?_⟩
    · rw [← hcommon, hready.usable, hempty]
      exact ⟨fun h => absurd h not_mem_nil, fun h => absurd h.1 (Nat.not_lt_zero p)⟩
    · rw [hready.usable]
      rintro _ ⟨⟩
    · rw [hready.recurrentHold]
      rintro _ ⟨⟩
  | noBoundary groups hhit =>
    rw [hpositions groups] at hhit
    have hne : hits.flatten ≠ [] := by
      obtain ⟨group, hgroup, hkind⟩ := any_eq_true.mp hrecurrent
      obtain ⟨i, hi⟩ := getElem?_of_mem hgroup
      have hmem : i ∈ cfg.cacheGroups.indicesOf .recurrent :=
        mem_filter.mpr ⟨mem_range.mpr (List.getElem?_eq_some_iff.mp hi).1,
          by simpa [hi] using hkind⟩
      exact ne_nil_of_mem (mem_flatten.mpr ⟨_, mem_map_of_mem (mem_map_of_mem hmem),
        mem_map_of_mem (mem_range.mpr cfg.numShards_pos)⟩)
    exact ⟨Nat.zero_le _, by simp [noHit, hready.length_leases], fun h => absurd rfl h,
      ⟨rfl, rfl⟩, fun p => ⟨by rintro ⟨⟩, fun h =>
        absurd ((hcommon p).mpr h) (reconcileHybridHit_none hne hhit p)⟩,
      by rintro _ ⟨⟩, fun _ => rfl, by rintro _ ⟨⟩⟩
  | lost groups hhit hlost =>
    -- the shorter prefix is still there
    rcases hlost with hwaits | ⟨exact, hexact, hne⟩
    · exact absurd hwaits not_waits_stored
    · refine absurd (eq_of_forall_lt_iff fun p => ?_) hne
      rw [hexact.agree.lt_iff, Stored.InPrefix, length_take, Nat.lt_min, and_assoc]
      exact and_iff_left_of_imp fun hp =>
        (hreach p).mp (hp.trans_le (reconcileHybridHit_le hhit))
  | @hit perGroup _ _ _ _ _ groups hhit hdense =>
    rw [hpositions groups] at hhit
    obtain ⟨hsame, hmem, hle, husable⟩ := reconcileHybridHit_some hhit
    refine ⟨(reconcileHybridHit_le hhit).trans hready.le, hdense.length_leases, hdense.leased,
      ⟨rfl, rfl⟩, fun p => (husable p).trans (hcommon p), fun p hp => ?_, by rintro ⟨⟩, ?_⟩
    · exact hsame ▸ Nat.lt_succ_of_le (hle p hp)
    · rintro _ ⟨⟩
      exact ⟨perGroup, rfl, rfl, groups⟩

theorem countAvailableBlockPrefix_hybrid (hrecurrent : cfg.cacheGroups.has .recurrent)
    (hquery : cfg.buildQuery request computedBlocks = .ok (queryHashes, tailTokens))
    {w : Ledger QueryCall QueryReply} {log : List (QueryCall × QueryReply)}
    (hlog : ((countAvailableBlockPrefix cfg request computedBlocks queryHashes).run
      QueryReply.leased w).2.log = w.log ++ log)
    (hanswers : Prog.Answered QueryReply.leased stored.Answers w.handed log) :
    ∃ r, ((countAvailableBlockPrefix cfg request computedBlocks queryHashes).run
      QueryReply.leased w).1 = .ok (some r) ∧
        HybridHit cfg stored request.requestId queryHashes.length r := by
  obtain ⟨hashes, hhashes, -⟩ := bind_ok hquery
  obtain ⟨-, -, B, -, hret, -⟩ := (countAvailableBlockPrefix_keeps (raises_stored hhashes)
    computedBlocks queryHashes).run nodup_nil (by simp) hlog hanswers
  generalize ((countAvailableBlockPrefix cfg request computedBlocks queryHashes).run
    QueryReply.leased w).1 = result at hret ⊢
  rcases result with e | o
  · exact hret.2.elim
  · obtain ⟨-, ⟨rfl, hwaits⟩ | ⟨ready, r, rfl, hready, hresult⟩⟩ := hret
    · exact absurd hwaits not_waits_stored
    · cases hresult with
      | hybrid _ h => exact ⟨r, rfl, h.hybridHit hrecurrent hready⟩
      | sliding hno => exact absurd hrecurrent hno
      | dense hno => exact absurd hrecurrent hno

/-! ### The end of the lookup -/

theorem lt_boundary_iff {vbs n computed tokens p : ℕ} (hvbs : 0 < vbs) :
    (p : ℤ) < min (((n : ℤ) - 1) * vbs + vbs) (max 0 ((tokens : ℤ) - computed * vbs - 1)) / vbs ↔
      p < n ∧ (computed + p + 1) * vbs < tokens := by
  have hpos : (0 : ℤ) < vbs := by exact_mod_cast hvbs
  have hblocks : ((p : ℤ) + 1) * vbs ≤ ((n : ℤ) - 1) * vbs + vbs ↔ p < n := by
    rw [Int.sub_mul, Int.one_mul, Int.sub_add_cancel, Int.mul_le_mul_iff_of_pos_right hpos]
    omega
  have htokens : ((p : ℤ) + 1) * vbs ≤ max 0 ((tokens : ℤ) - computed * vbs - 1) ↔
      (computed + p + 1) * vbs < tokens := by
    have hmul : (computed + p + 1) * vbs = computed * vbs + p.succ * vbs := by
      rw [Nat.add_assoc, Nat.add_mul]
    have hone : 0 < p.succ * vbs := Nat.mul_pos (Nat.succ_pos p) hvbs
    rw [← Int.natCast_succ]
    omega
  rw [← Int.add_one_le_iff, Int.le_ediv_iff_mul_le hpos, le_min_iff, hblocks, htokens]

variable {s : Connector Hash} {probe : QueryProbe Hash} {r : ShardedQueryReady}
  {hold : RecurrentLoadHold} {intent : LoadIntent}

theorem finishCacheLookup_hybrid (cfg : LeaseConfig Hash) (s : Connector Hash)
    (request : Request Hash) (probe : QueryProbe Hash) (hresult : probe.result = some r)
    (hhold : r.recurrentHold = some hold) (htail : probe.tailTokens = 0)
    (hlt : ∀ p ∈ r.usablePositions, LeavesToken cfg request probe.computedBlocks p →
      p < r.numHitBlocks) :
    ((∀ p ∈ r.usablePositions, ¬ LeavesToken cfg request probe.computedBlocks p) →
      (s.finishCacheLookup cfg request probe).1 = .ok (some 0, false)) ∧
    ∀ c, IsGreatest { p | p ∈ r.usablePositions ∧ LeavesToken cfg request probe.computedBlocks p }
        c → s.finishCacheLookup cfg request probe =
      (.ok (some ((c + 1) * cfg.ctx.virtualBlockSize), true),
        s.setProbe request.requestId { probe with result := some { r with
          numHitBlocks := c + 1, recurrentHold := some { hold with checkpoint := c } } }) := by
  have hvbs := cfg.ctx.virtualBlockSize_pos
  unfold Connector.finishCacheLookup
  simp only [hresult, hitTokens, ConnectorContext.hitTokens, ConnectorContext.lastCheckpoint, htail,
    lt_irrefl, false_and, if_false, hhold]
  generalize hl : filter _ r.usablePositions = left
  have hmem : ∀ p, p ∈ left ↔
      p ∈ r.usablePositions ∧ LeavesToken cfg request probe.computedBlocks p := by
    intro p
    rw [← hl, mem_filter, decide_eq_true_eq, lt_boundary_iff hvbs]
    exact ⟨fun h => ⟨h.1, h.2.2⟩, fun h => ⟨h.1, hlt p h.1 h.2, h.2⟩⟩
  constructor
  · intro hno
    have hnil : left = [] :=
      eq_nil_iff_forall_not_mem.mpr fun p hp => hno p ((hmem p).mp hp).1 ((hmem p).mp hp).2
    rw [hnil]
    rfl
  · intro c hc
    have hmax : left.max? = some c :=
      max?_eq_some_iff.mpr ⟨(hmem c).mpr hc.1, fun p hp => hc.2 ((hmem p).mp hp)⟩
    have htokens : ¬ (((c : ℕ) : ℤ) + 1) * cfg.ctx.virtualBlockSize ≤ 0 :=
      Int.not_le.mpr (Int.mul_pos (by omega) (by exact_mod_cast hvbs))
    rw [hmax]
    exact if_neg htokens

/-! ### What the worker loads -/

theorem findSome_groupDestinations {start c leased group : ℕ} {ids : List ℕ}
    (hkind : kindOf cfg group = some .recurrent) (hlen : start + (c + 1) ≤ ids.length) :
    (groupDestinations cfg start (c + 1) leased none ids group).reverse.findSome? id =
      ids[start + c]? := by
  have hlast : ((ids.take (start + (c + 1))).drop start).drop c = [ids[start + c]] := by
    rw [drop_drop, drop_eq_getElem_cons (by rw [length_take]; omega),
      drop_of_length_le (by rw [length_take]; omega), getElem_take]
  have hcount : ((ids.take (start + (c + 1))).drop start).length - 1 = c := by
    rw [length_drop, length_take]
    omega
  unfold groupDestinations
  dsimp only [loadRange]
  rw [if_neg (by rw [hkind]; exact nofun), if_pos hkind, length_map, hcount, ← map_drop, hlast]
  simp

theorem writes_iff {n k group i₀ d₀ g i d : ℕ} (hgroup : group < n) (hi : i₀ < k)
    (lease : Option ℕ) :
    let row := (replicate k none).set i₀ (some d₀)
    ({ lease, vectors := (replicate n (replicate k none)).set group row } : Load).Writes
      g i d ↔ g = group ∧ i = i₀ ∧ d = d₀ := by
  unfold Load.Writes
  dsimp only
  rw [getElem?_set]
  split
  · next heq =>
    subst heq
    rw [if_pos (by simpa using hgroup)]
    simp only [some.injEq, exists_eq_left', true_and]
    rw [getElem?_set]
    split
    · next heq =>
      subst heq
      simp [hi, eq_comm]
    · next hne => simp [getElem?_replicate, Ne.symm hne]
  · next hne =>
    refine ⟨?_, fun h => absurd h.1.symm hne⟩
    rintro ⟨row, hrow, hsome⟩
    simp only [getElem?_replicate, ite_none_right_eq_some] at hrow
    simp [← some.inj hrow.2, getElem?_replicate] at hsome

theorem recurrentLoad_ok {shard slot group : ℕ} {states : List Membership} {m : Membership}
    {perGroup : List (List Membership)} {destination : ℕ} (reqId : String)
    (hleases : hold.leases = perGroup.map memberLeases)
    (hpositions : hold.hitPositions = statePositions perGroup)
    (hstates : perGroup[slot]? = some states) (hm : states[shard]? = some m)
    (hmem : hold.checkpoint ∈ m.positions)
    (hdestination : (intent.blockIdsByGroup.getD group []).reverse.findSome? id =
      some destination) :
    recurrentLoad cfg shard reqId intent hold group slot = .ok
      { lease := m.lease
        vectors := (replicate cfg.cacheGroups.groupCount
          (replicate m.positions.length none)).set group
            ((replicate m.positions.length none).set (m.positions.idxOf hold.checkpoint)
              (some destination)) } := by
  have hgetp : hold.hitPositions[slot]?.bind (·[shard]?) = some m.positions := by
    simp [hpositions, hstates, hm]
  have hgetl : hold.leases[slot]?.bind (·[shard]?) = some m.lease := by
    simp [hleases, memberLeases, hstates, hm]
  unfold recurrentLoad
  rw [hgetp, hgetl]
  dsimp only
  rw [if_neg (not_not.mpr hmem), hdestination]

/-- The worker loads one state for each recurrent group: the checkpoint, from the lease of the
group on its shard, to the given block. -/
def LoadsCheckpoint (cfg : LeaseConfig Hash) (stored : Stored) (reqId : String)
    (numHashes c shard : ℕ) (destination : ℕ → ℕ) (loads : List Load) : Prop :=
  ∀ group ∈ cfg.cacheGroups.indicesOf .recurrent,
    let storageGroup := cfg.cacheGroups.storageGroupOf group
    let states := stateQuery reqId numHashes storageGroup shard
    ∃ lease i, stored.call lease = states ∧ (stored.found states storageGroup)[i]? = some c ∧
      ∀ lease' i' d, (∃ load ∈ loads, load.lease = lease' ∧ load.Writes group i' d) ↔
        lease' = some lease ∧ i' = i ∧ d = destination group

theorem intentLoads_hybrid {numHashes shard : ℕ} {destination : ℕ → ℕ}
    (hhit : HybridHit cfg stored reqId numHashes r) (hleases : intent.leases = r.leases)
    (hhold : intent.recurrentHold = some hold)
    (hold' : ∃ c, r.recurrentHold = some { hold with checkpoint := c })
    (hc : hold.checkpoint < numHashes) (hcommon : stored.Common cfg hold.checkpoint)
    (hdestination : ∀ group ∈ cfg.cacheGroups.indicesOf .recurrent,
      (intent.blockIdsByGroup.getD group []).reverse.findSome? id = some (destination group))
    (hshard : shard < cfg.numShards) :
    ∃ loads, intentLoads cfg shard reqId intent = .ok loads ∧
      LoadsCheckpoint cfg stored reqId numHashes hold.checkpoint shard destination loads := by
  obtain ⟨c', hold'⟩ := hold'
  obtain ⟨perGroup, hlease, hpositions, hfound⟩ := hhit.hold _ hold'
  -- the states of the group in each slot hold the checkpoint
  have hround : ∀ e : ℕ × ℕ, e ∈ (cfg.cacheGroups.indicesOf .recurrent).zipIdx →
      ∃ load lease i, recurrentLoad cfg shard reqId intent hold e.1 e.2 = .ok load ∧
        load.lease = some lease ∧
        stored.call lease =
          stateQuery reqId numHashes (cfg.cacheGroups.storageGroupOf e.1) shard ∧
        (stored.found (stateQuery reqId numHashes (cfg.cacheGroups.storageGroupOf e.1) shard)
          (cfg.cacheGroups.storageGroupOf e.1))[i]? = some hold.checkpoint ∧
        ∀ g i' d, load.Writes g i' d ↔ g = e.1 ∧ i' = i ∧ d = destination e.1 := by
    rintro ⟨group, slot⟩ he
    have hslot := mem_zipIdx_iff_getElem?.mp he
    have hgroup := mem_of_getElem? hslot
    obtain ⟨states, hstates, hshards⟩ := forall₂_getElem? (forall₂_map_left_iff.mp hfound) hslot
    obtain ⟨m, hm, haccepted⟩ := forall₂_getElem? hshards
      (List.getElem?_eq_some_iff.mpr ⟨by simpa using hshard, getElem_range _⟩)
    have hfinds : stored.Finds (stateQuery reqId numHashes
      (cfg.cacheGroups.storageGroupOf group) shard) _ m := haccepted.finds
    have hmem : hold.checkpoint ∈ m.positions := by
      rw [hfinds.positions, Stored.mem_found]
      refine ⟨hc, ?_⟩
      show 0 + hold.checkpoint ∈ _
      rw [Nat.zero_add]
      exact hcommon group hgroup shard hshard
    obtain ⟨lease, hlease', hcall⟩ := hfinds.lease (ne_nil_of_mem hmem)
    have hlt := idxOf_lt_length_iff.mpr hmem
    refine ⟨_, lease, m.positions.idxOf hold.checkpoint, recurrentLoad_ok reqId hlease hpositions
      hstates hm hmem (hdestination group hgroup), hlease', hcall, ?_, fun g i' d => writes_iff
        (mem_range.mp (mem_filter.mp hgroup).1) hlt _⟩
    rw [← hfinds.positions, getElem?_eq_getElem hlt, getElem_idxOf]
  choose! load lease i hload hlease' hcall hi hwrites using hround
  refine ⟨?_, ?_, ?_⟩
  rotate_left
  · unfold intentLoads
    rw [if_neg (not_not.mpr (hleases ▸ hhit.length_leases)), hhold]
    dsimp only
    rw [mapM_eq_ok hload]
    rfl
  · intro group hgroup
    obtain ⟨slot, hslot⟩ := getElem?_of_mem hgroup
    have he : (group, slot) ∈ (cfg.cacheGroups.indicesOf .recurrent).zipIdx :=
      mem_zipIdx_iff_getElem?.mpr hslot
    refine ⟨lease (group, slot), i (group, slot), hcall _ he, hi _ he, fun lease₁ i₁ d => ⟨?_, ?_⟩⟩
    · rintro ⟨load₁, hmem, rfl, hw⟩
      rcases mem_cons.mp hmem with rfl | hmem
      · -- the prefix load has no destinations for the states
        obtain ⟨row, hrow, hsome⟩ := hw
        simp only [getElem?_mapIdx, map_eq_some_iff, if_pos hgroup] at hrow
        obtain ⟨ids, -, rfl⟩ := hrow
        simp [getElem?_replicate] at hsome
      · obtain ⟨⟨group', slot'⟩, he', rfl⟩ := mem_map.mp hmem
        obtain ⟨rfl, rfl, rfl⟩ := (hwrites _ he' _ _ _).mp hw
        have hslot' := mem_zipIdx_iff_getElem?.mp he'
        obtain rfl : slot = slot' := (getElem?_inj (List.getElem?_eq_some_iff.mp hslot).1
          (nodup_range.filter _)).mp (hslot.trans hslot'.symm)
        exact ⟨hlease' _ he, rfl, rfl⟩
    · rintro ⟨rfl, rfl, rfl⟩
      exact ⟨load (group, slot), mem_cons_of_mem _ (mem_map_of_mem he), hlease' _ he,
        (hwrites _ he _ _ _).mpr ⟨rfl, rfl, rfl⟩⟩

/-! ### One request -/

theorem destination_of_load {tables : List (List (ℕ × Bool))} {start c leased group : ℕ}
    {vectors : List (List (Option ℕ))} (htables : tables.length = cfg.cacheGroups.groupCount)
    (hload : loadBlockIdsByGroup cfg (tables.map fun group => group.map Prod.fst) start (c + 1)
      leased none = .ok vectors) (hgroup : group ∈ cfg.cacheGroups.indicesOf .recurrent) :
    ∃ d, (tables.getD group [])[start + c]?.map Prod.fst = some d ∧
      (vectors.getD group []).reverse.findSome? id = some d := by
  obtain ⟨hlt, hkind⟩ := SlidingLookup.mem_indicesOf.mp hgroup
  rw [← htables] at hlt
  have hlen : start + c < ((tables.getD group []).map Prod.fst).length := by
    rw [length_map]
    exact long_of_loadBlockIdsByGroup cfg hload hlt
      fun hscratch => by cases hkind.symm.trans hscratch
  obtain ⟨-, hload⟩ := ite_error_ok hload
  obtain ⟨-, ⟨⟩⟩ := ite_error_ok hload
  refine ⟨((tables.getD group []).map Prod.fst)[start + c], ?_, ?_⟩
  · rw [← getElem?_map, getElem?_eq_getElem hlen]
  · rw [getD_eq_getElem?_getD, getElem?_map, getElem?_zipIdx, getElem?_ids hlt, map_some, map_some,
      zero_add]
    exact (findSome_groupDestinations hkind hlen).trans (getElem?_eq_getElem hlen)

/-- Tables for a load of `c + 1` blocks behind the computed ones. -/
structure TablesFor (cfg : LeaseConfig Hash) (computedBlocks c : ℕ)
    (tables : List (List (ℕ × Bool))) : Prop where
  groups : tables.length = cfg.cacheGroups.groupCount
  computed : (tables.getD cfg.cacheGroups.hashGroupIndex []).countP Prod.snd = computedBlocks
  long : ∀ group < cfg.cacheGroups.groupCount, kindOf cfg group ≠ some .scratch →
    computedBlocks + (c + 1) ≤ (tables.getD group []).length

/-- The allocation of a hit that ends at checkpoint `c` leaves an intent, and the loads of the
intent write this checkpoint for each recurrent group to the block at its end. -/
def ResumesAt [DecidableEq Hash] (cfg : LeaseConfig Hash) (stored : Stored)
    (request : Request Hash) (numHashes computedBlocks c : ℕ) (tables : List (List (ℕ × Bool)))
    (s : Connector Hash) : Prop :=
  ∃ intent destination, s.updateStateAfterAlloc cfg request (some tables)
      ((c + 1) * cfg.ctx.virtualBlockSize) = (.ok (), { s with
        pendingLoadIntents := s.pendingLoadIntents.insert request.requestId intent
        pendingQueryProbes := s.pendingQueryProbes.erase request.requestId }) ∧
    (∀ group ∈ cfg.cacheGroups.indicesOf .recurrent,
      (tables.getD group [])[computedBlocks + c]?.map Prod.fst = some (destination group)) ∧
    ∀ shard < cfg.numShards, ∃ loads,
      intentLoads cfg shard request.requestId intent = .ok loads ∧
      LoadsCheckpoint cfg stored request.requestId numHashes c shard destination loads

theorem resumesAt_of_probe [DecidableEq Hash] {c : ℕ} {tables : List (List (ℕ × Bool))}
    (hhit : HybridHit cfg stored request.requestId queryHashes.length r)
    (hhold : r.recurrentHold = some hold) (hc : c < r.numHitBlocks)
    (hcommon : stored.Common cfg c)
    (hquery : cfg.buildQuery request computedBlocks = .ok (queryHashes, 0))
    (hlookup : s.pendingQueryProbes.lookup request.requestId = some
      { computedBlocks, queryHashes, tailTokens := 0, leasedBlocks := r.numHitBlocks
        result := some { r with
          numHitBlocks := c + 1, recurrentHold := some { hold with checkpoint := c } } })
    (htables : TablesFor cfg computedBlocks c tables) :
    ResumesAt cfg stored request queryHashes.length computedBlocks c tables s := by
  have hvbs := cfg.ctx.virtualBlockSize_pos
  have hblocks : ((c + 1) * cfg.ctx.virtualBlockSize + cfg.ctx.virtualBlockSize - 1) /
      cfg.ctx.virtualBlockSize = c + 1 := (roundUp_eq_iff hvbs).mpr ⟨by omega, le_refl _⟩
  have hleases : r.leases ≠ [] := by
    rw [← length_pos_iff, hhit.length_leases]
    exact cfg.numShards_pos
  obtain ⟨vectors, hload, -⟩ : ∃ vectors, loadBlockIdsByGroup cfg
      (tables.map fun group => group.map Prod.fst) computedBlocks (c + 1) r.numHitBlocks none =
        .ok vectors ∧ _ :=
    loadBlockIdsByGroup_ok cfg hc fun group hgroup => htables.long group (htables.groups ▸ hgroup)
  have hupdate := updateStateAfterAlloc_eq hlookup rfl hquery
    ⟨hleases, hhit.leased (Nat.ne_zero_of_lt hc)⟩ (Nat.mul_pos (Nat.succ_pos c) hvbs).ne'
    htables.groups htables.computed hblocks
  simp only [hhit.ungrouped.2, hload] at hupdate
  choose! destination htable hdestination using
    fun group => @destination_of_load _ _ _ _ _ _ group _ htables.groups hload
  refine ⟨_, destination, hupdate, htable, fun shard hshard => ?_⟩
  exact intentLoads_hybrid hhit rfl (show _ = some { hold with checkpoint := c } from rfl)
    ⟨hold.checkpoint, hhold⟩ (hc.trans_le hhit.le) hcommon hdestination hshard

theorem tailTokens_eq_zero (hrecurrent : cfg.cacheGroups.has .recurrent)
    (hquery : cfg.buildQuery request computedBlocks = .ok (queryHashes, tailTokens)) :
    tailTokens = 0 := by
  have hload : cfg.tailLoadEnabled = false := by
    by_contra hon
    rw [Bool.not_eq_false] at hon
    cases hrecurrent.symm.trans (cfg.tail_dense (by rw [hon, Bool.or_true])).1
  obtain ⟨hashes, -, hquery⟩ := bind_ok hquery
  rw [hload] at hquery
  cases hquery
  rfl

section Polls

variable [DecidableEq Hash] {n : ℕ} {queryHashes : List Hash}

theorem getNumNewMatchedTokens_ready (hread : cfg.ctx.readEnabled)
    (hquery : cfg.buildQuery request (n / cfg.ctx.virtualBlockSize) = .ok (queryHashes, 0))
    (hne : queryHashes ≠ []) (hprobe : probe.computedBlocks = n / cfg.ctx.virtualBlockSize ∧
      probe.queryHashes = queryHashes ∧ probe.tailTokens = 0) (hresult : probe.result = some r)
    (hlookup : s.pendingQueryProbes.lookup request.requestId = some probe) :
    s.getNumNewMatchedTokens cfg request n = s.finishCacheLookup cfg request probe := by
  have hmatch : probe.matchesQuery (n / cfg.ctx.virtualBlockSize) queryHashes 0 :=
    decide_eq_true hprobe
  unfold Connector.getNumNewMatchedTokens
  simp only [hread, hquery, if_neg hne, hlookup, hresult, hmatch, reduceCtorEq, Bool.not_true,
    Bool.false_eq_true, if_false, if_true]

theorem getNumNewMatchedTokens_first (hread : cfg.ctx.readEnabled)
    (hquery : cfg.buildQuery request (n / cfg.ctx.virtualBlockSize) = .ok (queryHashes, 0))
    (hne : queryHashes ≠ []) (hfirst : s.pendingQueryProbes.lookup request.requestId = none)
    (hrun : ((countAvailableBlockPrefix cfg request (n / cfg.ctx.virtualBlockSize) queryHashes).run
      QueryReply.leased s.ledger).1 = .ok (some r)) (hle : r.numHitBlocks ≤ queryHashes.length) :
    ∃ s₁ : Connector Hash, s.getNumNewMatchedTokens cfg request n =
      s₁.finishCacheLookup cfg request
        { computedBlocks := n / cfg.ctx.virtualBlockSize, queryHashes, tailTokens := 0
          result := some r, leasedBlocks := r.numHitBlocks } := by
  rcases hw : (countAvailableBlockPrefix cfg request (n / cfg.ctx.virtualBlockSize) queryHashes).run
    QueryReply.leased s.ledger with ⟨result, w⟩
  rw [hw] at hrun
  obtain rfl : result = _ := hrun
  refine ⟨?_, ?_⟩
  rotate_left
  · unfold Connector.getNumNewMatchedTokens Connector.askBackend Connector.runFor
    simp only [hread, hquery, if_neg hne, hfirst, getD_none, hw, Bool.not_true,
      Bool.false_eq_true, if_false, QueryProbe.matchesQuery, and_self, decide_true]
    unfold Connector.accept QueryProbe.markReady
    rw [if_neg (not_lt.mpr hle)]

end Polls

/-- **The resume point of a hybrid model.**  For a cache that does not change, a first lookup
returns the last checkpoint that lies in the prefix of all shards, that every recurrent group has on
every shard, and that leaves a token to compute, or nothing if there is none.  The probe it leaves
gives the same answer again, and the allocation of these tokens makes of it an intent whose loads
write exactly this checkpoint for each recurrent group, to the block at its end. -/
theorem hybrid_resume_point [DecidableEq Hash] (cfg : LeaseConfig Hash)
    (hrecurrent : cfg.cacheGroups.has .recurrent = true) (hread : cfg.ctx.readEnabled = true)
    (stored : Stored) (s : Connector Hash) (request : Request Hash) (numComputedTokens : ℕ)
    (queryHashes : List Hash) (tailTokens : ℕ)
    (hquery : cfg.buildQuery request (numComputedTokens / cfg.ctx.virtualBlockSize) =
      .ok (queryHashes, tailTokens)) (hfirst : s.pendingQueryProbes.lookup request.requestId = none)
    (log : List (QueryCall × QueryReply)) (hlog : ((countAvailableBlockPrefix cfg request
      (numComputedTokens / cfg.ctx.virtualBlockSize) queryHashes).run
        QueryReply.leased s.ledger).2.log = s.ledger.log ++ log)
    (hanswers : Prog.Answered QueryReply.leased stored.Answers s.ledger.handed log) :
    let computedBlocks := numComputedTokens / cfg.ctx.virtualBlockSize
    let points := resumable cfg stored request queryHashes.length computedBlocks
    let polled := s.getNumNewMatchedTokens cfg request numComputedTokens
    (points = ∅ → polled.1 = .ok (some 0, false)) ∧
    ∀ c, IsGreatest points c →
      let answer := Except.ok (some (((c : ℤ) + 1) * cfg.ctx.virtualBlockSize), true)
      polled.1 = answer ∧
      ∃ probe, polled.2.pendingQueryProbes.lookup request.requestId = some probe ∧
        ∀ s' : Connector Hash, s'.pendingQueryProbes.lookup request.requestId = some probe →
          (s'.getNumNewMatchedTokens cfg request numComputedTokens).1 = answer ∧
          (s'.getNumNewMatchedTokens cfg request numComputedTokens).2.pendingQueryProbes.lookup
            request.requestId = some probe ∧
          ∀ tables, TablesFor cfg computedBlocks c tables →
            ResumesAt cfg stored request queryHashes.length computedBlocks c tables s' := by
  intro computedBlocks points polled
  obtain rfl := tailTokens_eq_zero hrecurrent hquery
  by_cases hne : queryHashes = []
  · -- there is nothing to ask for
    refine ⟨fun _ => ?_, fun c hc => absurd hc.1.1.1 (by simp [hne])⟩
    simp [polled, Connector.getNumNewMatchedTokens, hread, hquery, hne]
  obtain ⟨r, hrun, hhit⟩ := countAvailableBlockPrefix_hybrid hrecurrent hquery hlog hanswers
  obtain ⟨s₁, hpoll⟩ := getNumNewMatchedTokens_first hread hquery hne hfirst hrun hhit.le
  rw [show polled = _ from hpoll]
  have hpoints : { p | p ∈ r.usablePositions ∧ LeavesToken cfg request computedBlocks p } =
      points := by
    ext p
    exact (and_congr_left' (hhit.usable p)).trans and_assoc
  cases hhold : r.recurrentHold with
  | none =>
    have hmiss := hhit.miss hhold
    refine ⟨fun _ => ?_, fun c hc => absurd (hhit.lt c ((hhit.usable c).mpr ⟨hc.1.1, hc.1.2.1⟩))
      (by rw [hmiss]; exact Nat.not_lt_zero c)⟩
    simp [Connector.finishCacheLookup, Connector.settle, hitTokens, ConnectorContext.hitTokens,
      hhold, hmiss]
  | some hold =>
    have hends := finishCacheLookup_hybrid cfg s₁ request
      { computedBlocks, queryHashes, tailTokens := 0, result := some r
        leasedBlocks := r.numHitBlocks } rfl hhold rfl fun p hp _ => hhit.lt p hp
    refine ⟨fun hempty => hends.1 fun p hp hleaves => ?_, fun c hc => ?_⟩
    · have hmem : p ∈ points := hpoints ▸ ⟨hp, hleaves⟩
      exact Set.notMem_empty p (hempty ▸ hmem)
    have hgreatest := hpoints ▸ hc
    -- with the probe ending at the checkpoint, the same boundary is found again
    let probe : QueryProbe Hash :=
      { computedBlocks, queryHashes, tailTokens := 0, leasedBlocks := r.numHitBlocks
        result := some { r with
          numHitBlocks := c + 1, recurrentHold := some { hold with checkpoint := c } } }
    have hagain : ∀ s', _ := fun s' => (finishCacheLookup_hybrid cfg s' request probe rfl rfl rfl
      fun p hp hleaves => Nat.lt_succ_of_le (hgreatest.2 ⟨hp, hleaves⟩)).2 c hgreatest
    rw [hends.2 c hgreatest]
    refine ⟨rfl, probe, AList.lookup_insert _, fun s' hs' => ?_⟩
    rw [getNumNewMatchedTokens_ready hread hquery hne ⟨rfl, rfl, rfl⟩ rfl hs', hagain]
    exact ⟨rfl, AList.lookup_insert _, fun tables => resumesAt_of_probe hhit hhold
      (hhit.lt c hgreatest.1.1) hc.1.2.1 hquery hs'⟩

/-- Two shards with prefixes of three and two blocks; both have the state after the second. -/
def secondState : Stored where
  prefixBlocks shard := [3, 2].getD shard 0
  members _ shard := [[0, 1, 2], [1]].getD shard []
  call lease := stateQuery "a" 3 1 (lease - 3)

/-- The answers of the shards: the prefix, the common prefix and the states. -/
def secondStateLog : List (QueryCall × QueryReply) :=
  [({ shard := 0, id := .request "a", numHashes := 3, groupId := none }, .ready 3 [] true),
    ({ shard := 1, id := .request "a", numHashes := 3, groupId := none }, .ready 2 [] true),
    ({ shard := 0, id := .tpCommon (.request "a") 2, numHashes := 2, groupId := none },
      .ready 2 [] true),
    (stateQuery "a" 3 1 0, .ready 3 [0, 1, 2] true), (stateQuery "a" 3 1 1, .ready 1 [1] true)]

/-- Two tokens are offered.  The allocation of two blocks in both groups is an intent that loads
the second state into the second block of the recurrent group, on both shards. -/
theorem hybrid_resume_point_secondState :
    let cfg := smallLeaseConfig [⟨.dense, 1⟩, ⟨.recurrent, 1⟩] 2 (by decide)
    let request := smallRequest "a" [10, 11, 12]
    let polled := (Connector.init.withReplies (secondStateLog.map Prod.snd)).getNumNewMatchedTokens
      cfg request 0
    polled.1 = .ok (some 2, true) ∧ ∃ intent destination,
      (polled.2.updateStateAfterAlloc cfg request
        (some [[(5, false), (6, false)], [(7, false), (8, false)]]) 2).2.pendingLoadIntents.lookup
          "a" = some intent ∧ destination 1 = 8 ∧ ∀ shard < 2, ∃ loads,
        intentLoads cfg shard "a" intent = .ok loads ∧
        LoadsCheckpoint cfg secondState "a" 3 1 shard destination loads := by
  intro cfg request polled
  have hgreatest : IsGreatest (resumable cfg secondState request 3 0) 1 :=
    ⟨⟨⟨by decide, by decide⟩, by unfold Stored.Common; decide, by unfold LeavesToken; decide⟩,
      fun p hp => Nat.le_of_lt_succ (hp.1.2 1 (by decide))⟩
  have hanswers : Prog.Answered QueryReply.leased secondState.Answers 0 secondStateLog := by
    refine ⟨?_, ?_, ?_, ?_, ?_, trivial⟩
    · exact ⟨fun _ => ⟨[], true, rfl, nofun⟩, nofun⟩
    · exact ⟨fun _ => ⟨[], true, rfl, nofun⟩, nofun⟩
    · exact ⟨fun _ => ⟨[], true, rfl, nofun⟩, nofun⟩
    · exact ⟨nofun, by rintro _ ⟨⟩; exact ⟨true, rfl, fun _ => ⟨3, rfl, rfl⟩⟩⟩
    · exact ⟨nofun, by rintro _ ⟨⟩; exact ⟨true, rfl, fun _ => ⟨4, rfl, rfl⟩⟩⟩
  obtain ⟨hanswer, probe, hprobe, hthen⟩ := (hybrid_resume_point cfg (by decide) rfl secondState
    (Connector.init.withReplies (secondStateLog.map Prod.snd)) request 0 [10, 11, 12] 0
    (by decide +kernel) rfl secondStateLog (by decide +kernel) hanswers).2 1
    (by rwa [Nat.zero_div])
  obtain ⟨-, -, halloc⟩ := hthen polled.2 hprobe
  rw [Nat.zero_div] at halloc
  obtain ⟨intent, destination, hupdate, htable, hloads⟩ := halloc
    [[(5, false), (6, false)], [(7, false), (8, false)]] ⟨rfl, rfl, by unfold kindOf; decide⟩
  refine ⟨hanswer, intent, destination, ?_, (some.inj (htable 1 (by decide))).symm, hloads⟩
  rw [show (1 + 1) * cfg.ctx.virtualBlockSize = 2 from rfl] at hupdate
  rw [hupdate]
  exact AList.lookup_insert _

end Leases

end PegaFlow
