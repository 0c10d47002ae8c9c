/-
PegaFlow/LeaseLookups.lean

Leases of cache lookups (`connector/scheduler.py`).

A lookup (`countAvailableBlockPrefix`) asks for the attention prefix.  With recurrent groups it
also asks which of their states are stored and, if these end earlier, asks again for the shorter
prefix (`reconcileHybrid`); with sliding-window groups it looks for the latest boundary all
windows serve (`attachSlidingGroupQueries`).  What it returns has leases for the prefix, for each
group, or a hold of recurrent states.
-/
import Mathlib.Data.List.Dedup
import PegaFlow.LeaseQueries

namespace PegaFlow

open List Spec

/-! ### Cache groups -/

namespace CacheGroupLayout

variable (layout : CacheGroupLayout)

/-- The groups of a kind, in order. -/
def indicesOf (kind : GroupKind) : List ℕ :=
  (range layout.groupCount).filter fun i =>
    layout.groups[i]?.map CacheGroup.kind = some kind

def blockSizeOf (index : ℕ) : ℕ :=
  (layout.groups[index]?.map CacheGroup.blockSize).getD 0

/-- `storage_group_of`: dense and scratch groups are stored together, sliding-window groups by
their block size, and recurrent groups each on its own. -/
def storageGroupOf (index : ℕ) : ℕ :=
  match layout.groups[index]?.map CacheGroup.kind with
  | some .sliding =>
      ((layout.indicesOf .sliding).map layout.blockSizeOf).eraseDups.idxOf
        (layout.blockSizeOf index) + 1
  | some .recurrent =>
      if layout.has .sliding then 0 else (layout.indicesOf .recurrent).idxOf index + 1
  | _ => 0

end CacheGroupLayout

namespace Leases

variable {Hash : Type} {r : ShardedQueryReady} {id : QueryId} {leases : LeaseTuple}

/-- One release after the other. -/
def releaseAll (cfg : LeaseConfig Hash) : List LeaseTuple → Rpc Unit
  | [] => return ()
  | leases :: rest => do
      release cfg leases
      releaseAll cfg rest

/-! ### Hybrid lookups -/

/-- `reconcile_hybrid_hit`: the hit, its checkpoint and all boundaries that every group has on
every shard. -/
def reconcileHybridHit (attentionHitBlocks : ℕ) (recurrentHits : List (List (List ℕ))) :
    ℕ × Option ℕ × List ℕ :=
  match recurrentHits.flatten.map fun hits => hits.filter (· < attentionHitBlocks) with
  | [] => (0, none, [])
  | first :: rest =>
      let usable := first.filter fun position => ∀ hits ∈ rest, position ∈ hits
      match usable.max? with
      | none => (0, none, [])
      | some checkpoint => (checkpoint + 1, some checkpoint, usable)

/-- The loop over the recurrent groups; what is held is released if a query raises. -/
def queryGroups (cfg : LeaseConfig Hash) (reqId : String) (blockHashes : List Hash)
    (attention : LeaseTuple) : List ℕ → List (List Membership) → Rpc (List (List Membership))
  | [], perGroup => return perGroup
  | groupId :: groupIds, perGroup => do
      let results ← (queryGroupMembership cfg (.group reqId groupId) blockHashes groupId).onError
        (releaseAll cfg (attention :: perGroup.map memberLeases))
      queryGroups cfg reqId blockHashes attention groupIds (perGroup ++ [results])

/-- `_reconcile_hybrid` -/
def reconcileHybrid (cfg : LeaseConfig Hash) (reqId : String) (blockHashes : List Hash)
    (ready : ShardedQueryReady) : Rpc ShardedQueryReady :=
  if ready.numHitBlocks = 0 then return ready
  else do
    let groupIds := (cfg.cacheGroups.indicesOf .recurrent).map cfg.cacheGroups.storageGroupOf
    let perGroup ← queryGroups cfg reqId blockHashes ready.leases groupIds []
    let groupLeases := perGroup.map memberLeases
    let hitPositions := perGroup.map fun group => group.map Membership.positions
    match reconcileHybridHit ready.numHitBlocks hitPositions with
    | (hybridHit, some checkpoint, usable) =>
        let hold : RecurrentLoadHold := { leases := groupLeases, hitPositions, checkpoint }
        if hybridHit < ready.numHitBlocks then
          -- not guarded: if this query raises, the leases stay
          let exact ← query cfg (.hmaExact reqId hybridHit) (blockHashes.take hybridHit)
          release cfg ready.leases
          match exact with
          | none =>
              releaseAll cfg groupLeases
              return noHit ready.leases
          | some exact =>
              if exact.numHitBlocks ≠ hybridHit then
                releaseAll cfg (exact.leases :: groupLeases)
                return noHit ready.leases
              else
                return { numHitBlocks := hybridHit, leases := exact.leases
                         recurrentHold := some hold, usablePositions := usable }
        else
          return { numHitBlocks := hybridHit, leases := ready.leases
                   recurrentHold := some hold, usablePositions := usable }
    | (_, none, _) =>
        releaseAll cfg (ready.leases :: groupLeases)
        return noHit ready.leases

/-! ### Sliding-window lookups -/

/-- The local variables of `_attach_sliding_group_queries`: results by storage group, block size
and span, and the leases acquired so far. -/
structure SlidingState where
  queries : List ((ℕ × ℕ × ℕ × ℕ) × (List ℕ × LeaseTuple))
  acquired : List LeaseTuple

/-- What a sliding-window lookup works with. -/
structure SlidingLookup (Hash : Type) where
  request : Request Hash
  computedBlocks : ℕ

namespace SlidingLookup

section Definitions

variable (cfg : LeaseConfig Hash) (lookup : SlidingLookup Hash)

def computedTokens : ℕ :=
  lookup.computedBlocks * cfg.ctx.virtualBlockSize

def groupSize (group : ℕ) : ℕ :=
  cfg.cacheGroups.blockSizeOf group * cfg.ctx.dcpWorldSize

/-- The blocks of the group that a hit of `blocks` scheduler blocks needs. -/
def span (group blocks : ℕ) : ℕ × ℕ :=
  let endToken := (lookup.computedBlocks + blocks) * cfg.ctx.virtualBlockSize
  let startToken := max (lookup.computedTokens cfg)
    (match cfg.slidingRetainedTokensOf group with
      | none | some 0 => 0
      | some retained => endToken - retained)
  (startToken / groupSize cfg group, endToken / groupSize cfg group)

/-- The positions all shards have. -/
def commonPositions : List Membership → List ℕ
  | [] => []
  | first :: rest => first.positions.filter fun position => ∀ m ∈ rest, position ∈ m.positions

/-- All `n` positions. -/
def IsFull (positions : List ℕ) (n : ℕ) : Prop :=
  (∀ position ∈ positions, position < n) ∧ ∀ i < n, i ∈ positions

instance (positions : List ℕ) (n : ℕ) : Decidable (IsFull positions n) :=
  inferInstanceAs (Decidable (_ ∧ _))

/-- The membership query of a group.  If it raises, all that was acquired is released: the
`finally` clause runs. -/
def queryGroup (st : SlidingState)
    (group start stop : ℕ) : Rpc ((List ℕ × LeaseTuple) × SlidingState) :=
  let storageGroup := cfg.cacheGroups.storageGroupOf group
  let key := (storageGroup, groupSize cfg group, start, stop)
  match st.queries.lookup key with
  | some result => return (result, st)
  | none => do
      let results ← Prog.onError (do
          let hashes ← Prog.lift (requestBlockHashes cfg.ctx lookup.request
            (some (cfg.cacheGroups.blockSizeOf group)))
          queryGroupMembership cfg
            (.groupSpan lookup.request.requestId storageGroup start stop)
            ((hashes.take stop).drop start) storageGroup)
        (releaseAll cfg st.acquired)
      let leases := memberLeases results
      let result := (commonPositions results, leases)
      return (result, { queries := (key, result) :: st.queries
                        acquired := st.acquired.insert leases })

/-- The first loop: are all spans of the groups complete? -/
def queryAll (candidate : ℕ) :
    List ℕ → Bool → SlidingState → Rpc (Bool × SlidingState)
  | [], complete, st => return (complete, st)
  | group :: groups, complete, st => do
      let (start, stop) := lookup.span cfg group candidate
      let ((positions, _), st) ← lookup.queryGroup cfg st group start stop
      queryAll candidate groups (complete && decide (IsFull positions (stop - start))) st

/-- The second loop: which blocks the groups have, back to the local prefix. -/
def queryBack (candidate : ℕ) :
    List ℕ → List (ℕ × List ℕ) → SlidingState → Rpc (List (ℕ × List ℕ) × SlidingState)
  | [], membership, st => return (membership, st)
  | group :: groups, membership, st => do
      let start := lookup.computedTokens cfg / groupSize cfg group
      let (_, stop) := lookup.span cfg group candidate
      let ((positions, _), st) ← lookup.queryGroup cfg st group start stop
      queryBack candidate groups (membership ++ [(group, positions.map (start + ·))]) st

/-- The latest boundary below `candidate` that all groups serve, or 0. -/
def lastBoundary (candidate : ℕ)
    (membership : List (ℕ × List ℕ)) : ℕ :=
  ((range' 1 (candidate - 1)).reverse.find? fun blocks =>
    decide (∀ e ∈ membership, ∀ i < (lookup.span cfg e.1 blocks).2,
      (lookup.span cfg e.1 blocks).1 ≤ i → i ∈ e.2)).getD 0

/-- The last loop: the span and the leases of each group, if all spans are complete. -/
def collectGroups (candidate : ℕ) :
    List ℕ → List (ℕ × (ℕ × ℕ) × LeaseTuple) → SlidingState →
      Rpc (Option (List (ℕ × (ℕ × ℕ) × LeaseTuple)) × SlidingState)
  | [], found, st => return (some found, st)
  | group :: groups, found, st => do
      let (start, stop) := lookup.span cfg group candidate
      let ((positions, leases), st) ← lookup.queryGroup cfg st group start stop
      if ¬ IsFull positions (stop - start) then return (none, st)
      else collectGroups candidate groups (found ++ [(group, (start, stop), leases)]) st

/-- The leases of each group: those of the attention prefix for groups stored with it. -/
def leasesByGroup (leases : LeaseTuple)
    (found : List (ℕ × (ℕ × ℕ) × LeaseTuple)) : List LeaseTuple :=
  (range cfg.cacheGroups.groupCount).map fun group =>
    match found.lookup group with
    | some e => e.2
    | none => if cfg.cacheGroups.storageGroupOf group = 0 then leases else []

def rangesByGroup (candidate : ℕ)
    (found : List (ℕ × (ℕ × ℕ) × LeaseTuple)) : List (ℕ × ℕ) :=
  (range cfg.cacheGroups.groupCount).map fun group =>
    match found.lookup group with
    | some e => e.1
    | none => (lookup.computedBlocks, lookup.computedBlocks + candidate)

/-- Leave without a hit: the `finally` clause releases all that was acquired. -/
def miss (leases : LeaseTuple) (st : SlidingState) :
    Rpc ShardedQueryReady := do
  releaseAll cfg st.acquired
  return noHit leases

/-- The end of the function: with all spans complete, the leases of the groups are kept and the
others released. -/
def finish (candidate : ℕ)
    (ready : ShardedQueryReady) (st : SlidingState) : Rpc ShardedQueryReady := do
  match ← lookup.collectGroups cfg candidate (cfg.cacheGroups.indicesOf .sliding) [] st with
  | (none, st) => miss cfg ready.leases st
  | (some found, st) =>
      let retained := leasesByGroup cfg ready.leases found
      releaseAll cfg (st.acquired.filter fun leases => leases ∉ retained)
      return { ready with
        leasesByGroup := some retained
        blockRangesByGroup := some (lookup.rangesByGroup cfg candidate found) }

/-- `_attach_sliding_group_queries` -/
def attachSlidingGroupQueries (fullHashes : List Hash) (ready : ShardedQueryReady) :
    Rpc ShardedQueryReady :=
  if ready.numHitBlocks = 0 then return ready
  else do
    let slidingGroups := cfg.cacheGroups.indicesOf .sliding
    let candidate := ready.numHitBlocks
    let (complete, st) ← lookup.queryAll cfg candidate slidingGroups true
      { queries := [], acquired := [ready.leases] }
    if complete then lookup.finish cfg candidate ready st
    else
      let (membership, st) ← lookup.queryBack cfg candidate slidingGroups [] st
      match lookup.lastBoundary cfg candidate membership with
      | 0 => miss cfg ready.leases st
      | candidate => do
          let dense ← (query cfg (.denseShrunk lookup.request.requestId candidate)
            (fullHashes.take candidate)).onError (releaseAll cfg st.acquired)
          match dense with
          | none => miss cfg ready.leases st
          | some dense =>
              let st := { st with acquired := st.acquired.insert dense.leases }
              if dense.numHitBlocks ≠ candidate then miss cfg ready.leases st
              else lookup.finish cfg candidate dense st

end Definitions

end SlidingLookup

/-- `_count_available_block_prefix` -/
def countAvailableBlockPrefix (cfg : LeaseConfig Hash) (request : Request Hash)
    (computedBlocks : ℕ) (blockHashes : List Hash) : Rpc (Option ShardedQueryReady) := do
  match ← query cfg (.request request.requestId) blockHashes with
  | none => return none
  | some ready =>
      if cfg.cacheGroups.has .recurrent then
        return some (← reconcileHybrid cfg request.requestId blockHashes ready)
      else if cfg.cacheGroups.has .sliding then
        return some (← SlidingLookup.attachSlidingGroupQueries cfg { request, computedBlocks }
          blockHashes ready)
      else return some ready

/-! ### What lookups keep -/

/-- The leases of several tuples. -/
def heldAll (numShards : ℕ) (tuples : List LeaseTuple) : List ℕ :=
  tuples.flatMap (held numShards)

namespace LeaseSet

/-- The tuples that are released with a result: those of the groups or that of the prefix, each
once, and those of the hold. -/
def toRelease (r : LeaseSet) : List LeaseTuple :=
  (match r.leasesByGroup with
    | some byGroup => byGroup.dedup
    | none => [r.leases]) ++ (r.recurrentHold.map RecurrentLoadHold.leases).getD []

/-- The leases that are released with a result. -/
def owned (numShards : ℕ) (r : LeaseSet) : List ℕ := heldAll numShards r.toRelease

/-- All tuples of a result. -/
def tuples (r : LeaseSet) : List LeaseTuple :=
  r.leases :: (r.leasesByGroup.getD [] ++ (r.recurrentHold.map RecurrentLoadHold.leases).getD [])

/-- Tuples have at most one lease per shard, and the leases of the prefix are among those of the
groups. -/
structure Kept (numShards : ℕ) (r : LeaseSet) : Prop where
  length_le : ∀ leases ∈ r.tuples, leases.length ≤ numShards
  leases_mem : ∀ byGroup, r.leasesByGroup = some byGroup → r.leases ∈ byGroup

end LeaseSet

/-- A result for at most `queried` blocks. -/
structure ShardedQueryReady.Kept (cfg : LeaseConfig Hash) (queried : ℕ) (r : ShardedQueryReady) :
    Prop where
  numHitBlocks_le : r.numHitBlocks ≤ queried
  kept : r.toLeaseSet.Kept cfg.numShards

section Release

variable {R : Answers} {cfg : LeaseConfig Hash} {raises : Prop}

theorem releaseAll_keeps (tuples : List LeaseTuple) (F : List ℕ) :
    Keeps R cfg (releaseAll cfg tuples) (heldAll cfg.numShards tuples ++ F) (fun _ => F)
      (fun _ => True) raises := by
  induction tuples with
  | nil => exact pure (.refl _) trivial
  | cons leases tuples ih =>
    exact (seq release_keeps fun _ _ => ih).perm (.of_eq (append_assoc ..).symm)

theorem releaseAll_keeps_nil (tuples : List LeaseTuple) :
    Keeps R cfg (releaseAll cfg tuples) (heldAll cfg.numShards tuples) (fun _ => [])
      (fun _ => True) raises :=
  (releaseAll_keeps tuples []).perm (.of_eq (append_nil _))

theorem owned_noHit (n : ℕ) (leases : LeaseTuple) : (noHit leases).owned n = [] :=
  (append_nil _).trans held_map_none

theorem kept_noHit (h : leases.length = cfg.numShards) (queried : ℕ) :
    (noHit leases).Kept cfg queried :=
  ⟨Nat.zero_le _, by simp [LeaseSet.tuples, noHit, h], nofun⟩

theorem ShardedQueryReady.Plain.owned_eq (h : r.Plain cfg) :
    r.owned cfg.numShards = held cfg.numShards r.leases := by
  rw [LeaseSet.owned, LeaseSet.toRelease, h.leasesByGroup, h.recurrentHold]
  exact append_nil _

theorem QueryHit.kept {n : ℕ} (h : QueryHit R cfg id n r) : r.Kept cfg n := by
  refine ⟨h.le, ?_, ?_⟩
  · rw [LeaseSet.tuples, h.leasesByGroup, h.recurrentHold]
    exact forall_mem_singleton.mpr (le_of_eq h.length_leases)
  · rw [h.leasesByGroup]
    exact nofun

/-- What may be raised: an answer is refused, or the keys of the request do not fit its tokens. -/
structure Raises (R : Answers) (cfg : LeaseConfig Hash) (request : Request Hash)
    (raises : Prop) : Prop where
  member : ∀ id n groupId shard, Refused R (memberCall id n groupId shard) → raises
  query : ∀ id n, id.isCommon = false → QueryFails R cfg id n → raises
  hashes : ∀ size e, requestBlockHashes cfg.ctx request (some size) = .error e → raises

theorem raises_true (request : Request Hash) : Raises R cfg request True :=
  ⟨fun _ _ _ _ _ => trivial, fun _ _ _ _ => trivial, fun _ _ _ => trivial⟩

end Release

/-! ### Hybrid lookups -/

variable {R : Answers} {cfg : LeaseConfig Hash} {request : Request Hash} {raises : Prop}
  {ready : ShardedQueryReady} {results : List Membership} {dense : ShardedQueryReady}
  {blockHashes : List Hash} {group : ℕ}

section Hybrid

/-- The positions of the states, by group and shard. -/
abbrev statePositions (perGroup : List (List Membership)) : List (List (List ℕ)) :=
  perGroup.map fun group => group.map Membership.positions

/-- The answers to the queries for the recurrent groups. -/
def GroupsFound (R : Answers) (cfg : LeaseConfig Hash) (reqId : String) (numHashes : ℕ) :
    List (List Membership) → Prop :=
  Forall₂ (fun groupId => MembersFound R cfg (.group reqId groupId) numHashes groupId)
    ((cfg.cacheGroups.indicesOf .recurrent).map cfg.cacheGroups.storageGroupOf)

theorem queryGroups_keeps (hr : Raises R cfg request raises) (reqId : String)
    (blockHashes : List Hash) (attention : LeaseTuple) (groupIds : List ℕ)
    (perGroup : List (List Membership)) :
    Keeps R cfg (queryGroups cfg reqId blockHashes attention groupIds perGroup)
      (heldAll cfg.numShards (attention :: perGroup.map memberLeases))
      (fun groups => heldAll cfg.numShards (attention :: groups.map memberLeases))
      (fun groups => ∃ new, groups = perGroup ++ new ∧ Forall₂ (fun groupId =>
        MembersFound R cfg (.group reqId groupId) blockHashes.length groupId) groupIds new)
      raises := by
  induction groupIds generalizing perGroup with
  | nil => exact pure (.refl _) ⟨[], (append_nil _).symm, .nil⟩
  | cons groupId groupIds ih =>
    refine seq (guarded (A := []) ((queryGroupMembership_keeps _ blockHashes
      groupId).weaken fun ⟨shard, h⟩ => hr.member _ _ _ shard h) (releaseAll_keeps_nil _))
      fun results hresults => ?_
    refine ((ih (perGroup ++ [results])).perm ?_).conseq ?_
    · have happ : heldAll cfg.numShards (attention :: (perGroup ++ [results]).map memberLeases) =
          heldAll cfg.numShards (attention :: perGroup.map memberLeases) ++
            held cfg.numShards (memberLeases results) := by
        simp [heldAll]
      rw [happ]
      exact perm_append_comm
    · rintro _ ⟨new, rfl, hnew⟩
      exact ⟨results :: new, append_assoc .., .cons hresults hnew⟩

variable {recurrentHits : List (List (List ℕ))}

theorem mem_usable {attentionHitBlocks : ℕ} {first : List ℕ} {rest : List (List ℕ)}
    (hhits : recurrentHits.flatten.map
      (fun hits => hits.filter (· < attentionHitBlocks)) = first :: rest) (p : ℕ) :
    p ∈ first.filter (fun position => ∀ hits ∈ rest, position ∈ hits) ↔
      p < attentionHitBlocks ∧ ∀ hits ∈ recurrentHits.flatten, p ∈ hits := by
  have hall : p ∈ first.filter (fun position => ∀ hits ∈ rest, position ∈ hits) ↔
      ∀ hits ∈ first :: rest, p ∈ hits := by simp
  rw [hall, ← hhits]
  simp only [forall_mem_map, mem_filter, decide_eq_true_eq]
  constructor
  · intro h
    obtain ⟨hits, hmem, -⟩ := mem_map.mp (hhits ▸ mem_cons_self : first ∈ _)
    exact ⟨(h hits hmem).2, fun hits hmem => (h hits hmem).1⟩
  · exact fun h hits hmem => ⟨h.2 hits hmem, h.1⟩

variable {attentionHitBlocks hybridHit checkpoint : ℕ} {usable : List ℕ}

theorem reconcileHybridHit_some (h : reconcileHybridHit attentionHitBlocks recurrentHits =
      (hybridHit, some checkpoint, usable)) :
    hybridHit = checkpoint + 1 ∧ checkpoint ∈ usable ∧ (∀ p ∈ usable, p ≤ checkpoint) ∧
      ∀ p, p ∈ usable ↔ p < attentionHitBlocks ∧ ∀ hits ∈ recurrentHits.flatten, p ∈ hits := by
  unfold reconcileHybridHit at h
  split at h
  · cases h
  · next first rest hhits =>
    dsimp only at h
    split at h
    · cases h
    · next hmax =>
      cases h
      obtain ⟨hmem, hle⟩ := max?_eq_some_iff.mp hmax
      exact ⟨rfl, hmem, hle, mem_usable hhits⟩

theorem reconcileHybridHit_none {attentionHitBlocks hybridHit : ℕ}
    (hne : recurrentHits.flatten ≠ [])
    (h : reconcileHybridHit attentionHitBlocks recurrentHits = (hybridHit, none, usable)) (p : ℕ) :
    ¬ (p < attentionHitBlocks ∧ ∀ hits ∈ recurrentHits.flatten, p ∈ hits) := by
  unfold reconcileHybridHit at h
  split at h
  · next hnil => exact absurd (map_eq_nil_iff.mp hnil) hne
  · next first rest hhits =>
    dsimp only at h
    split at h
    · next hmax =>
      rw [← mem_usable hhits, max?_eq_none_iff.mp hmax]
      exact not_mem_nil
    · cases h

theorem reconcileHybridHit_le (h : reconcileHybridHit attentionHitBlocks recurrentHits =
      (hybridHit, some checkpoint, usable)) : hybridHit ≤ attentionHitBlocks := by
  obtain ⟨rfl, hmem, -, husable⟩ := reconcileHybridHit_some h
  exact ((husable checkpoint).mp hmem).1

/-- **What a hybrid lookup returns** for the hit of the prefix query: no hit if no boundary is left
or the shorter prefix is lost, and else the prefix up to the boundary with a hold of the states. -/
inductive HybridResult (R : Answers) (cfg : LeaseConfig Hash) (reqId : String)
    (blockHashes : List Hash) (ready : ShardedQueryReady) : ShardedQueryReady → Prop
  | empty (hempty : ready.numHitBlocks = 0) : HybridResult R cfg reqId blockHashes ready ready
  | noBoundary {perGroup : List (List Membership)} {hybridHit : ℕ} {usable : List ℕ}
      (groups : GroupsFound R cfg reqId blockHashes.length perGroup)
      (hhit : reconcileHybridHit ready.numHitBlocks (statePositions perGroup) =
        (hybridHit, none, usable)) :
      HybridResult R cfg reqId blockHashes ready (noHit ready.leases)
  | lost {perGroup : List (List Membership)} {hybridHit checkpoint : ℕ} {usable : List ℕ}
      (groups : GroupsFound R cfg reqId blockHashes.length perGroup)
      (hhit : reconcileHybridHit ready.numHitBlocks (statePositions perGroup) =
        (hybridHit, some checkpoint, usable))
      (hlost : Waits R (.hmaExact reqId hybridHit) (blockHashes.take hybridHit).length ∨
        ∃ exact, QueryHit R cfg (.hmaExact reqId hybridHit) (blockHashes.take hybridHit).length
          exact ∧ exact.numHitBlocks ≠ hybridHit) :
      HybridResult R cfg reqId blockHashes ready (noHit ready.leases)
  | hit {perGroup : List (List Membership)} {checkpoint n : ℕ} {usable : List ℕ} {id : QueryId}
      {dense : ShardedQueryReady} (groups : GroupsFound R cfg reqId blockHashes.length perGroup)
      (hhit : reconcileHybridHit ready.numHitBlocks (statePositions perGroup) =
        (dense.numHitBlocks, some checkpoint, usable)) (hdense : QueryHit R cfg id n dense) :
      HybridResult R cfg reqId blockHashes ready
        { numHitBlocks := dense.numHitBlocks, leases := dense.leases
          recurrentHold := some { leases := perGroup.map memberLeases
                                  hitPositions := statePositions perGroup, checkpoint }
          usablePositions := usable }

theorem reconcileHybrid_keeps (hr : Raises R cfg request raises) (reqId : String)
    (blockHashes : List Hash) (hready : QueryHit R cfg id blockHashes.length ready) :
    Keeps R cfg (reconcileHybrid cfg reqId blockHashes ready) (held cfg.numShards ready.leases)
      (fun r => r.owned cfg.numShards) (HybridResult R cfg reqId blockHashes ready) raises := by
  unfold reconcileHybrid
  split
  · next hempty => exact pure (.of_eq hready.owned_eq.symm) (.empty hempty)
  · refine seq ((queryGroups_keeps hr reqId blockHashes ready.leases _ []).perm
      (.of_eq (by simp [heldAll]))) ?_
    rintro perGroup ⟨_, rfl, hgroups⟩
    have hmiss : ∀ tuples, HybridResult R cfg reqId blockHashes ready (noHit ready.leases) →
        Keeps R cfg (do releaseAll cfg tuples; return noHit ready.leases)
          (heldAll cfg.numShards tuples) (fun r => r.owned cfg.numShards)
          (HybridResult R cfg reqId blockHashes ready) raises := fun tuples h =>
      seq (releaseAll_keeps_nil tuples) fun _ _ =>
        pure (.of_eq (owned_noHit _ _).symm) h
    dsimp only
    split
    · next hybridHit checkpoint usable hhit =>
      split
      · refine seq (((query_keeps (.hmaExact reqId hybridHit) rfl _).unguarded
          fun hfair => hfair.exact _ _ _).weaken (hr.query _ _ rfl)) fun exact hexact => ?_
        refine Spec.seq (Spec.release (perm_append_comm_assoc _
          (held cfg.numShards ready.leases) (heldAll cfg.numShards (perGroup.map memberLeases))))
          fun _ _ => ?_
        rcases hexact with ⟨rfl, hwaits⟩ | ⟨exact, rfl, hexact⟩
        · exact hmiss _ (.lost hgroups hhit (.inl hwaits))
        · dsimp only
          split
          · next hne =>
            exact hmiss (exact.leases :: perGroup.map memberLeases)
              (.lost hgroups hhit (.inr ⟨exact, hexact, hne⟩))
          · next heq =>
            rw [not_not] at heq
            subst heq
            exact pure (.refl _) (.hit hgroups hhit hexact)
      · next hge =>
        obtain rfl : hybridHit = ready.numHitBlocks :=
          le_antisymm (reconcileHybridHit_le hhit) (Nat.le_of_not_lt hge)
        exact pure (.refl _) (.hit hgroups hhit hready)
    · next hnone =>
      exact hmiss (ready.leases :: perGroup.map memberLeases) (.noBoundary hgroups hnone)

theorem MembersFound.length_leases {n groupId : ℕ} (h : MembersFound R cfg id n groupId results) :
    (memberLeases results).length = cfg.numShards := by
  rw [memberLeases, length_map, ← Forall₂.length_eq h, length_range]

theorem HybridResult.kept {reqId : String} (hready : QueryHit R cfg id blockHashes.length ready)
    (h : HybridResult R cfg reqId blockHashes ready r) : r.Kept cfg blockHashes.length := by
  cases h with
  | empty => exact hready.kept
  | noBoundary | lost => exact kept_noHit hready.length_leases _
  | @hit perGroup _ _ _ _ dense groups hhit hdense =>
    refine ⟨(reconcileHybridHit_le hhit).trans hready.le, ?_, nofun⟩
    refine forall_mem_cons.mpr ⟨le_of_eq hdense.length_leases, ?_⟩
    intro leases hleases
    obtain ⟨results, hresults, rfl⟩ := mem_map.mp hleases
    obtain ⟨groupId, -, hfound⟩ := forall₂_mem_right groups hresults
    exact le_of_eq hfound.length_leases

end Hybrid

/-! ### Sliding-window lookups -/

theorem QueryHit.of_eq_or {id id' : QueryId} {m n : ℕ} (h : QueryHit R cfg id m ready)
    (hdense : dense = ready ∨ QueryHit R cfg id' n dense ∧ n ≤ m) :
    ∃ id n, QueryHit R cfg id n dense ∧ n ≤ m := by
  rcases hdense with rfl | ⟨hdense, hn⟩
  · exact ⟨id, m, h, le_refl m⟩
  · exact ⟨id', n, hdense, hn⟩

/-- Some cache group is stored with the attention prefix, if there are sliding-window groups. -/
def DenseStored (cfg : LeaseConfig Hash) : Prop :=
  cfg.cacheGroups.has .sliding →
    ∃ group ∈ range cfg.cacheGroups.groupCount, cfg.cacheGroups.storageGroupOf group = 0

instance (cfg : LeaseConfig Hash) : Decidable (DenseStored cfg) :=
  inferInstanceAs (Decidable (_ → _))

theorem storageGroupOf_ne_zero {layout : CacheGroupLayout} (h : group ∈ layout.indicesOf .sliding) :
    layout.storageGroupOf group ≠ 0 := by
  have hkind : layout.groups[group]?.map CacheGroup.kind = some .sliding := by
    simpa using of_mem_filter h
  rw [CacheGroupLayout.storageGroupOf, hkind]
  exact Nat.succ_ne_zero _

section Acquired

variable {n : ℕ} {acquired : List LeaseTuple} {leases : LeaseTuple}

theorem heldAll_insert_perm (h : (held n leases ++ heldAll n acquired).Nodup) :
    (held n leases ++ heldAll n acquired).Perm (heldAll n (acquired.insert leases)) := by
  by_cases hmem : leases ∈ acquired
  · rw [insert_of_mem hmem]
    have hnil : held n leases = [] := by
      refine eq_nil_iff_forall_not_mem.mpr fun token htoken => ?_
      exact (nodup_append'.mp h).2.2 htoken
        (mem_flatMap.mpr ⟨leases, hmem, htoken⟩)
    rw [hnil, nil_append]
  · rw [insert_of_not_mem hmem]
    exact .refl _

/-- The tuples of a duplicate-free list that are in `tuples` stand for `tuples`, if what is missing
is empty. -/
theorem heldAll_filter_perm {tuples : List LeaseTuple} (hnodup : acquired.Nodup)
    (h : ∀ leases ∈ tuples, leases ∈ acquired ∨ held n leases = []) :
    (heldAll n (acquired.filter (· ∈ tuples))).Perm (heldAll n tuples.dedup) := by
  have hsame : (acquired.filter (· ∈ tuples)).Perm (tuples.dedup.filter (· ∈ acquired)) := by
    refine (perm_ext_iff_of_nodup (hnodup.filter _)
      ((nodup_dedup tuples).filter _)).mpr ?_
    intro leases
    simp [and_comm]
  refine (hsame.flatMap_right _).trans (.of_eq ?_)
  have hall : ∀ l : List LeaseTuple, (∀ leases ∈ l, leases ∈ acquired ∨ held n leases = []) →
      heldAll n (l.filter (· ∈ acquired)) = heldAll n l := by
    intro l hl
    induction l with
    | nil => rfl
    | cons leases l ih =>
      have hrest := ih fun leases' hmem => hl leases' (mem_cons_of_mem _ hmem)
      by_cases hmem : leases ∈ acquired
      · rw [filter_cons_of_pos (by simpa using hmem)]
        exact congrArg (held n leases ++ ·) hrest
      · rw [filter_cons_of_neg (by simpa using hmem), hrest]
        have hnil := (hl leases mem_cons_self).resolve_left hmem
        show _ = held n leases ++ heldAll n l
        rw [hnil, nil_append]
  exact hall _ fun leases hmem => h leases (mem_dedup.mp hmem)

end Acquired

namespace SlidingLookup

section Answers

variable (R : Answers) (cfg : LeaseConfig Hash) (lookup : SlidingLookup Hash)

/-- What a cached result stands for: the answers of all shards for the span in its key. -/
def SpanFound : ℕ × ℕ × ℕ × ℕ → List ℕ × LeaseTuple → Prop
  | (storageGroup, size, start, stop), result => ∃ blockSize hashes results,
    size = blockSize * cfg.ctx.dcpWorldSize ∧
    requestBlockHashes cfg.ctx lookup.request (some blockSize) = .ok hashes ∧
    MembersFound R cfg (.groupSpan lookup.request.requestId storageGroup start stop)
      ((hashes.take stop).drop start).length storageGroup results ∧
    result = (commonPositions results, memberLeases results)

/-- The result for a span of the group. -/
def GroupSpan (group : ℕ) (span : ℕ × ℕ) (result : List ℕ × LeaseTuple) : Prop :=
  lookup.SpanFound R cfg
    (cfg.cacheGroups.storageGroupOf group, groupSize cfg group, span.1, span.2) result

/-- The group was found to have all blocks, or not all blocks, for a hit of `blocks`. -/
def Complete (full : Prop) (blocks group : ℕ) : Prop :=
  ∃ result, lookup.GroupSpan R cfg group (lookup.span cfg group blocks) result ∧
    (IsFull result.1 ((lookup.span cfg group blocks).2 - (lookup.span cfg group blocks).1) ↔ full)

/-- The blocks of the group back to the local prefix. -/
def Probed (blocks group : ℕ) (e : ℕ × List ℕ) : Prop :=
  ∃ result, lookup.GroupSpan R cfg group
      (lookup.computedTokens cfg / groupSize cfg group, (lookup.span cfg group blocks).2) result ∧
    e = (group, result.1.map (lookup.computedTokens cfg / groupSize cfg group + ·))

/-- The span of the group with leases on all of it. -/
def FoundSpan (blocks group : ℕ) (e : ℕ × (ℕ × ℕ) × LeaseTuple) : Prop :=
  ∃ positions leases, lookup.GroupSpan R cfg group (lookup.span cfg group blocks)
      (positions, leases) ∧
    IsFull positions ((lookup.span cfg group blocks).2 - (lookup.span cfg group blocks).1) ∧
    e = (group, lookup.span cfg group blocks, leases)

/-- The boundary the lookup tries: the end of the hit if all groups were found complete there, and
else the latest one that the blocks of the groups allow. -/
def Reaches (numHitBlocks candidate : ℕ) : Prop :=
  candidate = numHitBlocks ∧
      (∀ group ∈ cfg.cacheGroups.indicesOf .sliding, lookup.Complete R cfg True candidate group) ∨
    (∃ group ∈ cfg.cacheGroups.indicesOf .sliding, lookup.Complete R cfg False numHitBlocks group) ∧
      ∃ membership, candidate = lookup.lastBoundary cfg numHitBlocks membership ∧
        Forall₂ (lookup.Probed R cfg numHitBlocks) (cfg.cacheGroups.indicesOf .sliding)
          membership

/-- Why a boundary is given up. -/
def Lost (fullHashes : List Hash) (candidate : ℕ) : Prop :=
  candidate = 0 ∨
    Waits R (.denseShrunk lookup.request.requestId candidate) (fullHashes.take candidate).length ∨
    (∃ dense, QueryHit R cfg (.denseShrunk lookup.request.requestId candidate)
      (fullHashes.take candidate).length dense ∧ dense.numHitBlocks ≠ candidate) ∨
    ∃ group ∈ cfg.cacheGroups.indicesOf .sliding, lookup.Complete R cfg False candidate group

/-- A prefix with the spans of the groups. -/
def attached (cfg : LeaseConfig Hash) (dense : ShardedQueryReady)
    (found : List (ℕ × (ℕ × ℕ) × LeaseTuple)) : ShardedQueryReady :=
  { dense with
    leasesByGroup := some (leasesByGroup cfg dense.leases found)
    blockRangesByGroup := some (lookup.rangesByGroup cfg dense.numHitBlocks found) }

end Answers

/-- **What a sliding-window lookup returns** for the hit of the prefix query: no hit if its boundary
is lost, and else the prefix up to the boundary with the spans of the groups. -/
inductive SlidingResult (R : Answers) (cfg : LeaseConfig Hash)
    (lookup : SlidingLookup Hash) (fullHashes : List Hash) (ready : ShardedQueryReady) :
    ShardedQueryReady → Prop
  | empty (hempty : ready.numHitBlocks = 0) : SlidingResult R cfg lookup fullHashes ready ready
  | miss {candidate : ℕ} (hreaches : lookup.Reaches R cfg ready.numHitBlocks candidate)
      (hlost : lookup.Lost R cfg fullHashes candidate) :
      SlidingResult R cfg lookup fullHashes ready (noHit ready.leases)
  | hit {id : QueryId} {n : ℕ} {dense : ShardedQueryReady}
      {found : List (ℕ × (ℕ × ℕ) × LeaseTuple)}
      (hreaches : lookup.Reaches R cfg ready.numHitBlocks dense.numHitBlocks)
      (hdense : dense = ready ∨ QueryHit R cfg id n dense ∧ n ≤ fullHashes.length)
      (hfound : Forall₂ (lookup.FoundSpan R cfg dense.numHitBlocks)
        (cfg.cacheGroups.indicesOf .sliding) found) :
      SlidingResult R cfg lookup fullHashes ready (lookup.attached cfg dense found)

variable {lookup : SlidingLookup Hash}

/-- What is acquired, and what cached results stand for. -/
structure Inv (R : Answers) (cfg : LeaseConfig Hash) (lookup : SlidingLookup Hash)
    (st : SlidingState) : Prop where
  nodup : st.acquired.Nodup
  nodup_held : (heldAll cfg.numShards st.acquired).Nodup
  cached : ∀ e ∈ st.queries, e.2.2 ∈ st.acquired ∧ lookup.SpanFound R cfg e.1 e.2

/-- More has been acquired. -/
structure Grown (R : Answers) (cfg : LeaseConfig Hash) (lookup : SlidingLookup Hash)
    (st st' : SlidingState) : Prop where
  inv : Inv R cfg lookup st'
  subset : st.acquired ⊆ st'.acquired

variable {st : SlidingState} {found : List (ℕ × (ℕ × ℕ) × LeaseTuple)} {fullHashes : List Hash}

theorem Grown.trans {st₁ st₂ st₃ : SlidingState} (h : Grown R cfg lookup st₁ st₂)
    (h' : Grown R cfg lookup st₂ st₃) : Grown R cfg lookup st₁ st₃ :=
  ⟨h'.inv, List.Subset.trans h.subset h'.subset⟩

section Loops

variable (h : Inv R cfg lookup st)
include h

theorem Inv.grown : Grown R cfg lookup st st :=
  ⟨h, List.Subset.refl _⟩

theorem Inv.insert (hnodup : (held cfg.numShards leases ++ heldAll cfg.numShards st.acquired).Nodup)
    {queries : List ((ℕ × ℕ × ℕ × ℕ) × (List ℕ × LeaseTuple))}
    (hqueries : ∀ e ∈ queries, e ∈ st.queries ∨ e.2.2 = leases ∧ lookup.SpanFound R cfg e.1 e.2) :
    Grown R cfg lookup st { queries, acquired := st.acquired.insert leases } where
  inv := {
    nodup := h.nodup.insert
    nodup_held := (heldAll_insert_perm hnodup).nodup_iff.mp hnodup
    cached := by
      intro e he
      rcases hqueries e he with hold | ⟨rfl, hfound⟩
      · exact ⟨mem_insert_of_mem (h.cached e hold).1, (h.cached e hold).2⟩
      · exact ⟨mem_insert_self, hfound⟩ }
  subset := fun _ hmem => mem_insert_of_mem hmem

variable (hr : Raises R cfg lookup.request raises)
include hr

theorem queryGroup_keeps (group start stop : ℕ) :
    Keeps R cfg (lookup.queryGroup cfg st group start stop) (heldAll cfg.numShards st.acquired)
      (fun x => heldAll cfg.numShards x.2.acquired)
      (fun x => Grown R cfg lookup st x.2 ∧ x.1.2 ∈ x.2.acquired ∧
        lookup.GroupSpan R cfg group (start, stop) x.1) raises := by
  unfold queryGroup
  dsimp only
  split
  · next result hlookup =>
    obtain ⟨l₁, l₂, hsplit, -⟩ := lookup_eq_some_iff.mp hlookup
    exact pure (.refl _) ⟨h.grown, h.cached _ (hsplit ▸ mem_append_right _ mem_cons_self)⟩
  · have hmembers : Keeps R cfg (do
        let hashes ← Prog.lift (requestBlockHashes cfg.ctx lookup.request
          (some (cfg.cacheGroups.blockSizeOf group)))
        queryGroupMembership cfg
          (.groupSpan lookup.request.requestId (cfg.cacheGroups.storageGroupOf group) start stop)
          ((hashes.take stop).drop start) (cfg.cacheGroups.storageGroupOf group)) []
        (fun rs => held cfg.numShards (memberLeases rs))
        (fun rs => lookup.GroupSpan R cfg group (start, stop)
          (commonPositions rs, memberLeases rs)) raises := by
      rcases hhashes : requestBlockHashes cfg.ctx lookup.request
        (some (cfg.cacheGroups.blockSizeOf group)) with e | hashes
      · exact throw e (fun _ => rfl) (hr.hashes _ e hhashes)
      · exact ((queryGroupMembership_keeps _ _ _).weaken fun ⟨shard, h⟩ =>
          hr.member _ _ _ shard h).conseq fun results hresults =>
            ⟨_, hashes, results, rfl, hhashes, hresults, rfl⟩
    refine seqNodup (guarded (A := []) hmembers (releaseAll_keeps_nil _)) h.nodup_held ?_
    intro results hspan hnodup
    refine pure (heldAll_insert_perm hnodup) ⟨h.insert hnodup ?_, mem_insert_self, hspan⟩
    exact forall_mem_cons.mpr ⟨.inr ⟨rfl, hspan⟩, fun e he => .inl he⟩

omit h hr in
theorem complete_of_span {group blocks start stop : ℕ} {result : List ℕ × LeaseTuple}
    (hsp : lookup.span cfg group blocks = (start, stop))
    (hspan : lookup.GroupSpan R cfg group (start, stop) result) :
    lookup.Complete R cfg (IsFull result.1 (stop - start)) blocks group :=
  ⟨result, by rwa [hsp], by rw [hsp]⟩

theorem queryAll_keeps (candidate : ℕ) (groups : List ℕ) (complete : Bool) :
    Keeps R cfg (lookup.queryAll cfg candidate groups complete st)
      (heldAll cfg.numShards st.acquired) (fun x => heldAll cfg.numShards x.2.acquired)
      (fun x => Grown R cfg lookup st x.2 ∧
        (x.1 = complete ∧ (∀ group ∈ groups, lookup.Complete R cfg True candidate group) ∨
          x.1 = false ∧ ∃ group ∈ groups, lookup.Complete R cfg False candidate group))
      raises := by
  induction groups generalizing complete st with
  | nil => exact pure (.refl _) ⟨h.grown, .inl ⟨rfl, by simp⟩⟩
  | cons group groups ih =>
    rw [queryAll]
    rcases hsp : lookup.span cfg group candidate with ⟨start, stop⟩
    refine seq (queryGroup_keeps h hr group start stop) ?_
    rintro ⟨⟨positions, leases⟩, st'⟩ ⟨hgrown, -, hspan⟩
    refine (ih hgrown.inv _).conseq ?_
    rintro ⟨full, st''⟩ ⟨hgrown', hpost⟩
    refine ⟨hgrown.trans hgrown', ?_⟩
    have hcomplete := complete_of_span hsp hspan
    by_cases hfull : IsFull positions (stop - start)
    · rw [decide_eq_true hfull, Bool.and_true] at hpost
      rw [eq_true hfull] at hcomplete
      rcases hpost with ⟨heq, hall⟩ | ⟨heq, group', hmem, hno⟩
      · exact .inl ⟨heq, forall_mem_cons.mpr ⟨hcomplete, hall⟩⟩
      · exact .inr ⟨heq, group', mem_cons_of_mem _ hmem, hno⟩
    · rw [decide_eq_false hfull, Bool.and_false] at hpost
      rw [eq_false hfull] at hcomplete
      exact .inr ⟨hpost.elim And.left And.left, group, mem_cons_self, hcomplete⟩

theorem queryBack_keeps (candidate : ℕ) (groups : List ℕ) (membership : List (ℕ × List ℕ)) :
    Keeps R cfg (lookup.queryBack cfg candidate groups membership st)
      (heldAll cfg.numShards st.acquired) (fun x => heldAll cfg.numShards x.2.acquired)
      (fun x => Grown R cfg lookup st x.2 ∧ ∃ new, x.1 = membership ++ new ∧
        Forall₂ (lookup.Probed R cfg candidate) groups new) raises := by
  induction groups generalizing membership st with
  | nil => exact pure (.refl _) ⟨h.grown, [], (append_nil _).symm, .nil⟩
  | cons group groups ih =>
    refine seq (queryGroup_keeps h hr group _ _) ?_
    rintro ⟨⟨positions, leases⟩, st'⟩ ⟨hgrown, -, hspan⟩
    refine (ih hgrown.inv _).conseq ?_
    rintro ⟨_, st''⟩ ⟨hgrown', new, rfl, hnew⟩
    exact ⟨hgrown.trans hgrown', _ :: new, append_assoc .., .cons ⟨_, hspan, rfl⟩ hnew⟩

theorem collectGroups_keeps (candidate : ℕ) (groups : List ℕ)
    (found : List (ℕ × (ℕ × ℕ) × LeaseTuple)) :
    Keeps R cfg (lookup.collectGroups cfg candidate groups found st)
      (heldAll cfg.numShards st.acquired) (fun x => heldAll cfg.numShards x.2.acquired)
      (fun x => Grown R cfg lookup st x.2 ∧
        (x.1 = none ∧ (∃ group ∈ groups, lookup.Complete R cfg False candidate group) ∨
          ∃ new, x.1 = some (found ++ new) ∧
            Forall₂ (lookup.FoundSpan R cfg candidate) groups new ∧
            ∀ e ∈ new, e.2.2 ∈ x.2.acquired)) raises := by
  induction groups generalizing found st with
  | nil => exact pure (.refl _) ⟨h.grown, .inr ⟨[], by rw [append_nil], .nil, by simp⟩⟩
  | cons group groups ih =>
    rw [collectGroups]
    rcases hsp : lookup.span cfg group candidate with ⟨start, stop⟩
    refine seq (queryGroup_keeps h hr group start stop) ?_
    rintro ⟨⟨positions, leases⟩, st'⟩ ⟨hgrown, hmem, hspan⟩
    dsimp only
    split
    · next hfull =>
      have hno := complete_of_span hsp hspan
      rw [eq_false hfull] at hno
      exact pure (.refl _) ⟨hgrown, .inl ⟨rfl, group, mem_cons_self, hno⟩⟩
    · next hfull =>
      rw [not_not] at hfull
      refine (ih hgrown.inv _).conseq ?_
      rintro ⟨_, st''⟩ ⟨hgrown', ⟨rfl, group', hmem', hno⟩ | ⟨new, rfl, hnew, hacquired⟩⟩
      · exact ⟨hgrown.trans hgrown', .inl ⟨rfl, group', mem_cons_of_mem _ hmem', hno⟩⟩
      · refine ⟨hgrown.trans hgrown', .inr ⟨_ :: new, by rw [append_assoc]; rfl,
          .cons ⟨_, leases, hsp.symm ▸ hspan, by rwa [hsp], by rw [hsp]⟩ hnew, ?_⟩⟩
        exact forall_mem_cons.mpr ⟨hgrown'.subset hmem, hacquired⟩

end Loops

theorem mem_leasesByGroup {leases tuple : LeaseTuple} (h : tuple ∈ leasesByGroup cfg leases found) :
    tuple = leases ∨ tuple = [] ∨ ∃ e ∈ found, tuple = e.2.2 := by
  obtain ⟨group, -, rfl⟩ := mem_map.mp h
  split
  · next e hlookup =>
    obtain ⟨l₁, l₂, hsplit, -⟩ := lookup_eq_some_iff.mp hlookup
    exact .inr (.inr ⟨(group, e), hsplit ▸ mem_append_right _ mem_cons_self, rfl⟩)
  · split
    · exact .inl rfl
    · exact .inr (.inl rfl)

theorem leases_mem_leasesByGroup (hdense : DenseStored cfg)
    (hsliding : cfg.cacheGroups.has .sliding) (leases : LeaseTuple)
    (hfound : ∀ e ∈ found, e.1 ∈ cfg.cacheGroups.indicesOf .sliding) :
    leases ∈ leasesByGroup cfg leases found := by
  obtain ⟨group, hgroup, hzero⟩ := hdense hsliding
  refine mem_map.mpr ⟨group, hgroup, ?_⟩
  split
  · next e hlookup =>
    obtain ⟨l₁, l₂, hsplit, -⟩ := lookup_eq_some_iff.mp hlookup
    have hmem := hfound (group, e) (hsplit ▸ mem_append_right _ mem_cons_self)
    exact absurd hzero (storageGroupOf_ne_zero hmem)
  · exact if_pos hzero

section Lookup

variable (hr : Raises R cfg lookup.request raises)
include hr

theorem finish_keeps {n : ℕ} (hplain : dense.Plain cfg)
    (hdense : dense = ready ∨ QueryHit R cfg id n dense ∧ n ≤ fullHashes.length)
    (hreaches : lookup.Reaches R cfg ready.numHitBlocks dense.numHitBlocks)
    (hleases : dense.leases.length = ready.leases.length) (h : Inv R cfg lookup st)
    (hmem : dense.leases ∈ st.acquired) :
    Keeps R cfg (lookup.finish cfg dense.numHitBlocks dense st)
      (heldAll cfg.numShards st.acquired) (fun r => r.owned cfg.numShards)
      (SlidingResult R cfg lookup fullHashes ready) raises := by
  refine seq (collectGroups_keeps h hr dense.numHitBlocks _ []) ?_
  rintro ⟨_, st'⟩ ⟨hgrown, ⟨rfl, hno⟩ | ⟨found, rfl, hfound, hacquired⟩⟩
  · have hsame : noHit dense.leases = noHit ready.leases := by
      rw [noHit, noHit, map_const', map_const', hleases]
    refine seq (releaseAll_keeps_nil _) fun _ _ => ?_
    rw [hsame]
    exact pure (.of_eq (owned_noHit _ _).symm) (.miss hreaches (.inr (.inr (.inr hno))))
  · have hall : ∀ tuple ∈ leasesByGroup cfg dense.leases found,
        tuple ∈ st'.acquired ∨ held cfg.numShards tuple = [] := by
      intro tuple htuple
      rcases mem_leasesByGroup htuple with rfl | rfl | ⟨e, he, rfl⟩
      · exact .inl (hgrown.subset hmem)
      · exact .inr held_nil
      · exact .inl (hacquired e he)
    have hsplit : (heldAll cfg.numShards st'.acquired).Perm
        (heldAll cfg.numShards
            (st'.acquired.filter (· ∉ leasesByGroup cfg dense.leases found)) ++
          heldAll cfg.numShards (leasesByGroup cfg dense.leases found).dedup) := by
      refine List.Perm.trans ?_ ((heldAll_filter_perm hgrown.inv.nodup hall).append_left _)
      rw [heldAll, heldAll, heldAll, ← flatMap_append]
      refine List.Perm.flatMap_right _ ?_
      refine (filter_append_perm (· ∉ leasesByGroup cfg dense.leases found) _).symm.trans ?_
      exact .of_eq (by simp)
    refine seq ((releaseAll_keeps _ _).perm hsplit.symm) fun _ _ => ?_
    refine pure (.of_eq ?_) (.hit hreaches hdense hfound)
    rw [hplain.recurrentHold]
    exact congrArg _ (append_nil _).symm

theorem attachSlidingGroupQueries_keeps (fullHashes : List Hash) (hready : ready.Plain cfg)
    (hnodup : (held cfg.numShards ready.leases).Nodup) :
    Keeps R cfg (lookup.attachSlidingGroupQueries cfg fullHashes ready)
      (held cfg.numShards ready.leases) (fun r => r.owned cfg.numShards)
      (SlidingResult R cfg lookup fullHashes ready) raises := by
  unfold attachSlidingGroupQueries
  split
  · next hempty => exact pure (.of_eq hready.owned_eq.symm) (.empty hempty)
  · have hall : heldAll cfg.numShards [ready.leases] = held cfg.numShards ready.leases :=
      append_nil _
    have hinv : Inv R cfg lookup { queries := [], acquired := [ready.leases] } :=
      ⟨nodup_singleton _, by rwa [hall], by simp⟩
    rw [← hall]
    refine seq (queryAll_keeps hinv hr _ _ true) ?_
    rintro ⟨complete, st⟩ ⟨hgrown, hcomplete⟩
    dsimp only
    split
    · next htrue =>
      rcases hcomplete with ⟨-, hyes⟩ | ⟨hno, -⟩
      · have hdense : ready = ready ∨
            QueryHit R cfg (.request "") 0 ready ∧ 0 ≤ fullHashes.length := .inl rfl
        exact finish_keeps hr hready hdense (.inl ⟨rfl, hyes⟩) rfl hgrown.inv
          (hgrown.subset mem_cons_self)
      · cases htrue.symm.trans hno
    · next hfalse =>
      have hno := (hcomplete.resolve_left fun h => hfalse h.1).2
      refine seq (queryBack_keeps hgrown.inv hr _ _ []) ?_
      rintro ⟨membership, st'⟩ ⟨hgrown', _, rfl, hnew⟩
      have hreaches : lookup.Reaches R cfg ready.numHitBlocks
          (lookup.lastBoundary cfg ready.numHitBlocks membership) := .inr ⟨hno, _, rfl, hnew⟩
      generalize lookup.lastBoundary cfg ready.numHitBlocks membership = candidate at hreaches ⊢
      have hmiss : ∀ st'', lookup.Lost R cfg fullHashes candidate →
          Keeps R cfg (miss cfg ready.leases st'') (heldAll cfg.numShards st''.acquired)
            (fun r => r.owned cfg.numShards) (SlidingResult R cfg lookup fullHashes ready)
            raises := fun st'' hlost =>
        seq (releaseAll_keeps_nil _) fun _ _ =>
          pure (.of_eq (owned_noHit _ _).symm) (.miss hreaches hlost)
      rcases candidate with _ | candidate
      · exact hmiss st' (.inl rfl)
      · refine seqNodup (guarded (A := []) ((query_keeps
          (.denseShrunk lookup.request.requestId (candidate + 1)) rfl
          (fullHashes.take (candidate + 1))).weaken (hr.query _ _ rfl)) (releaseAll_keeps_nil _))
          hgrown'.inv.nodup_held ?_
        rintro _ (⟨rfl, hwaits⟩ | ⟨dense, rfl, hdense⟩) hB
        · exact hmiss st' (.inr (.inl hwaits))
        · have hgrown'' := hgrown'.inv.insert hB fun e he => .inl he
          refine perm ?_ (heldAll_insert_perm hB).symm
          dsimp only
          split
          · next hne =>
            exact hmiss { st' with acquired := st'.acquired.insert dense.leases }
              (.inr (.inr (.inl ⟨dense, hdense, hne⟩)))
          · next heq =>
            rw [not_not] at heq
            rw [← heq] at hreaches ⊢
            exact finish_keeps hr hdense.toPlain (.inr ⟨hdense, length_take_le' _ _⟩) hreaches
              (hdense.length_leases.trans hready.length_leases.symm) hgrown''.inv mem_insert_self

end Lookup

theorem mem_commonPositions {position : ℕ} (hne : results ≠ []) :
    position ∈ commonPositions results ↔ ∀ m ∈ results, position ∈ m.positions := by
  cases results with
  | nil => exact absurd rfl hne
  | cons first rest => rw [commonPositions, mem_filter, forall_mem_cons, decide_eq_true_eq]

theorem FoundSpan.length_leases {blocks group : ℕ} {e : ℕ × (ℕ × ℕ) × LeaseTuple}
    (h : lookup.FoundSpan R cfg blocks group e) : e.2.2.length = cfg.numShards := by
  obtain ⟨_, _, ⟨_, _, results, -, -, hfound, ⟨⟩⟩, -, rfl⟩ := h
  exact hfound.length_leases

theorem lookup_found {blocks : ℕ} {groups : List ℕ}
    (h : Forall₂ (lookup.FoundSpan R cfg blocks) groups found) (group : ℕ) :
    (group ∈ groups → ∃ leases, found.lookup group = some (lookup.span cfg group blocks, leases) ∧
      lookup.FoundSpan R cfg blocks group (group, lookup.span cfg group blocks, leases)) ∧
    (group ∉ groups → found.lookup group = none) := by
  induction h with
  | nil => exact ⟨nofun, fun _ => rfl⟩
  | @cons group₁ _ groups found hspan _ ih =>
    obtain ⟨positions, leases, hgroup, hfull, rfl⟩ := hspan
    by_cases heq : group = group₁
    · subst heq
      exact ⟨fun _ => ⟨leases, lookup_cons_self, positions, leases, hgroup, hfull, rfl⟩,
        fun hno => absurd mem_cons_self hno⟩
    · have hskip : ((group₁, lookup.span cfg group₁ blocks, leases) :: found).lookup group =
          found.lookup group := by
        rw [lookup_cons, beq_false_of_ne heq]
      rw [hskip, mem_cons, or_iff_right heq]
      exact ih

theorem getD_attached (lookup : SlidingLookup Hash) (leases : LeaseTuple)
    (found : List (ℕ × (ℕ × ℕ) × LeaseTuple)) (blocks : ℕ)
    (hgroup : group < cfg.cacheGroups.groupCount) :
    (leasesByGroup cfg leases found).getD group [] = ((found.lookup group).map Prod.snd).getD
        (if cfg.cacheGroups.storageGroupOf group = 0 then leases else []) ∧
      (lookup.rangesByGroup cfg blocks found).getD group (0, 0) =
        ((found.lookup group).map Prod.fst).getD
          (lookup.computedBlocks, lookup.computedBlocks + blocks) := by
  unfold leasesByGroup rangesByGroup
  simp only [getD_eq_getElem?_getD, getElem?_map, getElem?_range hgroup, Option.map_some,
    Option.getD_some]
  cases found.lookup group <;> exact ⟨rfl, rfl⟩

theorem SlidingResult.kept (hdense : DenseStored cfg)
    (hsliding : cfg.cacheGroups.has .sliding = true)
    (hready : QueryHit R cfg id fullHashes.length ready)
    (h : SlidingResult R cfg lookup fullHashes ready r) : r.Kept cfg fullHashes.length := by
  cases h with
  | empty => exact hready.kept
  | miss => exact kept_noHit hready.length_leases _
  | hit hreaches hdense' hfound =>
    obtain ⟨_, _, hdense', hn⟩ := hready.of_eq_or hdense'
    refine ⟨hdense'.le.trans hn, ?_, ?_⟩
    · refine forall_mem_cons.mpr ⟨Nat.le_of_eq hdense'.length_leases, fun tuple htuple => ?_⟩
      rw [attached, hdense'.recurrentHold] at htuple
      rcases mem_leasesByGroup (by simpa using htuple) with rfl | rfl | ⟨e, he, rfl⟩
      · exact Nat.le_of_eq hdense'.length_leases
      · exact Nat.zero_le _
      · obtain ⟨group, -, hspan⟩ := forall₂_mem_right hfound he
        exact Nat.le_of_eq hspan.length_leases
    · rintro byGroup ⟨⟩
      refine leases_mem_leasesByGroup hdense hsliding _ fun e he => ?_
      obtain ⟨group, hgroup, _, _, -, -, rfl⟩ := forall₂_mem_right hfound he
      exact hgroup

end SlidingLookup

/-- **What a lookup returns**, by the kinds of the cache groups. -/
inductive LookupResult (R : Answers) (cfg : LeaseConfig Hash)
    (request : Request Hash) (computedBlocks : ℕ) (blockHashes : List Hash)
    (ready : ShardedQueryReady) : ShardedQueryReady → Prop
  | hybrid {r : ShardedQueryReady} (hrecurrent : cfg.cacheGroups.has .recurrent)
      (h : HybridResult R cfg request.requestId blockHashes ready r) :
      LookupResult R cfg request computedBlocks blockHashes ready r
  | sliding {r : ShardedQueryReady} (hrecurrent : ¬ cfg.cacheGroups.has .recurrent)
      (hsliding : cfg.cacheGroups.has .sliding)
      (h : SlidingLookup.SlidingResult R cfg { request, computedBlocks } blockHashes ready r) :
      LookupResult R cfg request computedBlocks blockHashes ready r
  | dense (hrecurrent : ¬ cfg.cacheGroups.has .recurrent) :
      LookupResult R cfg request computedBlocks blockHashes ready ready

/-- **A lookup keeps what it returns.**  Every lease that was handed out during a lookup is
released, once, or belongs to its result. -/
theorem countAvailableBlockPrefix_keeps (hr : Raises R cfg request raises) (computedBlocks : ℕ)
    (blockHashes : List Hash) :
    Keeps R cfg (countAvailableBlockPrefix cfg request computedBlocks blockHashes) []
      (fun o => o.elim [] fun r => r.owned cfg.numShards)
      (fun o => o = none ∧ Waits R (.request request.requestId) blockHashes.length ∨
        ∃ ready r, o = some r ∧
          QueryHit R cfg (.request request.requestId) blockHashes.length ready ∧
          LookupResult R cfg request computedBlocks blockHashes ready r) raises := by
  refine seqNodup ((query_keeps _ rfl blockHashes).weaken (hr.query _ _ rfl)) nodup_nil ?_
  rintro _ (⟨rfl, hwaits⟩ | ⟨ready, rfl, hready⟩) hnodup
  · exact pure (.refl _) (.inl ⟨rfl, hwaits⟩)
  · dsimp only
    split
    · next hrecurrent =>
      exact seq (reconcileHybrid_keeps hr _ blockHashes hready) fun r h =>
        pure (.refl _) (.inr ⟨ready, r, rfl, hready, .hybrid hrecurrent h⟩)
    · next hrecurrent =>
      split
      · next hsliding =>
        exact seq (SlidingLookup.attachSlidingGroupQueries_keeps hr blockHashes hready.toPlain
          hnodup) fun r h => pure (.refl _)
            (.inr ⟨ready, r, rfl, hready, .sliding hrecurrent hsliding h⟩)
      · exact pure (.of_eq hready.owned_eq.symm)
          (.inr ⟨ready, ready, rfl, hready, .dense hrecurrent⟩)

theorem LookupResult.lease {computedBlocks : ℕ}
    (hready : QueryHit R cfg id blockHashes.length ready)
    (h : LookupResult R cfg request computedBlocks blockHashes ready r) :
    r.leases.length = cfg.numShards ∧ ∀ shard lease, r.leases[shard]? = some lease →
      r.numHitBlocks = 0 ∧ lease = none ∨ LeaseOn R r.numHitBlocks shard lease := by
  have hno : (noHit ready.leases).leases.length = cfg.numShards ∧
      ∀ shard lease, (noHit ready.leases).leases[shard]? = some lease →
        (noHit ready.leases).numHitBlocks = 0 ∧ lease = none ∨
          LeaseOn R (noHit ready.leases).numHitBlocks shard lease := by
    refine ⟨by simp [noHit, hready.length_leases], fun shard lease hlease => .inl ⟨rfl, ?_⟩⟩
    obtain ⟨-, -, rfl⟩ := mem_map.mp (mem_of_getElem? hlease)
    rfl
  cases h with
  | hybrid _ h =>
    cases h with
    | empty => exact ⟨hready.length_leases, hready.lease⟩
    | noBoundary | lost => exact hno
    | hit _ _ hdense => exact ⟨hdense.length_leases, hdense.lease⟩
  | sliding _ _ h =>
    cases h with
    | empty => exact ⟨hready.length_leases, hready.lease⟩
    | miss => exact hno
    | hit _ hdense =>
      obtain ⟨_, _, hdense, -⟩ := hready.of_eq_or hdense
      exact ⟨hdense.length_leases, hdense.lease⟩
  | dense => exact ⟨hready.length_leases, hready.lease⟩

theorem LookupResult.kept {computedBlocks : ℕ} (hdense : DenseStored cfg)
    (hready : QueryHit R cfg id blockHashes.length ready)
    (h : LookupResult R cfg request computedBlocks blockHashes ready r) :
    r.Kept cfg blockHashes.length := by
  cases h with
  | hybrid _ h => exact h.kept hready
  | sliding _ hsliding h => exact h.kept hdense hsliding hready
  | dense => exact hready.kept

end Leases

end PegaFlow
