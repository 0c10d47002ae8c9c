/-
PegaFlow/LeaseConnector.lean

The scheduler connector, as far as leases go (`connector/scheduler.py`).
-/
import Mathlib.Data.List.AList
import PegaFlow.LeaseLookups

namespace PegaFlow

namespace Leases

variable {Hash : Type}

/-! ### Probes and intents -/

/-- `_QueryProbe`.  What `mark_ready` sets is in `result`; its hit may shrink later, while
`leasedBlocks` stays. -/
structure QueryProbe (Hash : Type) where
  computedBlocks : ℕ
  queryHashes : List Hash
  tailTokens : ℕ
  result : Option ShardedQueryReady := none
  leasedBlocks : ℕ := 0
deriving DecidableEq, Repr

namespace QueryProbe

def matchesQuery [DecidableEq Hash] (probe : QueryProbe Hash) (computedBlocks : ℕ)
    (queryHashes : List Hash) (tailTokens : ℕ) : Bool :=
  probe.computedBlocks = computedBlocks ∧ probe.queryHashes = queryHashes ∧
    probe.tailTokens = tailTokens

/-- The leases of the probe; empty while it is loading. -/
def leaseSet (probe : QueryProbe Hash) : LeaseSet :=
  (probe.result.map ShardedQueryReady.toLeaseSet).getD { leases := [] }

def markReady (probe : QueryProbe Hash) (ready : ShardedQueryReady) :
    Except String (QueryProbe Hash) :=
  if probe.queryHashes.length < ready.numHitBlocks then
    .error (s!"invariant violated: server returned {ready.numHitBlocks} hits for " ++
      s!"{probe.queryHashes.length} hashes")
  else .ok { probe with result := some ready, leasedBlocks := ready.numHitBlocks }

theorem result_getD {pending : Option (QueryProbe Hash)}
    (hloading : ∀ probe, pending = some probe → probe.result = none) (fresh : QueryProbe Hash)
    (hfresh : fresh.result = none) : (pending.getD fresh).result = none := by
  rcases pending with _ | probe
  · exact hfresh
  · exact hloading probe rfl

end QueryProbe

structure LoadIntent extends LeaseSet where
  blockIdsByGroup : List (List (Option ℕ))
  numTokens : ℕ
deriving DecidableEq, Repr

/-- The lease is in the intent. -/
def LoadIntent.Mentions (intent : LoadIntent) (lease : ℕ) : Prop :=
  ∃ leases ∈ intent.tuples, some lease ∈ leases

instance (intent : LoadIntent) (lease : ℕ) : Decidable (intent.Mentions lease) :=
  inferInstanceAs (Decidable (∃ leases ∈ intent.tuples, some lease ∈ leases))

variable (cfg : LeaseConfig Hash)

/-- Release the leases of a result. -/
def releaseLeaseSet (r : LeaseSet) : Rpc Unit :=
  releaseAll cfg r.toRelease

/-- The kind of a group. -/
def kindOf (group : ℕ) : Option GroupKind := cfg.cacheGroups.groups[group]?.map CacheGroup.kind

/-- The blocks of a group's table that a load fills. -/
def loadRange (start blocks : ℕ) (ranges : Option (List (ℕ × ℕ))) (group : ℕ) : ℕ × ℕ :=
  match ranges with
  | some ranges =>
      if kindOf cfg group = some .sliding then ranges.getD group (0, 0) else (start, start + blocks)
  | none => (start, start + blocks)

/-- The destinations of one group. -/
def groupDestinations (start blocks leased : ℕ) (ranges : Option (List (ℕ × ℕ))) (ids : List ℕ)
    (group : ℕ) : List (Option ℕ) :=
  let range := loadRange cfg start blocks ranges group
  let destinations := ((ids.take range.2).drop range.1).map some
  let padding := List.replicate (leased - blocks) none
  if kindOf cfg group = some .scratch then List.replicate leased none
  else if ranges.isSome ∧ kindOf cfg group = some .sliding then destinations
  else if kindOf cfg group = some .recurrent then
    List.replicate (destinations.length - 1) none ++
      destinations.drop (destinations.length - 1) ++ padding
  else destinations ++ padding

/-- `_load_block_ids_by_group`: the destinations of a load, one per leased block. -/
def loadBlockIdsByGroup (blockIds : List (List ℕ))
    (startBlockIdx numLoadBlocks leasedBlocks : ℕ) (blockRanges : Option (List (ℕ × ℕ))) :
    Except String (List (List (Option ℕ))) :=
  if ∃ e ∈ blockIds.zipIdx, kindOf cfg e.2 ≠ some .scratch ∧
      e.1.length < (loadRange cfg startBlockIdx numLoadBlocks blockRanges e.2).2 then
    .error (s!"load block mismatch: start={startBlockIdx} count={numLoadBlocks} " ++
      s!"available_by_group={blockIds.map List.length}")
  else if leasedBlocks < numLoadBlocks then
    .error s!"load block mismatch: leased={leasedBlocks} count={numLoadBlocks}"
  else .ok (blockIds.zipIdx.map fun e =>
    groupDestinations cfg startBlockIdx numLoadBlocks leasedBlocks blockRanges e.1 e.2)

/-- The tokens of a ready probe's hit. -/
def hitTokens (request : Request Hash) (probe : QueryProbe Hash) (r : ShardedQueryReady) : ℤ :=
  cfg.ctx.hitTokens request.numTokens probe.computedBlocks probe.queryHashes.length
    probe.tailTokens r.numHitBlocks

/-! ### The connector -/

/-- The lease state of `SchedulerConnector`.  The last three fields only record what happened:
the intents the workers were given, the request of each lease, and the leases that are due. -/
structure Connector (Hash : Type) where
  pendingQueryProbes : AList fun _ : String => QueryProbe Hash
  pendingLoadIntents : AList fun _ : String => LoadIntent
  pendingSaves : List String
  heldRequests : List String
  ledger : Ledger QueryCall QueryReply
  delivered : List LoadIntent
  owner : List String
  due : List ℕ

namespace Connector

def init : Connector Hash where
  pendingQueryProbes := ∅
  pendingLoadIntents := ∅
  pendingSaves := []
  heldRequests := []
  ledger := { replies := [], log := [], handed := 0, released := [] }
  delivered := []
  owner := []
  due := []

/-- All intents made that were not overwritten. -/
def intents (s : Connector Hash) : List LoadIntent :=
  s.pendingLoadIntents.entries.map Sigma.snd ++ s.delivered

section Definitions

variable (cfg : LeaseConfig Hash) (s : Connector Hash) (reqId : String)

def setProbe (probe : QueryProbe Hash) : Connector Hash :=
  { s with pendingQueryProbes := s.pendingQueryProbes.insert reqId probe }

/-- `_release_pending_query_probe` -/
def releasePendingQueryProbe : Connector Hash :=
  match s.pendingQueryProbes.lookup reqId with
  | none => s
  | some probe =>
      { s with
        pendingQueryProbes := s.pendingQueryProbes.erase reqId
        ledger := ((releaseLeaseSet cfg probe.leaseSet).run QueryReply.leased s.ledger).2 }

/-- The end of a lookup: a hit without tokens is not loaded. -/
def settle (hitTokens : ℤ) : Except String (Option ℤ × Bool) × Connector Hash :=
  if hitTokens ≤ 0 then (.ok (some 0, false), s.releasePendingQueryProbe cfg reqId)
  else (.ok (some hitTokens, true), s)

/-- `_finish_cache_lookup` -/
def finishCacheLookup (request : Request Hash) (probe : QueryProbe Hash) :
    Except String (Option ℤ × Bool) × Connector Hash :=
  match probe.result with
  | none => (.error "query probe is still loading", s)
  | some r =>
      match r.recurrentHold with
      | none => s.settle cfg request.requestId (hitTokens cfg request probe r)
      | some hold =>
          match cfg.ctx.lastCheckpoint (hitTokens cfg request probe r) r.usablePositions with
          | none => (.ok (some 0, false), s.releasePendingQueryProbe cfg request.requestId)
          | some checkpoint =>
              let r' := { r with
                numHitBlocks := checkpoint + 1
                recurrentHold := some { hold with checkpoint } }
              (s.setProbe request.requestId { probe with result := some r' }).settle cfg
                request.requestId ((checkpoint + 1) * cfg.ctx.virtualBlockSize)

/-- The result of a lookup goes into the probe. -/
def accept (request : Request Hash) (probe : QueryProbe Hash) (ready : ShardedQueryReady) :
    Except String (Option ℤ × Bool) × Connector Hash :=
  match probe.markReady ready with
  | .error e => (.error e, s.setProbe request.requestId probe)
  | .ok probe => (s.setProbe request.requestId probe).finishCacheLookup cfg request probe

/-- Run a lookup; its leases are those of the request. -/
def runFor {α : Type} (reqId : String) (m : Rpc α) : Except String α × Connector Hash :=
  match m.run QueryReply.leased s.ledger with
  | (result, w) =>
      (result, { s with
        ledger := w
        owner := s.owner ++ List.replicate (w.handed - s.ledger.handed) reqId })

section Query

variable [DecidableEq Hash] (request : Request Hash)

/-- The part of `get_num_new_matched_tokens` that asks the backend: there is no probe, or one that
is loading. -/
def askBackend (computedBlocks : ℕ) (queryHashes : List Hash) (tailTokens : ℕ) :
    Except String (Option ℤ × Bool) × Connector Hash :=
  let fresh : QueryProbe Hash := { computedBlocks, queryHashes, tailTokens }
  let probe := (s.pendingQueryProbes.lookup request.requestId).getD fresh
  -- a query that drifted is finished with the hashes it began with
  let drifted := !probe.matchesQuery computedBlocks queryHashes tailTokens
  match s.runFor request.requestId
      (countAvailableBlockPrefix cfg request computedBlocks probe.queryHashes) with
  | (.error e, s) => (.error e, s)
  | (.ok none, s) => (.ok (none, false), s.setProbe request.requestId probe)
  | (.ok (some ready), s) =>
      if drifted then
        (.ok (none, false),
          { s with
            pendingQueryProbes := s.pendingQueryProbes.erase request.requestId
            ledger := ((releaseLeaseSet cfg ready.toLeaseSet).run QueryReply.leased s.ledger).2 })
      else s.accept cfg request probe ready

/-- `get_num_new_matched_tokens` -/
def getNumNewMatchedTokens (numComputedTokens : ℕ) :
    Except String (Option ℤ × Bool) × Connector Hash :=
  if !cfg.ctx.readEnabled then (.ok (some 0, false), s)
  else
    let computedBlocks := numComputedTokens / cfg.ctx.virtualBlockSize
    match cfg.buildQuery request computedBlocks with
    | .error e => (.error e, s)
    | .ok (queryHashes, tailTokens) =>
        if queryHashes = [] then
          (.ok (some 0, false), s.releasePendingQueryProbe cfg request.requestId)
        else
          match s.pendingQueryProbes.lookup request.requestId with
          | none => s.askBackend cfg request computedBlocks queryHashes tailTokens
          | some probe =>
              if probe.result = none then
                s.askBackend cfg request computedBlocks queryHashes tailTokens
              else if probe.matchesQuery computedBlocks queryHashes tailTokens then
                s.finishCacheLookup cfg request probe
              else
                (s.releasePendingQueryProbe cfg request.requestId).askBackend cfg request
                  computedBlocks queryHashes tailTokens

/-- The last check of `update_state_after_alloc`, and the hand-over. -/
def storeIntent (intent : LoadIntent) : Except String Unit × Connector Hash :=
  if intent.leases = [] ∨ none ∈ intent.leases then
    (.error s!"req {request.requestId} missing query lease for external load", s)
  else
    (.ok (), { s with
      pendingLoadIntents := s.pendingLoadIntents.insert request.requestId intent
      pendingQueryProbes := s.pendingQueryProbes.erase request.requestId })

/-- `update_state_after_alloc`.  A block of the allocation is its id and whether it has a
hash. -/
def updateStateAfterAlloc (blocks : Option (List (List (ℕ × Bool)))) (numExternalTokens : ℕ) :
    Except String Unit × Connector Hash :=
  let reqId := request.requestId
  match requestBlockHashes cfg.ctx request none with
  | .error e => (.error e, s)
  | .ok _ =>
    if numExternalTokens = 0 then (.ok (), s)
    else
      let blockIds : Except String (List (List ℕ)) :=
        match blocks with
        | some blocks => cfg.copyBlockIdsByGroup (blocks.map fun group => group.map Prod.fst)
        | none => .ok (List.replicate cfg.cacheGroups.groupCount [])
      match blockIds with
      | .error e => (.error e, s)
      | .ok blockIds =>
        let numComputedBlocks :=
          ((blocks.getD []).getD cfg.cacheGroups.hashGroupIndex []).countP Prod.snd
        let vbs := cfg.ctx.virtualBlockSize
        let numLoadBlocks := (numExternalTokens + vbs - 1) / vbs
        let pending := s.pendingQueryProbes.lookup reqId
        match loadBlockIdsByGroup cfg blockIds numComputedBlocks numLoadBlocks
            ((pending.map QueryProbe.leasedBlocks).getD numLoadBlocks)
            (pending.bind fun probe => probe.result.bind
              ShardedQueryReady.blockRangesByGroup) with
        | .error e => (.error e, s.releasePendingQueryProbe cfg reqId)
        | .ok blockIdsByGroup =>
          match pending with
          | none => s.storeIntent request
              { leases := [], blockIdsByGroup, numTokens := numExternalTokens }
          | some probe =>
            match cfg.buildQuery request numComputedBlocks with
            | .error e => (.error e, s)
            | .ok (queryHashes, tailTokens) =>
              if !probe.matchesQuery numComputedBlocks queryHashes tailTokens then
                (.error s!"req {reqId} query identity changed before external load",
                  s.releasePendingQueryProbe cfg reqId)
              else
                match probe.result with
                | none => (.error "query probe is still loading", s)
                | some r =>
                  if r.numHitBlocks ≠ numLoadBlocks then
                    (.error (s!"req {reqId} leased block mismatch: " ++
                        s!"leased={r.numHitBlocks} load={numLoadBlocks}"),
                      s.releasePendingQueryProbe cfg reqId)
                  else s.storeIntent request
                    { r.toLeaseSet with blockIdsByGroup, numTokens := numExternalTokens }

end Query

/-- `_cleanup_request`: all leases of the request are due. -/
def cleanupRequest : Connector Hash :=
  let s := s.releasePendingQueryProbe cfg reqId
  { s with
    pendingSaves := s.pendingSaves.filter (· ≠ reqId)
    due := s.due ++ (List.range s.owner.length).filter fun lease => s.owner[lease]? = some reqId }

/-- `request_finished`: a request with saves under way is held. -/
def requestFinished : Connector Hash :=
  if reqId ∈ s.pendingSaves then { s with heldRequests := s.heldRequests.insert reqId }
  else s.cleanupRequest cfg reqId

/-- One round of `update_connector_output`. -/
def savesFinished : Connector Hash :=
  let s := { s with pendingSaves := s.pendingSaves.filter (· ≠ reqId) }
  if reqId ∈ s.heldRequests then
    let s := s.cleanupRequest cfg reqId
    { s with heldRequests := s.heldRequests.filter (· ≠ reqId) }
  else s

def updateConnectorOutput (finishedSending : List String) : Connector Hash :=
  finishedSending.foldl (savesFinished cfg) s

/-- `shutdown`: all leases are due. -/
def shutdown : Connector Hash :=
  let s := s.pendingQueryProbes.keys.foldl (releasePendingQueryProbe cfg) s
  { s with due := List.range s.ledger.handed }

/-- What `build_connector_meta` does to leases: the pending intents go to the workers.  Saves are
started. -/
def buildConnectorMeta (saves : List String) : Connector Hash :=
  { s with
    delivered := s.intents
    pendingLoadIntents := ∅
    pendingSaves := s.pendingSaves ∪ saves }

end Definitions

end Connector

/-- A call of the connector.  A poll comes with the answers of the backend. -/
inductive Action (Hash : Type) where
  | getNumNewMatchedTokens (request : Request Hash) (numComputedTokens : ℕ)
      (replies : List QueryReply)
  | updateStateAfterAlloc (request : Request Hash) (blocks : Option (List (List (ℕ × Bool))))
      (numExternalTokens : ℕ)
  | requestFinished (reqId : String)
  | updateConnectorOutput (finishedSending : List String)
  | buildConnectorMeta (saves : List String)
  | shutdown

namespace Connector

/-- The state in which a poll asks the backend. -/
def withReplies (s : Connector Hash) (replies : List QueryReply) : Connector Hash :=
  { s with ledger := { s.ledger with replies, log := [] } }

variable [DecidableEq Hash]

def step (cfg : LeaseConfig Hash) (s : Connector Hash) : Action Hash → Option (Connector Hash)
  | .getNumNewMatchedTokens request numComputedTokens replies =>
      some ((s.withReplies replies).getNumNewMatchedTokens cfg request numComputedTokens).2
  | .updateStateAfterAlloc request blocks numExternalTokens =>
      some (s.updateStateAfterAlloc cfg request blocks numExternalTokens).2
  | .requestFinished reqId => some (s.requestFinished cfg reqId)
  | .updateConnectorOutput finishedSending => some (s.updateConnectorOutput cfg finishedSending)
  | .buildConnectorMeta saves => some (s.buildConnectorMeta saves)
  | .shutdown => some (s.shutdown cfg)

end Connector

end Leases

end PegaFlow
