/-
PegaFlow/SaveIntents.lean

What the scheduler connector asks the workers to save (`SchedulerConnector` in
`connector/scheduler.py`).

For every request the connector keeps how far it has come: the block keys, a mirror of the
block table, the global index of the first block computed locally (`blockIndexOffset`, what
the last lookup matched), the tokens scheduled since, and the first block not stored yet.
`build_connector_meta` updates them for every scheduled request and emits a `SaveIntent` for
the blocks that have become saveable.
-/
import Mathlib.Data.List.Range
import PegaFlow.BlockHashes
import PegaFlow.KeyedLoop
import PegaFlow.LeaseConnector
import PegaFlow.Run

namespace PegaFlow

open List Function Option

/-! ### Configuration -/

/-- The group's table has an entry for every block of the request. -/
def CacheGroup.positional (g : CacheGroup) : Bool :=
  match g.kind with
  | .dense | .sliding => true
  | .recurrent | .scratch => false

/-- Some sliding-window group has blocks of another size than the dense groups. -/
def CacheGroupLayout.requiresGroupSpecificBlockMapping (layout : CacheGroupLayout) : Bool :=
  layout.groups.any fun g => g.kind = .sliding ∧
    some g.blockSize ≠ layout.groups[layout.hashGroupIndex]?.map CacheGroup.blockSize

/-- A scheduler connector whose cache groups have been accepted: group blocks that differ in
size consist of whole hash blocks and divide the scheduler block. -/
structure SaveConfig (Hash : Type) extends SchedulerConfig Hash where
  groups_ne : cacheGroups.groups ≠ []
  groupSizes : cacheGroups.requiresGroupSpecificBlockMapping →
    ∃ h, ctx.hashBlockSize = some h ∧ ∀ g ∈ cacheGroups.groups, g.positional →
      0 < g.blockSize ∧ h ∣ g.blockSize ∧ g.blockSize ∣ ctx.blockSize

/-! ### State -/

structure SaveIntent (Hash : Type) where
  blockIdsByGroup : List (List ℕ)
  blockHashes : List Hash
  blockHashesByGroup : Option (List (List Hash))
deriving DecidableEq, Repr

/-- The keys the intent gives to the blocks of group `g`. -/
def SaveIntent.hashesOf {Hash : Type} (intent : SaveIntent Hash) (g : ℕ) : List Hash :=
  intent.blockHashesByGroup.elim intent.blockHashes fun byGroup => byGroup.getD g []

/-- A save together with the step it was made in: the positions with valid KV after the
step, the request and vLLM's block tables.  The intent covers the full blocks from `hashStart`
on, and the tail block if there is one. -/
structure SaveRecord (Hash : Type) where
  written : ℕ
  request : Request Hash
  tables : List (List ℕ)
  hashStart : ℕ
  newBlocks : ℕ
  tail : Option (ℕ × Hash)
  intent : SaveIntent Hash
deriving DecidableEq, Repr

/-- The entries of one request in the dictionaries of the connector.  `_requests` has the
same ids as `_block_hashes`. -/
structure SaveState (Hash : Type) where
  blockHashes : Option (List Hash) := none
  externalMatchedBlocks : Option ℕ := none
  blockIndexOffset : Option ℕ := none
  allocatedBlocks : Option (List (List ℕ)) := none
  scheduledTokens : Option ℕ := none
  nextStoredBlockIdx : Option ℕ := none
  tailSaved : Bool := false
  pendingSaves : Bool := false
  held : Bool := false
  /-- `potential_saves` of the `build_connector_meta` call in progress -/
  potentialSave : Option (SaveRecord Hash) := none
  /-- for the record: vLLM's block tables when the connector last heard of them -/
  tables : List (List ℕ) := []
  /-- for the record: the saves emitted so far -/
  saves : List (SaveRecord Hash) := []

abbrev SaveConnector (Hash : Type) := String → SaveState Hash

structure NewReq where
  reqId : String
  blockIds : List (List ℕ)
  numComputedTokens : ℕ

/-- A running request.  `newBlockIds` is empty where vLLM reports none. -/
structure CachedReq where
  reqId : String
  newBlockIds : List (List ℕ)
  resumed : Bool
  numComputedTokens : ℕ

structure SchedulerOutput (Hash : Type) where
  newReqs : List NewReq
  cachedReqs : List CachedReq
  numScheduledTokens : String → ℕ
  /-- `kv_connector_block_state.block_ids`: block tables, where vLLM publishes them -/
  blockState : List (String × List (List ℕ))
  /-- destinations of `kv_cache_block_copies` -/
  blockCopies : List ℕ
  requests : String → Request Hash
  /-- for the record: vLLM's own block tables after this step -/
  blockTables : String → List (List ℕ)

/-- What the backend answers: the hit, and with recurrent groups the positions it may end
at. -/
structure LookupReply where
  hitBlocks : ℕ
  usablePositions : Option (List ℕ)
deriving DecidableEq, Repr

variable {Hash : Type}

/-! ### Lookups -/

/-- `_finish_cache_lookup`, as far as `_external_matched_blocks` goes; `none` if it is left
alone. -/
def finishCacheLookup (ctx : ConnectorContext) (numTokens computedBlocks queryLen tailTokens : ℕ)
    (reply : LookupReply) : Option ℕ :=
  let vbs := ctx.virtualBlockSize
  let hitTokens := ctx.hitTokens numTokens computedBlocks queryLen tailTokens reply.hitBlocks
  match reply.usablePositions with
  | none => some (computedBlocks + (hitTokens.toNat + vbs - 1) / vbs)
  | some positions =>
      (ctx.lastCheckpoint hitTokens positions).map fun checkpoint =>
        computedBlocks + ((checkpoint + 1) * vbs + vbs - 1) / vbs

variable (cfg : SaveConfig Hash)

namespace SaveState

/-- `get_num_new_matched_tokens`; no reply while the backend is loading. -/
def getNumNewMatchedTokens (req : Request Hash) (numComputedTokens : ℕ)
    (reply : Option LookupReply) (st : SaveState Hash) : Except String (SaveState Hash) :=
  if !cfg.ctx.readEnabled then .ok st
  else do
    let computedBlocks := numComputedTokens / cfg.ctx.virtualBlockSize
    let query ← cfg.buildQuery req computedBlocks
    if query.1.isEmpty then return { st with externalMatchedBlocks := some computedBlocks }
    match reply with
    | none => return st
    | some reply =>
        if query.1.length < reply.hitBlocks then
          .error (s!"invariant violated: server returned {reply.hitBlocks} hits for " ++
            s!"{query.1.length} hashes")
        else
          match finishCacheLookup cfg.ctx req.numTokens computedBlocks query.1.length query.2
              reply with
          | none => return st
          | some n => return { st with externalMatchedBlocks := some n }

/-- `update_state_after_alloc`, without the load. -/
def updateStateAfterAlloc (req : Request Hash) (st : SaveState Hash) :
    Except String (SaveState Hash) := do
  let blockHashes ← requestBlockHashes cfg.ctx req none
  match st.allocatedBlocks with
  | some _ => return { st with blockHashes := some blockHashes }
  | none =>
      let baseBlockIdx := st.externalMatchedBlocks.getD 0
      return { st with
        blockHashes := some blockHashes
        blockIndexOffset := some baseBlockIdx
        allocatedBlocks := some (replicate cfg.cacheGroups.groupCount [])
        tables := replicate cfg.cacheGroups.groupCount []
        scheduledTokens := some 0
        nextStoredBlockIdx := some baseBlockIdx }

/-! ### Saves of one request -/

/-- `_rebase_resumed_request` -/
def rebaseResumedRequest (st : SaveState Hash) : SaveState Hash :=
  let baseBlockIdx := st.externalMatchedBlocks.getD 0
  { st with
    blockIndexOffset := some baseBlockIdx
    scheduledTokens := some 0
    nextStoredBlockIdx := some (max (st.nextStoredBlockIdx.getD 0) baseBlockIdx) }

/-- The scheduled tokens after a step that schedules `n` tokens on top of
`numComputedTokens`. -/
def scheduledAfter (ctx : ConnectorContext) (st : SaveState Hash) (numComputedTokens n : ℕ) : ℕ :=
  if ctx.readEnabled then st.scheduledTokens.getD 0 + n
  else max (st.scheduledTokens.getD 0) (numComputedTokens + n)

end SaveState

structure FullSave (Hash : Type) where
  hashStart : ℕ
  newBlocks : ℕ
  intent : SaveIntent Hash

structure TailSave (Hash : Type) where
  tailIdx : ℕ
  tailKey : Hash
  intent : SaveIntent Hash

/-- `l[start : start + count]` -/
def slice {α : Type*} (l : List α) (start count : ℕ) : List α := (l.drop start).take count

variable (live : Request Hash)

/-- Ids and keys of one group in its own blocks. -/
def groupSlices (start count : ℕ) (g : CacheGroup × List ℕ) : Except String (List ℕ × List Hash) :=
  if !g.1.positional then .ok ([], [])
  else do
    let hashes ← requestBlockHashes cfg.ctx live (some g.1.blockSize)
    let ratio := cfg.ctx.virtualBlockSize / (g.1.blockSize * cfg.ctx.dcpWorldSize)
    return (slice g.2 (start * ratio) (count * ratio), slice hashes (start * ratio) (count * ratio))

/-- `_consume_full_block_saves`, given the keys of the request; the caller moves
`nextStoredBlockIdx` to the end of the save. -/
def consumeFullBlockSaves (blockHashes : List Hash)
    (st : SaveState Hash) : Except String (Option (FullSave Hash)) :=
  let allocated := cfg.cacheGroups.groups.zip (st.allocatedBlocks.getD [])
  let baseBlockIdx := st.blockIndexOffset.getD 0
  let startBlockIdx := st.nextStoredBlockIdx.getD baseBlockIdx
  let attentionLengths := (allocated.filter (·.1.positional)).map (·.2.length)
  let saveableBlockIdx := min (min blockHashes.length (attentionLengths.min?.getD 0))
    (baseBlockIdx + st.scheduledTokens.getD 0 / cfg.ctx.virtualBlockSize)
  let newBlocks := saveableBlockIdx - startBlockIdx
  if newBlocks = 0 then .ok none
  else
    let saveHashes := slice blockHashes startBlockIdx newBlocks
    if cfg.cacheGroups.requiresGroupSpecificBlockMapping then do
      let mapped ← allocated.mapM (groupSlices cfg live startBlockIdx newBlocks)
      return some
        { hashStart := startBlockIdx
          newBlocks
          intent :=
            { blockIdsByGroup := mapped.map Prod.fst
              blockHashes := saveHashes
              blockHashesByGroup := some (mapped.map Prod.snd) } }
    else
      .ok (some
        { hashStart := startBlockIdx
          newBlocks
          intent :=
            { blockIdsByGroup := allocated.map fun g =>
                if g.1.positional then slice g.2 startBlockIdx newBlocks
                else replicate newBlocks 0
              blockHashes := saveHashes
              blockHashesByGroup := none } })

/-- `_consume_tail_save` -/
def consumeTailSave (written : ℕ)
    (blockHashes : List Hash) (st : SaveState Hash) : Except String (Option (TailSave Hash)) :=
  if !cfg.tailSaveEnabled || st.tailSaved || cfg.cacheGroups.has .sliding then .ok none
  else do
    match ← cfg.deriveTailBlock live with
    | none => return none
    | some (tailKey, _) =>
        let tailIdx := live.numPromptTokens / cfg.ctx.virtualBlockSize
        let allocated := st.allocatedBlocks.getD []
        if written < live.numPromptTokens then return none
        if allocated = [] ∨ (∃ table ∈ allocated, table.length ≤ tailIdx) ∨
            blockHashes.length < tailIdx then
          return none
        return some
          { tailIdx
            tailKey
            intent :=
              { blockIdsByGroup := allocated.map fun table => table[tailIdx]?.toList
                blockHashes := [tailKey]
                blockHashesByGroup := none } }

/-- The intent for a full save and a tail save. -/
def mergeSaves (written : ℕ) (request : Request Hash) (tables : List (List ℕ)) :
    Option (FullSave Hash) → Option (TailSave Hash) → Option (SaveRecord Hash)
  | none, none => none
  | some full, none => some
      { written, request, tables, hashStart := full.hashStart, newBlocks := full.newBlocks
        tail := none, intent := full.intent }
  | none, some tail => some
      { written, request, tables, hashStart := 0, newBlocks := 0
        tail := some (tail.tailIdx, tail.tailKey), intent := tail.intent }
  | some full, some tail => some
      { written, request, tables, hashStart := full.hashStart, newBlocks := full.newBlocks
        tail := some (tail.tailIdx, tail.tailKey)
        intent :=
          { blockIdsByGroup :=
              zipWith (· ++ ·) full.intent.blockIdsByGroup tail.intent.blockIdsByGroup
            blockHashes := full.intent.blockHashes ++ tail.intent.blockHashes
            blockHashesByGroup := none } }

/-- `_consume_save_intent` -/
def consumeSaveIntent (written : ℕ) (st : SaveState Hash) : Except String (SaveState Hash) :=
  match st.blockHashes with
  | none => .ok st
  | some blockHashes => do
      let full ← consumeFullBlockSaves cfg live blockHashes st
      let tail ← consumeTailSave cfg live written blockHashes st
      return { st with
        nextStoredBlockIdx :=
          full.elim st.nextStoredBlockIdx fun full => some (full.hashStart + full.newBlocks)
        tailSaved := st.tailSaved || tail.isSome
        potentialSave := mergeSaves written live st.tables full tail }

/-! ### `build_connector_meta` -/

/-- A scheduled request, of either kind. -/
inductive ScheduledReq where
  | new (q : NewReq)
  | cached (q : CachedReq)

namespace ScheduledReq

def reqId : ScheduledReq → String
  | new q => q.reqId
  | cached q => q.reqId

def numComputedTokens : ScheduledReq → ℕ
  | new q => q.numComputedTokens
  | cached q => q.numComputedTokens

/-- The bookkeeping is restarted.  vLLM may report a resumed request as a new one. -/
def rebased : ScheduledReq → Bool
  | new _ => true
  | cached q => q.resumed

end ScheduledReq

variable (out : SchedulerOutput Hash) (q : ScheduledReq) (reqId : String)

namespace SchedulerOutput

def scheduled : List ScheduledReq :=
  out.newReqs.map .new ++ out.cachedReqs.map .cached

def hasSnapshot : Bool :=
  (out.blockState.map Prod.fst).contains reqId

/-- Positions with valid KV once this step has run. -/
def written : ℕ :=
  q.numComputedTokens + out.numScheduledTokens q.reqId

/-- Blocks handed out in this step, for requests without a snapshot. -/
def newBlocks : List (String × List (List ℕ)) :=
  (out.newReqs.map (fun q => (q.reqId, q.blockIds)) ++
    out.cachedReqs.map (fun q => (q.reqId, q.newBlockIds))).filter fun e => !out.hasSnapshot e.1

/-- The requests that own block `b` of group `g`. -/
def owners (g b : ℕ) : List String :=
  ((out.blockState ++ out.newBlocks).filter fun e => (e.2.getD g []).contains b).map Prod.fst

def reallocated (b : ℕ) : Bool :=
  out.newBlocks.any (fun e => e.2.any fun ids => ids.contains b) || out.blockCopies.contains b

/-- The test of `_filter_reallocated_sliding_sources`. -/
def dropsSource (g b : ℕ) : Bool :=
  b ≠ 0 && !(out.owners g b).contains reqId && (!(out.owners g b).isEmpty || out.reallocated b)

end SchedulerOutput

/-- The mirror of the block table of a scheduled request. -/
def refreshAllocated (allocated : Option (List (List ℕ))) :
    Except String (Option (List (List ℕ))) :=
  match q with
  | .new q =>
      if out.hasSnapshot q.reqId || q.blockIds.isEmpty then .ok allocated
      else do return some (← cfg.copyBlockIdsByGroup q.blockIds)
  | .cached q =>
      -- the snapshot already includes the new blocks
      if out.hasSnapshot q.reqId then .ok allocated
      else if q.resumed then
        if q.newBlockIds.isEmpty then .ok (some (replicate cfg.cacheGroups.groupCount []))
        else do return some (← cfg.copyBlockIdsByGroup q.newBlockIds)
      else if q.newBlockIds.isEmpty then .ok allocated
      else
        match allocated with
        | none => .error (s!"KeyError: {q.reqId}")
        | some allocated => do
            return some (zipWith (· ++ ·) allocated (← cfg.copyBlockIdsByGroup q.newBlockIds))

variable (st : SaveState Hash)

/-- Keys and block table of a scheduled request; `none` for a running request that the
connector does not know. -/
def refreshScheduled : Except String (Option (SaveState Hash)) :=
  match q, st.blockHashes with
  | .new q, none => .error (s!"req {q.reqId} not initialized in update_state_after_alloc")
  | .cached _, none => .ok none
  | .new _, some _ => do
      return some
        { st with allocatedBlocks := ← refreshAllocated cfg out q st.allocatedBlocks }
  | .cached q', some _ => do
      let blockHashes ← requestBlockHashes cfg.ctx (out.requests q'.reqId) none
      return some
        { st with
          blockHashes := some blockHashes
          allocatedBlocks := ← refreshAllocated cfg out q st.allocatedBlocks }

/-- Progress of a scheduled request whose table is up to date, and its save. -/
def consumeScheduled : Except String (SaveState Hash) :=
  let st := if q.rebased then st.rebaseResumedRequest else st
  if st.scheduledTokens.isNone then .error (s!"KeyError: {q.reqId}")
  else consumeSaveIntent cfg (out.requests q.reqId) (out.written q)
    { st with
      scheduledTokens := some
        (st.scheduledAfter cfg.ctx q.numComputedTokens (out.numScheduledTokens q.reqId))
      tables := out.blockTables q.reqId }

/-- The body of the loops over new and over running requests. -/
def processScheduled : Except String (SaveState Hash) := do
  match ← refreshScheduled cfg out q st with
  | none => return st
  | some st => consumeScheduled cfg out q st

/-- The snapshot of vLLM's block tables replaces the mirror. -/
def refreshTables (e : String × List (List ℕ)) (st : SaveState Hash) :
    Except String (SaveState Hash) := do
  let blockIds ← cfg.copyBlockIdsByGroup e.2
  return { st with allocatedBlocks := some blockIds, tables := blockIds }

/-- `_filter_reallocated_sliding_sources`, for one save. -/
def filterReallocatedSlidingSources (save : SaveRecord Hash) : SaveRecord Hash :=
  { save with
    intent :=
      { save.intent with
        blockIdsByGroup := save.intent.blockIdsByGroup.mapIdx fun g ids =>
          if cfg.cacheGroups.groups[g]?.map CacheGroup.kind = some .sliding then
            ids.map fun b => if out.dropsSource reqId g b then 0 else b
          else ids } }

/-- The potential save of the request goes out. -/
def emitSave (st : SaveState Hash) : SaveState Hash :=
  match st.potentialSave with
  | none => st
  | some save =>
      { st with
        potentialSave := none
        pendingSaves := true
        saves := st.saves ++ [filterReallocatedSlidingSources cfg out reqId save] }

variable (s : SaveConnector Hash)

def buildConnectorMeta : Except String (SaveConnector Hash) := do
  let s ← updateAll Prod.fst (refreshTables cfg) out.blockState s
  let s ← updateAll ScheduledReq.reqId (processScheduled cfg out) out.scheduled s
  return fun reqId => emitSave cfg out reqId (s reqId)

/-! ### The connector -/

inductive SaveAction (Hash : Type) where
  | getNumNewMatchedTokens (req : Request Hash) (numComputedTokens : ℕ) (reply : Option LookupReply)
  | updateStateAfterAlloc (req : Request Hash)
  | buildConnectorMeta (out : SchedulerOutput Hash)
  | requestFinished (reqId : String)
  /-- `update_connector_output`: the workers have saved what there was to save -/
  | finishedSending (reqId : String)

namespace SaveConnector

def init : SaveConnector Hash := fun _ => {}

/-- An operation on the entries of one request. -/
def onRequest (reqId : String)
    (op : SaveState Hash → Except String (SaveState Hash)) : Option (SaveConnector Hash) :=
  (op (s reqId)).toOption.map (update s reqId)

def step : SaveAction Hash → Option (SaveConnector Hash)
  | .getNumNewMatchedTokens req numComputedTokens reply =>
      s.onRequest req.requestId (SaveState.getNumNewMatchedTokens cfg req numComputedTokens reply)
  | .updateStateAfterAlloc req =>
      s.onRequest req.requestId (SaveState.updateStateAfterAlloc cfg req)
  | .buildConnectorMeta out => (PegaFlow.buildConnectorMeta cfg out s).toOption
  | .requestFinished reqId =>
      s.onRequest reqId fun st => .ok (if st.pendingSaves then { st with held := true } else {})
  | .finishedSending reqId =>
      s.onRequest reqId fun st => .ok (if st.held then {} else { st with pendingSaves := false })

end SaveConnector

/-! ### What a save should be -/

section Sound

variable (span : ℕ → Hash)

/-- Tokens per block of the group. -/
def SaveConfig.groupVbs (g : CacheGroup) : ℕ :=
  if cfg.cacheGroups.requiresGroupSpecificBlockMapping then g.blockSize * cfg.ctx.dcpWorldSize
  else cfg.ctx.virtualBlockSize

/-- Blocks of the group per scheduler block. -/
def SaveConfig.ratio (g : CacheGroup) : ℕ := cfg.ctx.virtualBlockSize / cfg.groupVbs g

/-- The key of block `b` of the group: the chained hash at its end. -/
def SaveConfig.groupKey (g : CacheGroup) (b : ℕ) : Hash :=
  let scale := cfg.groupVbs g / cfg.ctx.spanSize
  span (b * scale + (scale - 1))

variable (save : SaveRecord Hash)

/-- The full blocks a save covers. -/
def SaveRecord.indices : List ℕ :=
  range' save.hashStart save.newBlocks

/-- The save pairs the keys of the blocks of a group with the entries of its table: as many
keys as entries, and both run through the same blocks. -/
def SaveRecord.PairsGroup (gi : ℕ) (g : CacheGroup) (table : List ℕ) : Prop :=
  ∃ ids, save.intent.blockIdsByGroup[gi]? = some ids ∧
    ids.length = (save.intent.hashesOf gi).length ∧
    ids.map some =
      (range' (save.hashStart * cfg.ratio g) (save.newBlocks * cfg.ratio g)).map (table[·]?) ++
        (save.tail.map fun t => table[t.1]?).toList ∧
    save.intent.hashesOf gi =
      (range' (save.hashStart * cfg.ratio g) (save.newBlocks * cfg.ratio g)).map
        (cfg.groupKey span g) ++ (save.tail.map Prod.snd).toList

/-- What a single save has to meet. -/
structure SaveRecord.Sound : Prop where
  pairs : ∀ gi g table, cfg.cacheGroups.groups[gi]? = some g → g.positional →
    save.tables[gi]? = some table → save.PairsGroup cfg span gi g table
  computed : ∀ i ∈ save.indices, (i + 1) * cfg.ctx.virtualBlockSize ≤ save.written
  tail : ∀ t ∈ save.tail, t.1 = save.request.numPromptTokens / cfg.ctx.virtualBlockSize ∧
    t.2 = cfg.tailKey span save.request ∧ save.request.numPromptTokens ≤ save.written

/-- **Saves are sound**: of every request, each save pairs keys and table entries of the same
blocks and covers only blocks that are computed by the end of its step, and no full block is
saved twice. -/
def SaveConnector.SavesSound (span : String → ℕ → Hash) (s : SaveConnector Hash) : Prop :=
  ∀ reqId, (∀ save ∈ (s reqId).saves, save.Sound cfg (span reqId)) ∧
    ((s reqId).saves.flatMap SaveRecord.indices).Nodup

end Sound

/-! ### What vLLM provides, and the condition -/

section Conditions

variable (cfg : SaveConfig Hash) (span : String → ℕ → Hash) (out : SchedulerOutput Hash)

/-- What vLLM tells of the block table adds up to the table it has. -/
def TablesAgree (st : SaveState Hash) : ScheduledReq → Prop
  | .new q => out.hasSnapshot q.reqId = false → q.blockIds = out.blockTables q.reqId
  | .cached q => out.hasSnapshot q.reqId = false →
      if q.resumed then q.newBlockIds = out.blockTables q.reqId
      else out.blockTables q.reqId =
        if q.newBlockIds.isEmpty then st.tables else zipWith (· ++ ·) st.tables q.newBlockIds

/-- A scheduled request as vLLM provides it: its hashes are complete, it has lost no token
that the connector has a key for, and its block tables cover the tokens scheduled. -/
structure EntryValid (st : SaveState Hash) (q : ScheduledReq) : Prop where
  hashed : (out.requests q.reqId).Hashed cfg.ctx (span q.reqId)
  prompt : (out.requests q.reqId).numPromptTokens ≤ (out.requests q.reqId).numTokens
  kept : ∀ hashes ∈ st.blockHashes,
    hashes.length * cfg.ctx.virtualBlockSize ≤ (out.requests q.reqId).numTokens
  tables : (out.blockTables q.reqId).length = cfg.cacheGroups.groupCount
  agree : TablesAgree out st q
  covers : ∀ e ∈ cfg.cacheGroups.groups.zip (out.blockTables q.reqId), e.1.positional →
    out.written q ≤ e.2.length * cfg.groupVbs e.1

/-- A call as vLLM makes it.  `span` gives the chained hashes of each request. -/
def SaveConnector.Valid (s : SaveConnector Hash) : SaveAction Hash → Prop
  | .updateStateAfterAlloc req => req.Hashed cfg.ctx (span req.requestId)
  | .buildConnectorMeta out =>
      (out.scheduled.map ScheduledReq.reqId).Nodup ∧ (out.blockState.map Prod.fst).Nodup ∧
        (∀ e ∈ out.blockState, e.2 = out.blockTables e.1) ∧
        ∀ q ∈ out.scheduled, EntryValid cfg span out (s q.reqId) q
  | _ => True

/-- The position up to which the connector takes a request to be computed after the step. -/
def SaveState.position (st : SaveState Hash) (q : ScheduledReq) : ℕ :=
  let st := if q.rebased then st.rebaseResumedRequest else st
  st.blockIndexOffset.getD 0 * cfg.ctx.virtualBlockSize +
    st.scheduledAfter cfg.ctx q.numComputedTokens (out.numScheduledTokens q.reqId)

/-- **The connector is in step with vLLM**: for every scheduled request, its position is not
ahead of what vLLM has computed by the end of the step, or the step computes all tokens of
the request; and no block of its sliding-window groups has been given to another request. -/
def SaveConnector.InStep (s : SaveConnector Hash) : SaveAction Hash → Prop
  | .buildConnectorMeta out => ∀ q ∈ out.scheduled,
      ((s q.reqId).position cfg out q ≤ out.written q ∨
        (out.requests q.reqId).numTokens ≤ out.written q) ∧
      ∀ e ∈ (cfg.cacheGroups.groups.zip (out.blockTables q.reqId)).zipIdx,
        e.1.1.kind = .sliding → ∀ b ∈ e.1.2, out.dropsSource q.reqId e.2 b = false
  | _ => True

variable [DecidableEq Hash]

instance (req : Request Hash) (ctx : ConnectorContext) (span : ℕ → Hash) :
    Decidable (req.Hashed ctx span) :=
  decidable_of_iff (_ ∧ _ ∧ _) ⟨fun h => ⟨h.1, h.2.1, h.2.2⟩, fun h => ⟨h.1, h.2, h.3⟩⟩

instance (st : SaveState Hash) (q : ScheduledReq) : Decidable (TablesAgree out st q) :=
  match q with
  | .new _ => inferInstanceAs (Decidable (_ → _))
  | .cached _ => inferInstanceAs (Decidable (_ → _))

instance (st : SaveState Hash) (q : ScheduledReq) : Decidable (EntryValid cfg span out st q) :=
  decidable_of_iff (_ ∧ _ ∧ _ ∧ _ ∧ _ ∧ _)
    ⟨fun h => ⟨h.1, h.2.1, h.2.2.1, h.2.2.2.1, h.2.2.2.2.1, h.2.2.2.2.2⟩,
      fun h => ⟨h.1, h.2, h.3, h.4, h.5, h.6⟩⟩

instance (s : SaveConnector Hash) (a : SaveAction Hash) : Decidable (s.Valid cfg span a) :=
  match a with
  | .updateStateAfterAlloc _ => inferInstanceAs (Decidable (Request.Hashed _ _ _))
  | .buildConnectorMeta _ => inferInstanceAs (Decidable (_ ∧ _ ∧ _ ∧ _))
  | .getNumNewMatchedTokens .. | .requestFinished _ | .finishedSending _ =>
      inferInstanceAs (Decidable True)

instance (s : SaveConnector Hash) (a : SaveAction Hash) : Decidable (s.InStep cfg a) :=
  match a with
  | .buildConnectorMeta out => inferInstanceAs (Decidable (∀ q ∈ out.scheduled, _ ∧ _))
  | .getNumNewMatchedTokens .. | .updateStateAfterAlloc _ | .requestFinished _
  | .finishedSending _ => inferInstanceAs (Decidable True)

end Conditions

/-! ### Matched blocks -/

section Matched

open Leases (LeaseConfig QueryProbe ShardedQueryReady Connector)

variable {reqId} {cfg : LeaseConfig Hash} {s s' : Connector Hash} {tokens : ℤ}

theorem settle_offers {hitTokens : ℤ}
    (h : s.settle cfg reqId hitTokens = (.ok (some tokens, true), s')) : tokens = hitTokens := by
  unfold Connector.settle at h
  split at h
  · cases h
  · cases h
    rfl

/-- **Lookups agree**: the blocks that are noted as matched are those of the tokens which the lookup
with its leases offers to vLLM. -/
theorem finishCacheLookup_of_offer {request : Request Hash} {probe : QueryProbe Hash}
    {r : ShardedQueryReady} (hready : probe.result = some r)
    (h : s.finishCacheLookup cfg request probe = (.ok (some tokens, true), s')) :
    finishCacheLookup cfg.ctx request.numTokens probe.computedBlocks probe.queryHashes.length
        probe.tailTokens ⟨r.numHitBlocks, r.recurrentHold.map fun _ => r.usablePositions⟩ =
      some (probe.computedBlocks +
        (tokens.toNat + cfg.ctx.virtualBlockSize - 1) / cfg.ctx.virtualBlockSize) := by
  unfold Connector.finishCacheLookup at h
  rw [hready] at h
  dsimp only at h
  cases hhold : r.recurrentHold with
  | none =>
    rw [hhold] at h
    rw [settle_offers h]
    rfl
  | some hold =>
    rw [hhold] at h
    dsimp only at h
    split at h
    · cases h
    · next checkpoint hcheckpoint =>
      rw [settle_offers h]
      exact congrArg (Option.map _) hcheckpoint

end Matched

/-! ### Slices -/

theorem map_some_slice {α : Type*} {l : List α} {start count : ℕ} (h : start + count ≤ l.length) :
    (slice l start count).map some = (range' start count).map (l[·]?) := by
  apply ext_getElem?
  intro i
  simp only [slice, getElem?_map, getElem?_take, getElem?_drop]
  by_cases hi : i < count
  · have hlt : start + i < l.length := by omega
    simp [hi, hlt]
  · simp [hi]

theorem slice_map_range {α : Type*} (f : ℕ → α) {n start count : ℕ} (h : start + count ≤ n) :
    slice ((List.range n).map f) start count = (List.range' start count).map f := by
  apply map_injective_iff.mpr (fun _ _ => Option.some.inj)
  rw [map_some_slice (by simpa using h), List.map_map]
  refine map_congr_left fun i hi => ?_
  rw [mem_range'_1] at hi
  simp [show i < n by omega]

/-! ### Group blocks -/

variable {cfg live out q reqId} {g : CacheGroup} {req : Request Hash} {span : ℕ → Hash}
  {st' : SaveState Hash} {written : ℕ} {full : Option (FullSave Hash)}
  {tail : Option (TailSave Hash)} {tables : List (List ℕ)} {save : SaveRecord Hash}

namespace SaveConfig

/-- A scheduler block consists of whole blocks of the group. -/
theorem ratio_mul_groupVbs (hg : g ∈ cfg.cacheGroups.groups) (hpos : g.positional) :
    cfg.ratio g * cfg.groupVbs g = cfg.ctx.virtualBlockSize := by
  unfold ratio groupVbs
  split
  · next hmap =>
    obtain ⟨h, -, hsizes⟩ := cfg.groupSizes hmap
    exact Nat.div_mul_cancel (Nat.mul_dvd_mul_right (hsizes g hg hpos).2.2 _)
  · exact Nat.div_mul_cancel (Nat.dvd_refl _)

theorem groupVbs_pos (hg : g ∈ cfg.cacheGroups.groups) (hpos : g.positional) : 0 < cfg.groupVbs g :=
  Nat.pos_of_mul_pos_left (ratio_mul_groupVbs hg hpos ▸ cfg.ctx.virtualBlockSize_pos)

end SaveConfig

theorem requestBlockHashes_group (h : req.Hashed cfg.ctx span) (hg : g ∈ cfg.cacheGroups.groups)
    (hpos : g.positional = true) (hmap : cfg.cacheGroups.requiresGroupSpecificBlockMapping = true) :
    requestBlockHashes cfg.ctx req (some g.blockSize) =
      .ok ((List.range (req.numTokens / cfg.groupVbs g)).map (cfg.groupKey span g)) := by
  obtain ⟨k, hk, hsizes⟩ := cfg.groupSizes hmap
  obtain ⟨hsize, hdvd, -⟩ := hsizes g hg hpos
  have hspan : cfg.ctx.spanSize = k := by simp [ConnectorContext.spanSize, hk]
  have hvbs : cfg.groupVbs g = g.blockSize * cfg.ctx.dcpWorldSize := by
    simp [SaveConfig.groupVbs, hmap]
  have hkdvd : k ∣ g.blockSize * cfg.ctx.dcpWorldSize :=
    Nat.dvd_mul_right_of_dvd hdvd _
  have hkpos : 0 < k := hspan ▸ cfg.ctx.spanSize_pos
  have hscale : 0 < g.blockSize * cfg.ctx.dcpWorldSize / k :=
    Nat.div_pos (Nat.le_of_dvd (Nat.mul_pos hsize cfg.ctx.dcpWorldSize_pos) hkdvd) hkpos
  rw [requestBlockHashes_scaled h hscale (by rw [hk]), hspan, Nat.mul_div_cancel' hkdvd]
  simp [SaveConfig.groupKey, hspan, hvbs]

/-! ### A save of full blocks -/

section Consume

variable {st} {hashes : List Hash}

/-- How far the blocks of a full save reach. -/
structure FullSave.Bounds (cfg : SaveConfig Hash) (hashes : List Hash) (st : SaveState Hash)
    (full : FullSave Hash) : Prop where
  start : full.hashStart = st.nextStoredBlockIdx.getD (st.blockIndexOffset.getD 0)
  hashes : full.hashStart + full.newBlocks ≤ hashes.length
  scheduled : full.hashStart + full.newBlocks ≤
    st.blockIndexOffset.getD 0 + st.scheduledTokens.getD 0 / cfg.ctx.virtualBlockSize

/-- The intent of a full save, group by group: each in the blocks of its own. -/
def FullSave.Slices (cfg : SaveConfig Hash) (live : Request Hash) (hashes : List Hash)
    (st : SaveState Hash) (full : FullSave Hash) : Prop :=
  if cfg.cacheGroups.requiresGroupSpecificBlockMapping then
    ∃ mapped, (cfg.cacheGroups.groups.zip (st.allocatedBlocks.getD [])).mapM
        (groupSlices cfg live full.hashStart full.newBlocks) = .ok mapped ∧
      full.intent = ⟨mapped.map Prod.fst, slice hashes full.hashStart full.newBlocks,
        some (mapped.map Prod.snd)⟩
  else full.intent = ⟨(cfg.cacheGroups.groups.zip (st.allocatedBlocks.getD [])).map fun e =>
      if e.1.positional then slice e.2 full.hashStart full.newBlocks
      else replicate full.newBlocks 0,
    slice hashes full.hashStart full.newBlocks, none⟩

theorem consumeFullBlockSaves_some {full : FullSave Hash}
    (h : consumeFullBlockSaves cfg live hashes st = .ok (some full)) :
    full.Bounds cfg hashes st ∧ full.Slices cfg live hashes st := by
  unfold consumeFullBlockSaves at h
  dsimp only at h
  set base := st.blockIndexOffset.getD 0 with hbase
  set start := st.nextStoredBlockIdx.getD base with hstart
  set saveable := min (min hashes.length _)
    (base + st.scheduledTokens.getD 0 / cfg.ctx.virtualBlockSize) with hsaveable
  split at h
  · cases h
  · next hne =>
    have hbounds : ∀ intent, FullSave.Bounds cfg hashes st ⟨start, saveable - start, intent⟩ := by
      intro intent
      constructor
      · rfl
      · dsimp only
        omega
      · dsimp only
        omega
    split at h
    · next hmap =>
      obtain ⟨mapped, hm, ⟨⟩⟩ := bind_ok h
      refine ⟨hbounds _, ?_⟩
      rw [FullSave.Slices, if_pos hmap]
      exact ⟨mapped, hm, rfl⟩
    · next hmap =>
      cases h
      refine ⟨hbounds _, ?_⟩
      rw [FullSave.Slices, if_neg hmap]

variable {gi : ℕ} {table : List ℕ}

/-- The keys are those of full blocks of the request. -/
structure KeysOf (cfg : SaveConfig Hash) (span : ℕ → Hash) (live : Request Hash)
    (hashes : List Hash) : Prop where
  keys : hashes = (range hashes.length).map (blockKey cfg.ctx span)
  hashed : live.Hashed cfg.ctx span
  tokens : hashes.length * cfg.ctx.virtualBlockSize ≤ live.numTokens

/-- The full save pairs entries of the table of a group with the keys of the same blocks. -/
def FullSave.PairsGroup (cfg : SaveConfig Hash) (span : ℕ → Hash) (full : FullSave Hash) (gi : ℕ)
    (g : CacheGroup) (table : List ℕ) : Prop :=
  let blocks := range' (full.hashStart * cfg.ratio g) (full.newBlocks * cfg.ratio g)
  ∃ ids, full.intent.blockIdsByGroup[gi]? = some ids ∧ ids.map some = blocks.map (table[·]?) ∧
    full.intent.hashesOf gi = blocks.map (cfg.groupKey span g)

theorem FullSave.Slices.group {full : FullSave Hash} (h : full.Slices cfg live hashes st)
    (hbound : full.hashStart + full.newBlocks ≤ hashes.length) (hkeys : KeysOf cfg span live hashes)
    (halloc : st.allocatedBlocks = some tables) (hg : cfg.cacheGroups.groups[gi]? = some g)
    (hpos : g.positional = true) (htable : tables[gi]? = some table)
    (hcovers : (full.hashStart + full.newBlocks) * cfg.ctx.virtualBlockSize ≤
      table.length * cfg.groupVbs g) : full.PairsGroup cfg span gi g table := by
  have hmem := mem_of_getElem? hg
  have hvbs := SaveConfig.groupVbs_pos hmem hpos
  have hratio := SaveConfig.ratio_mul_groupVbs hmem hpos
  -- the blocks of the save, counted in blocks of the group
  have hend : full.hashStart * cfg.ratio g + full.newBlocks * cfg.ratio g =
      (full.hashStart + full.newBlocks) * cfg.ratio g := (Nat.add_mul ..).symm
  have hfits : full.hashStart * cfg.ratio g + full.newBlocks * cfg.ratio g ≤ table.length := by
    rw [hend]
    refine Nat.le_of_mul_le_mul_right ?_ hvbs
    rwa [Nat.mul_assoc, hratio]
  have hzip : (cfg.cacheGroups.groups.zip (st.allocatedBlocks.getD []))[gi]? = some (g, table) := by
    rw [halloc, getElem?_zip_eq_some]
    exact ⟨hg, htable⟩
  unfold FullSave.Slices at h
  split at h
  · next hmap =>
    obtain ⟨mapped, hm, hintent⟩ := h
    obtain ⟨y, hy, hslices⟩ := forall₂_getElem? (mapM_forall₂ hm) hzip
    have hkeysFit : full.hashStart * cfg.ratio g + full.newBlocks * cfg.ratio g ≤
        live.numTokens / cfg.groupVbs g := by
      rw [hend, Nat.le_div_iff_mul_le hvbs, Nat.mul_assoc, hratio]
      exact (Nat.mul_le_mul_right _ hbound).trans hkeys.tokens
    have hdef : cfg.ctx.virtualBlockSize / (g.blockSize * cfg.ctx.dcpWorldSize) = cfg.ratio g := by
      rw [SaveConfig.ratio, SaveConfig.groupVbs, if_pos hmap]
    rw [groupSlices, requestBlockHashes_group hkeys.hashed hmem hpos hmap] at hslices
    simp only [hpos, hdef, bind, Except.bind, Bool.not_true, Bool.false_eq_true, if_false]
      at hslices
    cases hslices
    unfold FullSave.PairsGroup
    rw [hintent]
    refine ⟨_, by simp [hy], map_some_slice hfits, ?_⟩
    simp [SaveIntent.hashesOf, hy, slice_map_range _ hkeysFit]
  · next hmap =>
    have hone : cfg.ratio g = 1 := by
      rw [SaveConfig.ratio, SaveConfig.groupVbs, if_neg hmap]
      exact Nat.div_self cfg.ctx.virtualBlockSize_pos
    have hkey : cfg.groupKey span g = blockKey cfg.ctx span := by
      funext b
      simp only [SaveConfig.groupKey, SaveConfig.groupVbs, if_neg hmap]
      rfl
    unfold FullSave.PairsGroup
    rw [hone, Nat.mul_one, Nat.mul_one] at hfits ⊢
    rw [h, hkey]
    refine ⟨_, by simp [hzip, hpos], map_some_slice hfits, ?_⟩
    rw [SaveIntent.hashesOf]
    dsimp only [Option.elim]
    rw [hkeys.keys, slice_map_range _ hbound]

/-! ### A save of the tail block, and both together -/

/-- What `_consume_tail_save` returns. -/
structure TailSave.Spec (cfg : SaveConfig Hash) (span : ℕ → Hash) (live : Request Hash)
    (written : ℕ) (allocated : List (List ℕ)) (tail : TailSave Hash) : Prop where
  idx : tail.tailIdx = live.numPromptTokens / cfg.ctx.virtualBlockSize
  key : tail.tailKey = cfg.tailKey span live
  written : live.numPromptTokens ≤ written
  dense : cfg.cacheGroups.has .sliding = false
  inTables : ∀ table ∈ allocated, tail.tailIdx < table.length
  intent : tail.intent =
    ⟨allocated.map fun table => table[tail.tailIdx]?.toList, [tail.tailKey], none⟩

theorem consumeTailSave_some {tail : TailSave Hash} (hashed : live.Hashed cfg.ctx span)
    (hprompt : live.numPromptTokens ≤ live.numTokens)
    (h : consumeTailSave cfg live written hashes st = .ok (some tail)) :
    tail.Spec cfg span live written (st.allocatedBlocks.getD []) := by
  unfold consumeTailSave at h
  split at h
  · cases h
  · next hon =>
    simp only [Bool.or_eq_true, not_or, Bool.not_eq_true] at hon
    rw [SchedulerConfig.deriveTailBlock_eq hashed hprompt] at h
    by_cases htail : cfg.HasTail live
    · simp only [htail, if_true, bind, Except.bind, pure, Except.pure] at h
      split at h
      · cases h
      · next hwritten =>
        split at h
        · cases h
        · next htables =>
          cases h
          push Not at htables
          exact
            { idx := rfl, key := rfl, written := Nat.le_of_not_lt hwritten, dense := hon.2
              inTables := fun table ht => htables.2.1 table ht, intent := rfl }
    · simp only [htail, if_false, bind, Except.bind, pure, Except.pure] at h
      cases h

/-- Group `gi` gets the tail entry of its table. -/
theorem TailSave.Spec.group {tail : TailSave Hash} (h : tail.Spec cfg span live written tables)
    (htable : tables[gi]? = some table) :
    ∃ id, table[tail.tailIdx]? = some id ∧ tail.intent.blockIdsByGroup[gi]? = some [id] := by
  have hlt := h.inTables table (mem_of_getElem? htable)
  refine ⟨table[tail.tailIdx], getElem?_eq_getElem hlt, ?_⟩
  rw [h.intent]
  simp [htable, hlt]

/-- Entries and keys that run through the same blocks are equally many. -/
theorem SaveRecord.pairsGroup {ids : List ℕ} (hids : save.intent.blockIdsByGroup[gi]? = some ids)
    (hmap : ids.map some =
      (range' (save.hashStart * cfg.ratio g) (save.newBlocks * cfg.ratio g)).map (table[·]?) ++
        (save.tail.map fun t => table[t.1]?).toList) (hkeys : save.intent.hashesOf gi =
      (range' (save.hashStart * cfg.ratio g) (save.newBlocks * cfg.ratio g)).map
        (cfg.groupKey span g) ++ (save.tail.map Prod.snd).toList) :
    save.PairsGroup cfg span gi g table := by
  refine ⟨ids, hids, ?_, hmap, hkeys⟩
  have hlen := congrArg length hmap
  rw [hkeys]
  cases htail : save.tail with
  | none => simpa [htail] using hlen
  | some t => simpa [htail] using hlen

/-- **A save is sound**, if the blocks of its full part are computed by the end of the step
and the block tables cover the step. -/
theorem sound_of_mergeSaves (hsave : mergeSaves written live tables full tail = some save)
    (hfull : ∀ f ∈ full, f.Slices cfg live hashes st ∧
      f.hashStart + f.newBlocks ≤ hashes.length ∧
      (f.hashStart + f.newBlocks) * cfg.ctx.virtualBlockSize ≤ written)
    (htail : ∀ t ∈ tail, t.Spec cfg span live written tables) (hkeys : KeysOf cfg span live hashes)
    (halloc : st.allocatedBlocks = some tables)
    (hcovers : ∀ e ∈ cfg.cacheGroups.groups.zip tables, e.1.positional = true →
      written ≤ e.2.length * cfg.groupVbs e.1) : save.Sound cfg span := by
  have hcomputed : ∀ f ∈ full, ∀ i ∈ List.range' f.hashStart f.newBlocks,
      (i + 1) * cfg.ctx.virtualBlockSize ≤ written := by
    intro f hf i hi
    rw [mem_range'_1] at hi
    exact (Nat.mul_le_mul_right _ hi.2).trans (hfull f hf).2.2
  have hgroup : ∀ f ∈ full, ∀ gi g table, cfg.cacheGroups.groups[gi]? = some g →
      g.positional = true → tables[gi]? = some table → f.PairsGroup cfg span gi g table := by
    intro f hf gi g table hg hpos htable
    obtain ⟨hslices, hbound, hwritten⟩ := hfull f hf
    have hmem : (g, table) ∈ cfg.cacheGroups.groups.zip tables :=
      mem_of_getElem? (getElem?_zip_eq_some.mpr ⟨hg, htable⟩)
    exact hslices.group hbound hkeys halloc hg hpos htable
      (hwritten.trans (hcovers _ hmem hpos))
  cases full with
  | none =>
    cases tail with
    | none => cases hsave
    | some t =>
      cases hsave
      have ht := htail t rfl
      refine ⟨?_, by simp [SaveRecord.indices], ?_⟩
      · intro gi g table hg hpos htable
        obtain ⟨id, hid, hids⟩ := ht.group htable
        refine SaveRecord.pairsGroup hids (by simp [hid]) ?_
        simp [SaveIntent.hashesOf, ht.intent]
      · rintro _ ⟨⟩
        exact ⟨ht.idx, ht.key, ht.written⟩
  | some f =>
    cases tail with
    | none =>
      cases hsave
      refine ⟨?_, hcomputed f rfl, by rintro _ ⟨⟩⟩
      intro gi g table hg hpos htable
      obtain ⟨ids, hids, hmap, hkeys⟩ := hgroup f rfl gi g table hg hpos htable
      exact SaveRecord.pairsGroup hids (by simpa using hmap) (by simpa using hkeys)
    | some t =>
      cases hsave
      have ht := htail t rfl
      -- with tail blocks there are no sliding groups, so all groups share their keys
      have hshared : f.intent.blockHashesByGroup = none := by
        have hslices := (hfull f rfl).1
        have hmap : cfg.cacheGroups.requiresGroupSpecificBlockMapping = false := by
          have hdense := ht.dense
          simp only [CacheGroupLayout.has, List.any_eq_false, decide_eq_true_eq] at hdense
          simp only [CacheGroupLayout.requiresGroupSpecificBlockMapping, List.any_eq_false,
            decide_eq_true_eq, not_and]
          exact fun g hg hkind => absurd hkind (hdense g hg)
        rw [FullSave.Slices, hmap] at hslices
        rw [hslices]
      refine ⟨?_, hcomputed f rfl, ?_⟩
      · intro gi g table hg hpos htable
        obtain ⟨ids, hids, hmap, hkeys⟩ := hgroup f rfl gi g table hg hpos htable
        obtain ⟨id, hid, htids⟩ := ht.group htable
        have hboth : (List.zipWith (· ++ ·) f.intent.blockIdsByGroup
            t.intent.blockIdsByGroup)[gi]? = some (ids ++ [id]) := by
          simp [getElem?_zipWith, hids, htids]
        refine SaveRecord.pairsGroup hboth ?_ ?_
        · simp [hmap, hid]
        · rw [SaveIntent.hashesOf, hshared] at hkeys
          simp only [Option.elim] at hkeys
          simp [SaveIntent.hashesOf, hkeys, ht.intent]
      · rintro _ ⟨⟩
        exact ⟨ht.idx, ht.key, ht.written⟩

end Consume

/-! ### The invariant -/

/-- The saves of a request, with the one of a `build_connector_meta` call in progress. -/
def SaveState.log : List (SaveRecord Hash) :=
  st.saves ++ st.potentialSave.toList

structure SaveState.Inv (cfg : SaveConfig Hash) (span : ℕ → Hash) (st : SaveState Hash) : Prop where
  hashes : ∀ hashes ∈ st.blockHashes,
    hashes = (range hashes.length).map (blockKey cfg.ctx span)
  tracked : st.blockHashes.isSome → st.allocatedBlocks.isSome
  mirror : ∀ allocated ∈ st.allocatedBlocks, allocated = st.tables
  fresh : st.allocatedBlocks = none → st.log = []
  below : ∀ i ∈ st.log.flatMap SaveRecord.indices, i < st.nextStoredBlockIdx.getD 0
  nodup : (st.log.flatMap SaveRecord.indices).Nodup
  sound : ∀ save ∈ st.log, save.Sound cfg span
  current : ∀ save ∈ st.potentialSave, save.tables = st.tables

namespace SaveState

variable {st} {reply : Option LookupReply} {numComputedTokens : ℕ}

theorem inv_init : Inv cfg span ({} : SaveState Hash) where
  hashes _ h := by cases h
  tracked h := by cases h
  mirror _ h := by cases h
  fresh _ := rfl
  below i h := by simp [log] at h
  nodup := by simp [log]
  sound _ h := by simp [log] at h
  current _ h := by cases h

/-- Inversion of `get_num_new_matched_tokens`: it changes the matched blocks only. -/
theorem getNumNewMatchedTokens_ok
    (hok : st.getNumNewMatchedTokens cfg req numComputedTokens reply = .ok st') :
    ∃ n, st' = { st with externalMatchedBlocks := n } := by
  unfold SaveState.getNumNewMatchedTokens at hok
  split at hok
  · cases hok
    exact ⟨_, rfl⟩
  · obtain ⟨query, -, hok⟩ := bind_ok hok
    split at hok
    · cases hok
      exact ⟨_, rfl⟩
    · split at hok
      · cases hok
        exact ⟨_, rfl⟩
      · split at hok
        · cases hok
        · split at hok <;> cases hok <;> exact ⟨_, rfl⟩

theorem Inv.getNumNewMatchedTokens (h : Inv cfg span st)
    (hok : st.getNumNewMatchedTokens cfg req numComputedTokens reply = .ok st') :
    Inv cfg span st' := by
  obtain ⟨n, rfl⟩ := getNumNewMatchedTokens_ok hok
  exact { h with }

theorem Inv.updateStateAfterAlloc (h : Inv cfg span st) (hashed : req.Hashed cfg.ctx span)
    (hok : st.updateStateAfterAlloc cfg req = .ok st') : Inv cfg span st' := by
  unfold SaveState.updateStateAfterAlloc at hok
  rw [requestBlockHashes_eq hashed] at hok
  have hkeys : ∀ hashes ∈ some ((range (req.numTokens / cfg.ctx.virtualBlockSize)).map
      (blockKey cfg.ctx span)),
      hashes = (range hashes.length).map (blockKey cfg.ctx span) := by
    rintro _ ⟨⟩
    simp
  split at hok
  · next halloc =>
    cases hok
    exact { h with hashes := hkeys, tracked := fun _ => by simp [halloc] }
  · next halloc =>
    cases hok
    -- the first allocation: nothing has been saved
    have hlog := h.fresh halloc
    have hidle : st.potentialSave = none := by simp_all [log]
    refine ⟨hkeys, fun _ => rfl, by rintro _ ⟨⟩; rfl, fun hnone => (by cases hnone), ?_, ?_, ?_, ?_⟩
    · show ∀ i ∈ st.log.flatMap SaveRecord.indices, _
      rw [hlog]
      intro i hi
      cases hi
    · exact h.nodup
    · exact h.sound
    · rw [hidle]
      rintro _ ⟨⟩

theorem Inv.rebaseResumedRequest (h : Inv cfg span st) : Inv cfg span st.rebaseResumedRequest :=
  { h with below := fun i hi => (h.below i hi).trans_le (le_max_left _ _) }

theorem indices_mergeSaves (written : ℕ) (live : Request Hash) (tables : List (List ℕ))
    (full : Option (FullSave Hash)) (tail : Option (TailSave Hash)) :
    (mergeSaves written live tables full tail).toList.flatMap SaveRecord.indices =
      full.toList.flatMap fun f => range' f.hashStart f.newBlocks := by
  cases full <;> cases tail <;> simp [mergeSaves, SaveRecord.indices]

theorem tables_mergeSaves (h : mergeSaves written live tables full tail = some save) :
    save.tables = tables := by
  cases full <;> cases tail <;> cases h <;> rfl

theorem tables_of_consumeSaveIntent (hok : consumeSaveIntent cfg live written st = .ok st') :
    st'.tables = st.tables := by
  unfold PegaFlow.consumeSaveIntent at hok
  split at hok
  · cases hok
    rfl
  · obtain ⟨full, -, hok⟩ := bind_ok hok
    obtain ⟨tail, -, hok⟩ := bind_ok hok
    cases hok
    rfl

/-- **The save of a step**: what it adds is sound, and new. -/
theorem Inv.consumeSaveIntent {hashes : List Hash}
    (hok : consumeSaveIntent cfg live written st = .ok st') (h : Inv cfg span st)
    (hidle : st.potentialSave = none) (hhashes : st.blockHashes = some hashes)
    (halloc : st.allocatedBlocks = some st.tables) (hkeys : KeysOf cfg span live hashes)
    (hprompt : live.numPromptTokens ≤ live.numTokens)
    (hcovers : ∀ e ∈ cfg.cacheGroups.groups.zip st.tables, e.1.positional = true →
      written ≤ e.2.length * cfg.groupVbs e.1)
    (hstep : st.blockIndexOffset.getD 0 * cfg.ctx.virtualBlockSize + st.scheduledTokens.getD 0 ≤
      written ∨ live.numTokens ≤ written) : Inv cfg span st' := by
  unfold PegaFlow.consumeSaveIntent at hok
  rw [hhashes] at hok
  obtain ⟨full, hfull, hok⟩ := bind_ok hok
  obtain ⟨tail, htail, hok⟩ := bind_ok hok
  cases hok
  have hlog : st.log = st.saves := by simp [log, hidle]
  -- what is saved is computed: the connector is not ahead, or the keys end before `written`
  have hspec : ∀ f ∈ full, f.Slices cfg live hashes st ∧
      f.hashStart + f.newBlocks ≤ hashes.length ∧
      (f.hashStart + f.newBlocks) * cfg.ctx.virtualBlockSize ≤ written := by
    rintro f ⟨⟩
    obtain ⟨hbounds, hslices⟩ := consumeFullBlockSaves_some hfull
    refine ⟨hslices, hbounds.hashes, ?_⟩
    rcases hstep with hstep | hstep
    · calc (f.hashStart + f.newBlocks) * cfg.ctx.virtualBlockSize
          ≤ (st.blockIndexOffset.getD 0 + st.scheduledTokens.getD 0 / cfg.ctx.virtualBlockSize) *
              cfg.ctx.virtualBlockSize := Nat.mul_le_mul_right _ hbounds.scheduled
        _ ≤ st.blockIndexOffset.getD 0 * cfg.ctx.virtualBlockSize + st.scheduledTokens.getD 0 := by
            rw [Nat.add_mul]
            exact Nat.add_le_add_left (Nat.div_mul_le_self _ _) _
        _ ≤ written := hstep
    · exact (Nat.mul_le_mul_right _ hbounds.hashes).trans (hkeys.tokens.trans hstep)
  have htailSpec : ∀ t ∈ tail, t.Spec cfg span live written st.tables := by
    rintro t ⟨⟩
    have := consumeTailSave_some hkeys.hashed hprompt htail
    rwa [halloc] at this
  have hbelow := h.below
  have hnodup := h.nodup
  rw [hlog] at hbelow hnodup
  -- a save starts after all earlier ones
  have hafter : ∀ f ∈ full, ∀ i ∈ st.saves.flatMap SaveRecord.indices, i < f.hashStart := by
    rintro f ⟨⟩ i hi
    have hlt := hbelow i hi
    rw [(consumeFullBlockSaves_some hfull).1.start]
    cases hnext : st.nextStoredBlockIdx with
    | none => rw [hnext] at hlt; cases hlt
    | some n => rw [hnext] at hlt; exact hlt
  refine ⟨fun _ hx => h.hashes _ (hhashes ▸ hx), fun _ => by rw [halloc]; rfl, h.mirror,
    fun hnone => ?_, ?_, ?_, ?_, ?_⟩
  · rw [halloc] at hnone
    cases hnone
  · intro i hi
    rw [log, flatMap_append, indices_mergeSaves, mem_append] at hi
    cases full with
    | none =>
      rcases hi with hi | hi
      · exact hbelow i hi
      · cases hi
    | some f =>
      simp only [toList_some, flatMap_singleton, mem_range'_1] at hi
      rcases hi with hi | hi
      · exact (hafter f rfl i hi).trans_le (Nat.le_add_right _ _)
      · exact hi.2
  · rw [log, flatMap_append, indices_mergeSaves, nodup_append]
    refine ⟨hnodup, ?_, ?_⟩
    · cases full <;> simp [nodup_range']
    · intro i hi j hj
      cases full with
      | none => cases hj
      | some f =>
        simp only [toList_some, flatMap_singleton, mem_range'_1] at hj
        exact ((hafter f rfl i hi).trans_le hj.1).ne
  · intro save hsave
    rw [log, mem_append, mem_toList] at hsave
    rcases hsave with hsave | hsave
    · exact h.sound save (hlog ▸ hsave)
    · exact sound_of_mergeSaves hsave hspec htailSpec hkeys halloc hcovers
  · intro save hsave
    exact tables_mergeSaves hsave

end SaveState

/-! ### One scheduled request -/

theorem copyBlockIdsByGroup_ok {blockIds blockIds' : List (List ℕ)}
    (h : cfg.copyBlockIdsByGroup blockIds = .ok blockIds') : blockIds' = blockIds := by
  unfold SchedulerConfig.copyBlockIdsByGroup at h
  split at h
  · cases h; rfl
  · cases h

section Scheduled

variable {st} {span : String → ℕ → Hash}

/-- A snapshot of the request's block table is in the mirror. -/
def SnapshotTaken (out : SchedulerOutput Hash) (q : ScheduledReq) (st : SaveState Hash) : Prop :=
  out.hasSnapshot q.reqId → st.allocatedBlocks = some (out.blockTables q.reqId)

theorem copyTable_ok {blockIds : List (List ℕ)} {allocated fallback : Option (List (List ℕ))}
    (hne : blockIds ≠ []) (hok : (if blockIds.isEmpty then .ok fallback
      else do return some (← cfg.copyBlockIdsByGroup blockIds)) = .ok allocated) :
    allocated = some blockIds := by
  rw [if_neg (by rwa [List.isEmpty_iff])] at hok
  obtain ⟨copied, hcopy, hok⟩ := bind_ok hok
  cases hok
  rw [copyBlockIdsByGroup_ok hcopy]

theorem refreshAllocated_ok {allocated : Option (List (List ℕ))} (h : st.Inv cfg (span q.reqId))
    (htracked : st.allocatedBlocks.isSome) (hv : EntryValid cfg span out st q)
    (hsnapshot : SnapshotTaken out q st)
    (hok : refreshAllocated cfg out q st.allocatedBlocks = .ok allocated) :
    allocated = some (out.blockTables q.reqId) := by
  have hne : out.blockTables q.reqId ≠ [] := by
    intro hnil
    have hlen := hv.tables
    rw [hnil] at hlen
    exact cfg.groups_ne (length_eq_zero_iff.mp hlen.symm)
  have hagree := hv.agree
  cases hs : out.hasSnapshot q.reqId with
  | true =>
    rw [← hsnapshot hs]
    cases q with
    | new q | cached q =>
      simp only [refreshAllocated, show out.hasSnapshot q.reqId from hs, if_true,
        Bool.true_or] at hok
      exact (Except.ok.inj hok).symm
  | false =>
    cases q with
    | new q =>
      replace hs : out.hasSnapshot q.reqId = false := hs
      simp only [refreshAllocated, hs, Bool.false_or, hagree hs] at hok
      exact copyTable_ok hne hok
    | cached q =>
      replace hs : out.hasSnapshot q.reqId = false := hs
      replace hagree := hagree hs
      simp only [refreshAllocated, hs, Bool.false_eq_true, if_false] at hok
      split at hok
      · next hresumed =>
        rw [if_pos hresumed] at hagree
        rw [hagree] at hok
        exact copyTable_ok hne hok
      · next hresumed =>
        rw [if_neg hresumed] at hagree
        obtain ⟨old, hold⟩ := isSome_iff_exists.mp htracked
        have hmirror := h.mirror _ hold
        rw [hold] at hok
        show allocated = some (out.blockTables q.reqId)
        split at hok
        · next hempty =>
          cases hok
          rw [hagree, if_pos hempty, hmirror]
        · next hnew =>
          obtain ⟨blockIds, hcopy, hok⟩ := bind_ok hok
          cases hok
          rw [copyBlockIdsByGroup_ok hcopy, hagree, if_neg hnew, hmirror]

/-- A refreshed request has vLLM's own block table and the keys of its tokens. -/
theorem refreshScheduled_some (h : st.Inv cfg (span q.reqId)) (hv : EntryValid cfg span out st q)
    (hsnapshot : SnapshotTaken out q st) (hok : refreshScheduled cfg out q st = .ok (some st')) :
    ∃ hashes, hashes = (range hashes.length).map (blockKey cfg.ctx (span q.reqId)) ∧
      hashes.length * cfg.ctx.virtualBlockSize ≤ (out.requests q.reqId).numTokens ∧
      st' = { st with
        blockHashes := some hashes
        allocatedBlocks := some (out.blockTables q.reqId) } := by
  unfold refreshScheduled at hok
  split at hok
  · cases hok
  · cases hok
  · next hashes hhashes =>
    obtain ⟨allocated, halloc, hok⟩ := bind_ok hok
    cases hok
    rw [refreshAllocated_ok h (h.tracked (by rw [hhashes]; rfl)) hv hsnapshot halloc]
    exact ⟨hashes, h.hashes _ hhashes, hv.kept _ hhashes, by rw [hhashes]⟩
  · next q' old hold =>
    obtain ⟨hashes, hhashes, hok⟩ := bind_ok hok
    obtain ⟨allocated, halloc, hok⟩ := bind_ok hok
    cases hok
    rw [refreshAllocated_ok h (h.tracked (by rw [hold]; rfl)) hv hsnapshot halloc]
    have hkeys : requestBlockHashes cfg.ctx (out.requests q'.reqId) none = _ :=
      requestBlockHashes_eq hv.hashed
    rw [hkeys] at hhashes
    cases hhashes
    refine ⟨_, by simp, ?_, rfl⟩
    rw [length_map, length_range]
    exact Nat.div_mul_le_self _ _

/-- **The step of a scheduled request keeps the invariant**, and a save made in it is recorded
with vLLM's block tables. -/
theorem SaveState.Inv.processScheduled (h : st.Inv cfg (span q.reqId))
    (hidle : st.potentialSave = none) (hv : EntryValid cfg span out st q)
    (hsnapshot : SnapshotTaken out q st) (hstep : st.position cfg out q ≤ out.written q ∨
      (out.requests q.reqId).numTokens ≤ out.written q)
    (hok : processScheduled cfg out q st = .ok st') :
    st'.Inv cfg (span q.reqId) ∧
      ∀ save ∈ st'.potentialSave, save.tables = out.blockTables q.reqId := by
  obtain ⟨refreshed, hrefresh, hok⟩ := bind_ok hok
  have hcurrent : ∀ save ∈ st.potentialSave, save.tables = out.blockTables q.reqId := by
    rw [hidle]
    rintro _ ⟨⟩
  cases refreshed with
  | none =>
    cases hok
    exact ⟨h, hcurrent⟩
  | some st₁ =>
    obtain ⟨hashes, hkeys, htokens, rfl⟩ := refreshScheduled_some h hv hsnapshot hrefresh
    have hof : KeysOf cfg (span q.reqId) (out.requests q.reqId) hashes :=
      ⟨hkeys, hv.hashed, htokens⟩
    have hall : ∀ x ∈ some hashes,
        x = (range x.length).map (blockKey cfg.ctx (span q.reqId)) := by
      rintro _ ⟨⟩
      exact hkeys
    unfold consumeScheduled at hok
    unfold SaveState.position at hstep
    have hbelow := h.below
    have hbelow' := h.rebaseResumedRequest.below
    have hdone : st'.Inv cfg (span q.reqId) ∧ st'.tables = out.blockTables q.reqId := by
      cases hrebased : q.rebased with
      | true | false =>
        simp only [hrebased, Bool.false_eq_true, if_true, if_false] at hok hstep
        split at hok
        · cases hok
        · refine ⟨SaveState.Inv.consumeSaveIntent hok ?_ hidle rfl rfl hof hv.prompt hv.covers
            hstep, SaveState.tables_of_consumeSaveIntent hok⟩
          exact ⟨hall, fun _ => rfl, by rintro _ ⟨⟩; rfl, by rintro ⟨⟩, by assumption, h.nodup,
            h.sound, hcurrent⟩
    exact ⟨hdone.1, fun save hsave => (hdone.1.current save hsave).trans hdone.2⟩

/-! ### Snapshots -/

section

variable (hst : st' = if out.hasSnapshot q.reqId then
  { st with
    allocatedBlocks := some (out.blockTables q.reqId), tables := out.blockTables q.reqId }
  else st)

include hst

/-- With a snapshot, what else vLLM tells of the table does not matter. -/
theorem EntryValid.refreshed (h : EntryValid cfg span out st q) :
    EntryValid cfg span out st' q := by
  split at hst
  · next hs =>
    subst hst
    refine { h with agree := ?_ }
    cases q with
    | new q | cached q =>
      intro hnone
      rw [show out.hasSnapshot q.reqId from hs] at hnone
      cases hnone
  · subst hst
    exact h

theorem position_refreshed : st'.position cfg out q = st.position cfg out q := by
  split at hst
  · subst hst
    unfold SaveState.position
    cases q.rebased <;> rfl
  · rw [hst]

end

/-! ### Sliding sources -/

/-- A sound save is left as it is if none of its sliding sources has another owner. -/
theorem filterReallocatedSlidingSources_eq {keys : ℕ → Hash} (hsave : save.Sound cfg keys)
    (hlen : save.tables.length = cfg.cacheGroups.groupCount)
    (hkeep : ∀ e ∈ (cfg.cacheGroups.groups.zip save.tables).zipIdx, e.1.1.kind = .sliding →
      ∀ b ∈ e.1.2, out.dropsSource reqId e.2 b = false) :
    filterReallocatedSlidingSources cfg out reqId save = save := by
  have hids : (save.intent.blockIdsByGroup.mapIdx fun g ids =>
      if cfg.cacheGroups.groups[g]?.map CacheGroup.kind = some .sliding then
        ids.map fun b => if out.dropsSource reqId g b then 0 else b
      else ids) = save.intent.blockIdsByGroup := by
    apply ext_getElem?
    intro gi
    rw [getElem?_mapIdx]
    cases hgi : save.intent.blockIdsByGroup[gi]? with
    | none => rfl
    | some ids =>
      rw [map_some, some_inj]
      split
      · next hsliding =>
        obtain ⟨g, hg, hkind⟩ := map_eq_some_iff.mp hsliding
        have hlt : gi < save.tables.length := hlen ▸ (List.getElem?_eq_some_iff.mp hg).1
        have htable := getElem?_eq_getElem hlt
        obtain ⟨ids', hids', -, hmap, -⟩ :=
          hsave.pairs gi g _ hg (by simp [CacheGroup.positional, hkind]) htable
        rw [hgi] at hids'
        cases hids'
        -- every source is an entry of the table
        have hmem : ∀ b ∈ ids, b ∈ save.tables[gi] := by
          intro b hb
          have hsome : some b ∈ ids.map some := mem_map_of_mem hb
          rw [hmap, mem_append, mem_toList, List.mem_map] at hsome
          rcases hsome with ⟨k, -, hk⟩ | hk
          · exact mem_of_getElem? hk
          · obtain ⟨t, -, hk⟩ := map_eq_some_iff.mp hk
            exact mem_of_getElem? hk
        have hentry : ((g, save.tables[gi]), gi) ∈
            (cfg.cacheGroups.groups.zip save.tables).zipIdx := by
          rw [mem_zipIdx_iff_getElem?]
          exact getElem?_zip_eq_some.mpr ⟨hg, htable⟩
        conv_rhs => rw [← map_id ids]
        refine map_congr_left ?_
        intro b hb
        rw [hkeep _ hentry hkind b (hmem b hb)]
        rfl
      · rfl
  unfold filterReallocatedSlidingSources
  rw [hids]

end Scheduled

/-! ### The connector -/

namespace SaveConnector

variable {s} {s' : SaveConnector Hash} {span : String → ℕ → Hash}

/-- Between two calls no save is in the making. -/
def Inv (cfg : SaveConfig Hash) (span : String → ℕ → Hash) (s : SaveConnector Hash) : Prop :=
  ∀ reqId, (s reqId).Inv cfg (span reqId) ∧ (s reqId).potentialSave = none

theorem inv_init : Inv cfg span init := fun _ => ⟨SaveState.inv_init, rfl⟩

theorem ok_of_toOption {α : Type*} {x : Except String α} {a : α} (h : x.toOption = some a) :
    x = .ok a := by
  cases x with
  | error err => cases h
  | ok b => cases h; rfl

/-- An operation on one request that keeps the invariant of its entries. -/
theorem Inv.onRequest {op : SaveState Hash → Except String (SaveState Hash)} (h : Inv cfg span s)
    (hop : ∀ st, op (s reqId) = .ok st → st.Inv cfg (span reqId) ∧ st.potentialSave = none)
    (hstep : s.onRequest reqId op = some s') : Inv cfg span s' := by
  obtain ⟨st, hst, rfl⟩ := map_eq_some_iff.mp hstep
  intro id
  by_cases hid : id = reqId
  · subst hid
    rw [update_self]
    exact hop st (ok_of_toOption hst)
  · rw [update_of_ne hid]
    exact h id

/-- The snapshot gives a request vLLM's block table and leaves the rest alone. -/
theorem refreshTables_ok {e : String × List (List ℕ)} {st st' : SaveState Hash}
    (hok : refreshTables cfg e st = .ok st') :
    st' = { st with allocatedBlocks := some e.2, tables := e.2 } := by
  obtain ⟨blockIds, hcopy, hok⟩ := bind_ok hok
  cases hok
  rw [copyBlockIdsByGroup_ok hcopy]

theorem refreshed (hok : updateAll Prod.fst (refreshTables cfg) out.blockState s = .ok s')
    (hkeys : (out.blockState.map Prod.fst).Nodup)
    (hstate : ∀ e ∈ out.blockState, e.2 = out.blockTables e.1) (reqId : String) :
    s' reqId = if out.hasSnapshot reqId then
      { s reqId with
        allocatedBlocks := some (out.blockTables reqId), tables := out.blockTables reqId }
      else s reqId := by
  split
  · next hmem =>
    obtain ⟨e, he, rfl⟩ := mem_map.mp (contains_iff_mem.mp hmem)
    rw [refreshTables_ok (updateAll_mem hok hkeys he), hstate e he]
  · next hmem =>
    exact updateAll_notMem hok fun hin => hmem (contains_iff_mem.mpr hin)

theorem Inv.emitSave {st : SaveState Hash} (h : st.Inv cfg (span reqId))
    (hkeep : ∀ save ∈ st.potentialSave, filterReallocatedSlidingSources cfg out reqId save = save) :
    (emitSave cfg out reqId st).Inv cfg (span reqId) ∧
      (emitSave cfg out reqId st).potentialSave = none := by
  unfold PegaFlow.emitSave
  split
  · next hnone => exact ⟨h, hnone⟩
  · next save hsave =>
    rw [hkeep save hsave]
    refine ⟨?_, rfl⟩
    -- the save moves from one end of the log to the other
    have hlog : SaveState.log
        { st with potentialSave := none, pendingSaves := true, saves := st.saves ++ [save] } =
          st.log := by
      simp [SaveState.log, hsave]
    exact ⟨h.hashes, h.tracked, h.mirror, fun hnone => hlog ▸ h.fresh hnone,
      fun i hi => h.below i (hlog ▸ hi), hlog ▸ h.nodup, fun x hx => h.sound x (hlog ▸ hx),
      by rintro _ ⟨⟩⟩

/-- **A scheduler step keeps the invariant.** -/
theorem Inv.buildConnectorMeta (h : Inv cfg span s)
    (hv : s.Valid cfg span (.buildConnectorMeta out)) (hC : s.InStep cfg (.buildConnectorMeta out))
    (hok : buildConnectorMeta cfg out s = .ok s') : Inv cfg span s' := by
  obtain ⟨hreqs, hkeys, hstate, hentries⟩ := hv
  obtain ⟨s₁, hs₁, hok⟩ := bind_ok hok
  obtain ⟨s₂, hs₂, hok⟩ := bind_ok hok
  cases hok
  have href := refreshed hs₁ hkeys hstate
  have hinv₁ : Inv cfg span s₁ := by
    intro reqId
    obtain ⟨hr, hidle⟩ := h reqId
    rw [href reqId]
    split
    · refine ⟨⟨hr.hashes, fun _ => rfl, by rintro _ ⟨⟩; rfl, by rintro ⟨⟩, hr.below, hr.nodup,
        hr.sound, ?_⟩, hidle⟩
      rw [hidle]
      rintro _ ⟨⟩
    · exact ⟨hr, hidle⟩
  -- the loop over the scheduled requests
  have hinv₂ := updateAll_keeps (I := fun reqId st => st.Inv cfg (span reqId) ∧
      ∀ save ∈ st.potentialSave, ∃ q ∈ out.scheduled, q.reqId = reqId ∧
        save.tables = out.blockTables reqId) hs₂ hreqs
    (by
      intro q hq st _ hst
      have hproc := (hinv₁ q.reqId).1.processScheduled (hinv₁ q.reqId).2
        ((hentries q hq).refreshed (href q.reqId)) (fun hs => by rw [href, if_pos hs])
        (by rw [position_refreshed (href q.reqId)]; exact (hC q hq).1) hst
      exact ⟨hproc.1, fun save hsave => ⟨q, hq, rfl, hproc.2 save hsave⟩⟩)
    (by
      intro reqId
      refine ⟨(hinv₁ reqId).1, ?_⟩
      rw [(hinv₁ reqId).2]
      rintro _ ⟨⟩)
  intro reqId
  obtain ⟨hinv, hsaves⟩ := hinv₂ reqId
  refine Inv.emitSave hinv ?_
  intro save hsave
  obtain ⟨q, hq, rfl, htables⟩ := hsaves save hsave
  have hsound := hinv.sound save (by
    rw [SaveState.log, mem_append, mem_toList]
    exact .inr hsave)
  exact filterReallocatedSlidingSources_eq hsound (htables ▸ (hentries q hq).tables)
    (htables ▸ (hC q hq).2)

theorem inv_step {a : SaveAction Hash} (h : Inv cfg span s) (hv : s.Valid cfg span a)
    (hC : s.InStep cfg a) (hstep : step cfg s a = some s') : Inv cfg span s' := by
  cases a with
  | getNumNewMatchedTokens req numComputedTokens reply =>
    refine h.onRequest ?_ hstep
    intro st hst
    obtain ⟨n, rfl⟩ := SaveState.getNumNewMatchedTokens_ok hst
    exact ⟨(h _).1.getNumNewMatchedTokens hst, (h req.requestId).2⟩
  | updateStateAfterAlloc req =>
    refine h.onRequest ?_ hstep
    intro st hst
    refine ⟨(h _).1.updateStateAfterAlloc hv hst, ?_⟩
    obtain ⟨hashes, -, hst⟩ := bind_ok hst
    split at hst <;> cases hst <;> exact (h req.requestId).2
  | buildConnectorMeta out => exact h.buildConnectorMeta hv hC (ok_of_toOption hstep)
  | requestFinished reqId =>
    rw [step] at hstep
    refine h.onRequest ?_ hstep
    rintro st ⟨⟩
    obtain ⟨hr, hidle⟩ := h reqId
    split
    · exact ⟨{ hr with }, hidle⟩
    · exact ⟨SaveState.inv_init, rfl⟩
  | finishedSending reqId =>
    rw [step] at hstep
    refine h.onRequest ?_ hstep
    rintro st ⟨⟩
    obtain ⟨hr, hidle⟩ := h reqId
    split
    · exact ⟨SaveState.inv_init, rfl⟩
    · exact ⟨{ hr with }, hidle⟩

/-- **Save intents cover computed blocks, once.**  In every run of calls as vLLM makes them in
which the connector stays in step with vLLM, all saves are sound. -/
theorem savesSound_of_inStep (cfg : SaveConfig Hash) (span : String → ℕ → Hash)
    (as : List (SaveAction Hash))
    (h : Along (step cfg) (fun s a => s.Valid cfg span a ∧ s.InStep cfg a) init as) :
    Always (step cfg) (fun s => s.SavesSound cfg span) init as := by
  have hinv := always_of_along (fun _ _ _ hinv hC hstep => inv_step hinv hC.1 hC.2 hstep) inv_init h
  refine hinv.mono ?_
  intro s hinv reqId
  obtain ⟨hr, hidle⟩ := hinv reqId
  have hlog : (s reqId).log = (s reqId).saves := by simp [SaveState.log, hidle]
  exact ⟨fun save hsave => hr.sound save (hlog ▸ hsave), hlog ▸ hr.nodup⟩

/-! ### A failed load -/

/-- One dense group with blocks of four tokens. -/
def denseReads : SaveConfig ℕ where
  ctx := .whole 4 (Nat.succ_pos 3)
  cacheGroups := { groups := [⟨.dense, 4⟩], hashGroupIndex := 0 }
  tailSaveEnabled := false
  tailLoadEnabled := false
  hashBlockTokens parent tokens := 100 * (parent + 1) + tokens.length
  noneHash := 0
  tail_dense := by decide
  groups_ne := by decide
  groupSizes := by decide

/-- A prompt of three blocks; block `i` has the hash `i + 1`. -/
def threeBlockPrompt : Request ℕ where
  requestId := "r"
  numTokens := 12
  promptTokenIds := range 12
  blockHashes := [1, 2, 3]
  loraRequest := false
  cacheSalt := false
  mmFeatures := false

/-- Two blocks are found in the cache.  The first step then schedules `n` tokens on top of
`numComputedTokens`, which is 8 unless the load fails. -/
def twoBlockHit (numComputedTokens n : ℕ) : List (SaveAction ℕ) :=
  [.getNumNewMatchedTokens threeBlockPrompt 0 (some ⟨2, none⟩),
    .updateStateAfterAlloc threeBlockPrompt,
    .buildConnectorMeta
      { newReqs := [⟨"r", [[1, 2, 3]], numComputedTokens⟩]
        cachedReqs := []
        numScheduledTokens := fun _ => n
        blockState := []
        blockCopies := []
        requests := fun _ => threeBlockPrompt
        blockTables := fun _ => [[1, 2, 3]] }]

/-- When the load succeeds, block 2 is saved once its four tokens are computed. -/
theorem savesSound_loaded :
    Always (step denseReads) (fun s => s.SavesSound denseReads fun _ => (· + 1)) init
      (twoBlockHit 8 4) :=
  savesSound_of_inStep _ _ _ (by decide +kernel)

/-- When the second block fails to load, vLLM starts at 4 and computes up to 9.  The connector
starts at 8 and takes block 2 to be computed. -/
theorem not_savesSound_failedLoad :
    Along (step denseReads) (fun s a => s.Valid denseReads (fun _ => (· + 1)) a) init
        (twoBlockHit 4 5) ∧
      ¬ Always (step denseReads) (fun s => s.SavesSound denseReads fun _ => (· + 1)) init
        (twoBlockHit 4 5) := by
  refine ⟨by decide +kernel, ?_⟩
  intro h
  have hrun : ((exec (step denseReads) init (twoBlockHit 4 5)).map fun s =>
      (s "r").saves.map fun save => (save.indices, save.written)) = some [([2], 9)] := by
    decide +kernel
  obtain ⟨s, hs, hsaves⟩ := map_eq_some_iff.mp hrun
  obtain ⟨save, hsave, hfields⟩ := map_eq_singleton_iff.mp hsaves
  have hsound := (h.exec hs "r").1 save (hsave ▸ mem_singleton_self save)
  have hindices : save.indices = [2] := congrArg Prod.fst hfields
  have hwritten : save.written = 9 := congrArg Prod.snd hfields
  have hle := hsound.computed 2 (hindices ▸ mem_singleton_self 2)
  rw [hwritten] at hle
  exact absurd hle (by decide)

end SaveConnector

end PegaFlow
