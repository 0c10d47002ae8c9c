/-
PegaFlow/SsdPrefetchTask.lean

The background lookup behind a prefix query (`run_prefetch_task` of `storage/prefetch.rs`, with
`submit_prefix` and the prefetch worker of the SSD store).

The lookup asks for the keys the cache does not hold.  On the SSD path the number of blocks found is
counted when the reads are submitted.  After that a block can still be lost: the queue of batches
may be full, the staging memory may not be allocated, the task may not reach the worker, the read
may be short or fail, and the entry may be overwritten while it is read.  Such a block is left out
of the delivered list, but the number found stays, and it is this number that a query for the full
prefix compares with the number of keys.

So an SSD result is complete exactly if none of these losses happened (`SsdStore.Delivers`,
`covers_iff_delivers`).

What the environment decides during one lookup (the ring at each access, the answers of queue and
allocator, the ends of the reads in their order, the remote fetches) is the record the lookup runs
on. -/
import PegaFlow.Prefetch
import PegaFlow.SsdPrefetch

namespace PegaFlow.SsdPrefetch

open List Option

open Gpu (usizeLimit)

variable {n : ℕ}

/-! ### Collecting the reads of a batch -/

/-- Collects the successful blocks of a batch and delivers them when all reads have ended. -/
structure BatchContext where
  results : List (BlockKey × SealedBlock)
  remaining : ℕ
  /-- What went through `done_tx`, once it is taken. -/
  sent : Option (List (BlockKey × SealedBlock))

namespace BatchContext

def new (count : ℕ) : BatchContext where
  results := []
  remaining := count
  sent := none

def completeOne (ctx : BatchContext) (key : BlockKey) (block : Option SealedBlock) : BatchContext :=
  let results := ctx.results ++ (block.map fun block => (key, block)).toList
  if ctx.remaining = 1 ∧ ctx.sent.isNone then
    { results := [], remaining := 0, sent := some results }
  else { results, remaining := ctx.remaining - 1, sent := ctx.sent }

def completeAll (ctx : BatchContext) (cs : List (BlockKey × Option SealedBlock)) : BatchContext :=
  cs.foldl (fun ctx c => ctx.completeOne c.1 c.2) ctx

/-- The blocks among the outcomes, in the order of completion. -/
def collected (cs : List (BlockKey × Option SealedBlock)) : List (BlockKey × SealedBlock) :=
  cs.flatMap fun c => (c.2.map fun block => (c.1, block)).toList

/-- **The last completion delivers all blocks collected.** -/
theorem sent_completeAll {ctx : BatchContext} {cs : List (BlockKey × Option SealedBlock)}
    (hremaining : ctx.remaining = cs.length) (hsent : ctx.sent = none) (hne : cs ≠ []) :
    (ctx.completeAll cs).sent = some (ctx.results ++ collected cs) := by
  induction cs generalizing ctx with
  | nil => exact absurd rfl hne
  | cons c cs ih =>
    have hcollected : collected (c :: cs) =
        (c.2.map fun block => (c.1, block)).toList ++ collected cs := flatMap_cons
    rw [hcollected, ← append_assoc]
    show ((ctx.completeOne c.1 c.2).completeAll cs).sent = _
    unfold completeOne
    cases cs with
    | nil =>
      rw [hremaining, hsent]
      exact congrArg some (append_nil _).symm
    | cons c' cs =>
      have hone : ¬(ctx.remaining = 1 ∧ ctx.sent.isNone) := by
        rw [hremaining]
        rintro ⟨hone, -⟩
        cases hone
      rw [if_neg hone]
      refine ih ?_ hsent (cons_ne_nil _ _)
      rw [hremaining]
      rfl

end BatchContext

/-! ### The worker -/

structure PrefetchTask (n : ℕ) where
  key : BlockKey
  entry : SsdIndexEntry n
  slotAllocs : List SlotAlloc

/-- The tasks of a batch. -/
def prefetchTasks (requests : List (PrefetchRequest n)) (allocs : List (List SlotAlloc)) :
    List (PrefetchTask n) :=
  zipWith (fun req slotAllocs => { key := req.key, entry := req.entry, slotAllocs })
    requests allocs

/-- How a read ends: the memory it left, the bytes it reports, and the ring at that moment (`none`
if the store is gone). -/
structure ReadEnd (n : ℕ) where
  memory : ℕ → UInt8
  bytesRead : Option ℕ
  ring : Option (SsdRingBuffer n)

/-- What the worker keeps of a read: nothing if the data was overwritten during the read. -/
def ReadEnd.result (e : ReadEnd n) (task : PrefetchTask n) : Option SealedBlock :=
  let result := executePrefetch e.memory task.entry task.slotAllocs e.bytesRead
  let valid := e.ring.any fun ring => ring.IsOffsetValid task.entry
  if result.isSome && !valid then none
  else if result.isSome then result
  else none

/-- The outcome of each completion: the index of a block and the end of its read, `none` if its task
did not reach the worker. -/
def outcomes (tasks : List (PrefetchTask n)) (completions : List (ℕ × Option (ReadEnd n))) :
    List (BlockKey × Option SealedBlock) :=
  completions.filterMap fun c =>
    tasks[c.1]?.map fun task => (task.key, c.2.bind fun e => e.result task)

/-! ### The store -/

def ssdPrefetchChunkBytes : ℕ := 256 * 1024 * 1024

/-- The SSD store as one lookup meets it. -/
structure SsdStore (n : ℕ) where
  ringAtLookup : SsdRingBuffer n
  ringAtSubmit : SsdRingBuffer n
  /-- `try_send` on the queue of batches. -/
  queueAccepts : Bool
  /-- The groups in the order in which the hash map yields them. -/
  groups : List (Option NumaNode × List SlotRef)
  allocate : ℕ → Option ℕ
  completions : List (ℕ × Option (ReadEnd n))

variable (ssd : SsdStore n) (requests : List (PrefetchRequest n)) (keys : List BlockKey)

namespace SsdStore

/-- Count the consecutive keys on the SSD. -/
def prefixLen : ℕ :=
  (mapWhile (fun key => (ssd.ringAtLookup.get key).map fun _ => ()) keys).length

/-- The requests of `submit_prefix`: stop at the first miss. -/
def submitPrefix : List (PrefetchRequest n) :=
  mapWhile (fun key => (ssd.ringAtSubmit.get key).map fun entry => { key, entry }) keys

/-- What arrives through the channel of a batch.  A batch that is refused, or whose memory cannot be
allocated, delivers the empty list, and so does a channel that is dropped. -/
def deliver : List (BlockKey × SealedBlock) :=
  if ssd.queueAccepts then
    match dispatchPrefetchBatch ssdPrefetchChunkBytes ssd.allocate ssd.groups requests with
    | .ok (some (allocs, _)) =>
      ((BatchContext.new requests.length).completeAll
        (outcomes (prefetchTasks requests allocs) ssd.completions)).sent.getD []
    | .ok none => []
    | .error _ => []
  else []

/-- The number of reads submitted, and the blocks delivered. -/
def prefetchPrefix : ℕ × List (BlockKey × SealedBlock) :=
  let requests := ssd.submitPrefix keys
  let found := requests.length
  if found = 0 then (0, []) else (found, ssd.deliver requests)

end SsdStore

/-! ### The task -/

structure PrefetchTaskDeps (n : ℕ) where
  /-- What the first remote fetch returns, if there is one. -/
  rdmaFirst : Option (ℕ × List (BlockKey × SealedBlock))
  ssdStore : Option (SsdStore n)
  maxPrefetchBlocks : ℕ
  reservedSsdPrefetchBlocks : ℕ
  /-- What the remote fetches return until the timeout. -/
  rdmaPolls : List (Option (ℕ × List (BlockKey × SealedBlock)))

structure PrefetchTaskInput where
  remainingKeys : List BlockKey
  prefixBlocks : List SealedBlock
  total : ℕ
  waitForFullPrefix : Bool

def reserveSsdPrefetchSlots (maxPrefetchBlocks reservedBlocks requested : ℕ)
    (requireFull : Bool) : Option ℕ :=
  if requested = 0 then none
  else
    let available := maxPrefetchBlocks - reservedBlocks
    if available = 0 ∨ (requireFull ∧ available < requested) then none
    else some (min requested available)

variable (deps : PrefetchTaskDeps n)

/-- The SSD part of the task. -/
def ssdAttempt (input : PrefetchTaskInput) :
    Option (PrefetchTaskResult BlockKey SealedBlock) := do
  let ssd ← deps.ssdStore
  let found := ssd.prefixLen input.remainingKeys
  if !input.waitForFullPrefix || found = input.remainingKeys.length then
    let reserved ← reserveSsdPrefetchSlots deps.maxPrefetchBlocks deps.reservedSsdPrefetchBlocks
      found input.waitForFullPrefix
    let (found, blocks) := ssd.prefetchPrefix (input.remainingKeys.take reserved)
    if 0 < found && (!input.waitForFullPrefix || found = input.remainingKeys.length) then
      some (buildReadyResult input.prefixBlocks input.total (some .ssd) found
        (input.remainingKeys.take found) blocks)
    else none
  else none

def runPrefetchTask (input : PrefetchTaskInput) : PrefetchTaskResult BlockKey SealedBlock :=
  let rdmaResult := fun (fetched : ℕ × List (BlockKey × SealedBlock)) =>
    buildReadyResult input.prefixBlocks input.total (some .rdma) fetched.1
      (input.remainingKeys.take fetched.1) fetched.2
  match deps.rdmaFirst with
  | some fetched => rdmaResult fetched
  | none =>
    match ssdAttempt deps input with
    | some result => result
    | none =>
      match if input.waitForFullPrefix then deps.rdmaPolls.findSome? id else none with
      | some fetched => rdmaResult fetched
      | none => buildReadyResult input.prefixBlocks input.total none 0 [] []

/-- The input `full_prefix_scan` starts a task with: the cache holds the blocks of a prefix. -/
def scanInput (prefixBlocks : List SealedBlock) (waitForFullPrefix : Bool) : PrefetchTaskInput where
  remainingKeys := keys.drop prefixBlocks.length
  prefixBlocks
  total := keys.length
  waitForFullPrefix

/-! ### Complete results -/

variable {cacheInserts : List (BlockKey × SealedBlock)} {prefixBlocks : List SealedBlock}
  {source : Option PrefetchSource} {requestedKeys : List BlockKey} {input : PrefetchTaskInput}
  {req : PrefetchRequest n} {block : SealedBlock} {total found : ℕ} {key : BlockKey}

/-- **A result is complete exactly if every key asked for was delivered.** -/
theorem missing_eq_zero_iff (htotal : total = prefixBlocks.length + requestedKeys.length) :
    (buildReadyResult prefixBlocks total source found requestedKeys cacheInserts).missing = 0 ↔
      ∀ key ∈ requestedKeys, ∃ block, (key, block) ∈ cacheInserts := by
  have hle := length_mapWhile_le (insertFor cacheInserts) requestedKeys
  have hmissing :
      (buildReadyResult prefixBlocks total source found requestedKeys cacheInserts).missing = 0 ↔
        (mapWhile (insertFor cacheInserts) requestedKeys).length = requestedKeys.length := by
    show total - (prefixBlocks ++ mapWhile (insertFor cacheInserts) requestedKeys).length = 0 ↔ _
    rw [length_append]
    omega
  rw [hmissing]
  constructor
  · intro hlength key hkey
    obtain ⟨block, -, hblock⟩ := forall₂_mem_left (mapWhile_forall₂ hlength) hkey
    exact ⟨block, mem_of_insertFor hblock⟩
  · intro h
    apply length_mapWhile_of_isSome
    intro key hkey
    obtain ⟨block, hblock⟩ := h key hkey
    exact isSome_insertFor hblock

/-- **The result covers the query**: nothing is missing, and after the resident prefix there is a
delivered block for every other key, in order. -/
def Covers (result : PrefetchTaskResult BlockKey SealedBlock) (keys : List BlockKey)
    (prefixBlocks : List SealedBlock) : Prop :=
  result.missing = 0 ∧ ∃ blocks, result.readyBlocks = prefixBlocks ++ blocks ∧
    Forall₂ (fun key block => (key, block) ∈ result.cacheInserts)
      (keys.drop prefixBlocks.length) blocks

theorem covers_iff {keys : List BlockKey} (hresident : prefixBlocks.length ≤ keys.length) :
    Covers (buildReadyResult prefixBlocks keys.length source found (keys.drop prefixBlocks.length)
      cacheInserts) keys prefixBlocks ↔
      ∀ key ∈ keys.drop prefixBlocks.length, ∃ block, (key, block) ∈ cacheInserts := by
  have htotal : keys.length = prefixBlocks.length + (keys.drop prefixBlocks.length).length := by
    rw [length_drop]
    omega
  rw [Covers, missing_eq_zero_iff htotal]
  refine and_iff_left_of_imp fun h => ?_
  refine ⟨_, rfl, (mapWhile_forall₂ (length_mapWhile_of_isSome fun key hkey => ?_)).imp ?_⟩
  · obtain ⟨block, hblock⟩ := h key hkey
    exact isSome_insertFor hblock
  · exact fun _ _ => mem_of_insertFor

/-! ### Results from the SSD -/

theorem ssdAttempt_of_source {deps : PrefetchTaskDeps n}
    (h : (runPrefetchTask deps input).source = some .ssd) :
    ssdAttempt deps input = some (runPrefetchTask deps input) := by
  unfold runPrefetchTask at h ⊢
  split at h
  · cases h
  · split at h
    · next hattempt => rw [hattempt]
    · split at h <;> cases h

theorem prefetchPrefix_le (ssd : SsdStore n) (keys : List BlockKey) :
    (ssd.prefetchPrefix keys).1 ≤ keys.length := by
  unfold SsdStore.prefetchPrefix
  dsimp only
  split
  · exact Nat.zero_le _
  · exact length_mapWhile_le _ _

/-- **The answer of the SSD store.**  It is asked for the keys it counts, as far as slots are free,
and answers if it finds some of them; for the full prefix, if it finds all keys. -/
def ssdAnswer (deps : PrefetchTaskDeps n) (input : PrefetchTaskInput) :
    Option (ℕ × List (BlockKey × SealedBlock)) :=
  deps.ssdStore.bind fun ssd =>
    let slots := deps.maxPrefetchBlocks - deps.reservedSsdPrefetchBlocks
    let fetched := ssd.prefetchPrefix
      (input.remainingKeys.take (min (ssd.prefixLen input.remainingKeys) slots))
    if 0 < fetched.1 ∧ (input.waitForFullPrefix → fetched.1 = input.remainingKeys.length) then
      some fetched
    else none

theorem ssdAttempt_eq (deps : PrefetchTaskDeps n) (input : PrefetchTaskInput) :
    ssdAttempt deps input = (ssdAnswer deps input).map fun fetched =>
      buildReadyResult input.prefixBlocks input.total (some .ssd) fetched.1
        (input.remainingKeys.take fetched.1) fetched.2 := by
  unfold ssdAttempt ssdAnswer reserveSsdPrefetchSlots
  rcases deps.ssdStore with _ | ssd
  · rfl
  dsimp only [Option.bind_some, Option.bind_eq_bind]
  generalize deps.maxPrefetchBlocks - deps.reservedSsdPrefetchBlocks = slots
  have hcount : ssd.prefixLen input.remainingKeys ≤ input.remainingKeys.length :=
    length_mapWhile_le _ _
  generalize ssd.prefixLen input.remainingKeys = counted at hcount
  -- what is found is not more than what was counted and reserved
  have hle := prefetchPrefix_le ssd (input.remainingKeys.take (min counted slots))
  rw [length_take] at hle
  generalize hfetched : ssd.prefetchPrefix (input.remainingKeys.take (min counted slots)) = fetched
    at hle ⊢
  grind

/-- **Inversion.**  A lookup for the full prefix that ends with an SSD result has found all keys at
submission, and its result is built from what was delivered. -/
theorem ssdAttempt_full {deps : PrefetchTaskDeps n}
    {result : PrefetchTaskResult BlockKey SealedBlock} (hwait : input.waitForFullPrefix)
    (h : ssdAttempt deps input = some result) :
    ∃ ssd, deps.ssdStore = some ssd ∧ ssd.submitPrefix input.remainingKeys ≠ [] ∧
      (ssd.submitPrefix input.remainingKeys).length = input.remainingKeys.length ∧
      result = buildReadyResult input.prefixBlocks input.total (some .ssd)
        input.remainingKeys.length input.remainingKeys
        (ssd.deliver (ssd.submitPrefix input.remainingKeys)) := by
  rw [ssdAttempt_eq] at h
  obtain ⟨fetched, hanswer, rfl⟩ := map_eq_some_iff.mp h
  obtain ⟨ssd, hssd, hanswer⟩ := bind_eq_some_iff.mp hanswer
  obtain ⟨⟨hpos, hall⟩, hfetched⟩ := Option.ite_none_right_eq_some.mp hanswer
  obtain rfl := some.inj hfetched
  -- all keys are found, so all were asked for
  replace hall := hall hwait
  have hle := prefetchPrefix_le ssd (input.remainingKeys.take
    (min (ssd.prefixLen input.remainingKeys)
      (deps.maxPrefetchBlocks - deps.reservedSsdPrefetchBlocks)))
  rw [hall, length_take] at hle
  rw [take_of_length_le (le_min_iff.mp hle).1] at hall hpos ⊢
  unfold SsdStore.prefetchPrefix at hall hpos ⊢
  dsimp only at hall hpos ⊢
  split at hpos
  · cases hpos
  · next hne =>
    rw [if_neg hne] at hall ⊢
    rw [hall, take_length]
    exact ⟨ssd, hssd, ne_nil_of_length_pos hpos, hall, rfl⟩

/-! ### Losses -/

namespace SsdStore

/-- What holds of every lookup: the groups are those of the requests, in some order, and every task
completes once. -/
structure Runs : Prop where
  groups : ∃ isNuma, ssd.groups.Perm (groupSlotsByNuma isNuma requests)
  once : (ssd.completions.map Prod.fst).Perm (range requests.length)

/-- The read of a block ended well: its task reached the worker, all bytes were read, and the entry
was still valid then. -/
def ReadsWhole (readEnd : Option (ReadEnd n)) (entry : SsdIndexEntry n) : Prop :=
  ∃ e ring, readEnd = some e ∧ e.bytesRead = some entry.len ∧ e.ring = some ring ∧
    ring.IsOffsetValid entry

/-- **No loss.**  The queue takes the batch, its memory is allocated, and for every key a request
is read as a whole. -/
structure Delivers : Prop where
  accepts : ssd.queueAccepts
  allocates : Allocates ssdPrefetchChunkBytes ssd.allocate 0 ssd.groups
  reads : ∀ req ∈ requests, ∃ c ∈ ssd.completions, ∃ req', requests[c.1]? = some req' ∧
    req'.key = req.key ∧ ReadsWhole c.2 req'.entry

end SsdStore

open SsdStore (ReadsWhole)

theorem isSome_result_iff {e : ReadEnd n} {task : PrefetchTask n} :
    (e.result task).isSome ↔ ReadsWhole (some e) task.entry := by
  obtain ⟨memory, bytesRead, ring⟩ := e
  unfold ReadEnd.result executePrefetch ReadsWhole
  cases bytesRead <;> cases ring <;> grind

/-- The tasks are the requests, with the places of their slots. -/
theorem exists_task_iff {requests : List (PrefetchRequest n)} {allocs : List (List SlotAlloc)}
    (hlength : allocs.length = requests.length) {i : ℕ} {entry : SsdIndexEntry n} :
    (∃ task, (prefetchTasks requests allocs)[i]? = some task ∧ task.key = key ∧
      task.entry = entry) ↔
      ∃ req, requests[i]? = some req ∧ req.key = key ∧ req.entry = entry := by
  rw [prefetchTasks]
  constructor
  · rintro ⟨task, htask, rfl, rfl⟩
    obtain ⟨req, slotAllocs, hreq, -, rfl⟩ := getElem?_zipWith_eq_some.mp htask
    exact ⟨req, hreq, rfl, rfl⟩
  · rintro ⟨req, hreq, rfl, rfl⟩
    obtain ⟨hi, -⟩ := List.getElem?_eq_some_iff.mp hreq
    have halloc : allocs[i]? = some allocs[i] := getElem?_eq_getElem (by omega)
    exact ⟨_, getElem?_zipWith_eq_some.mpr ⟨req, allocs[i], hreq, halloc, rfl⟩, rfl, rfl⟩

/-- A key has a block among the outcomes if a request for it was read as a whole. -/
theorem exists_mem_collected_iff {requests : List (PrefetchRequest n)}
    {allocs : List (List SlotAlloc)} (hlength : allocs.length = requests.length)
    {completions : List (ℕ × Option (ReadEnd n))} :
    (∃ block, (key, block) ∈
      BatchContext.collected (outcomes (prefetchTasks requests allocs) completions)) ↔
      ∃ c ∈ completions, ∃ req, requests[c.1]? = some req ∧ req.key = key ∧
        ReadsWhole c.2 req.entry := by
  constructor
  · rintro ⟨block, hblock⟩
    obtain ⟨⟨key', result⟩, houtcome, hblock⟩ := mem_flatMap.mp hblock
    obtain ⟨rfl, rfl⟩ : key' = key ∧ result = some block := by
      cases result with
      | none => cases hblock
      | some _ =>
        cases mem_singleton.mp hblock
        exact ⟨rfl, rfl⟩
    obtain ⟨c, hc, houtcome⟩ := mem_filterMap.mp houtcome
    obtain ⟨task, htask, heq⟩ := map_eq_some_iff.mp houtcome
    obtain ⟨hkey, hresult⟩ := Prod.mk.inj heq
    obtain ⟨e, he, hresult⟩ := bind_eq_some_iff.mp hresult
    obtain ⟨req, hreq, hreqKey, hentry⟩ := (exists_task_iff hlength).mp ⟨task, htask, hkey, rfl⟩
    refine ⟨c, hc, req, hreq, hreqKey, ?_⟩
    rw [he, hentry]
    exact isSome_result_iff.mp (isSome_of_eq_some hresult)
  · rintro ⟨c, hc, req, hreq, hkey, hwhole⟩
    obtain ⟨task, htask, hkey, hentry⟩ := (exists_task_iff hlength).mpr ⟨req, hreq, hkey, rfl⟩
    have hread := hwhole
    obtain ⟨e, -, he, -⟩ := hread
    rw [he, ← hentry] at hwhole
    obtain ⟨block, hblock⟩ := isSome_iff_exists.mp (isSome_result_iff.mpr hwhole)
    refine ⟨block, mem_flatMap.mpr ⟨(key, some block), ?_, mem_singleton.mpr rfl⟩⟩
    refine mem_filterMap.mpr ⟨c, hc, ?_⟩
    rw [htask, he, map_some, bind_some, hblock, hkey]

/-- A batch whose memory is allocated delivers the blocks of all its outcomes. -/
theorem deliver_eq {ssd : SsdStore n} {requests : List (PrefetchRequest n)}
    (hruns : ssd.Runs requests) (hne : requests ≠ []) (haccepts : ssd.queueAccepts)
    (hallocates : Allocates ssdPrefetchChunkBytes ssd.allocate 0 ssd.groups) :
    ∃ allocs, allocs.length = requests.length ∧ ssd.deliver requests =
      BatchContext.collected (outcomes (prefetchTasks requests allocs) ssd.completions) := by
  obtain ⟨isNuma, hgroups⟩ := hruns.groups
  obtain ⟨p, hdispatch, -⟩ := dispatchPrefetchBatch_ok isNuma (by decide) hgroups hallocates
  have hlength : (p.allocs requests).length = requests.length := by
    rw [Placing.allocs, length_map, length_zipIdx]
  -- every completion is about one of the tasks
  have hcount : (outcomes (prefetchTasks requests (p.allocs requests)) ssd.completions).length =
      requests.length := by
    have hcompletions := hruns.once.length_eq
    rw [length_map, length_range] at hcompletions
    rw [← hcompletions]
    refine filterMap_length_eq_length.mpr fun c hc => ?_
    have hlt := mem_range.mp (hruns.once.mem_iff.mp (mem_map_of_mem hc))
    obtain ⟨task, htask, -⟩ :=
      (exists_task_iff hlength).mpr ⟨_, getElem?_eq_getElem hlt, rfl, rfl⟩
    rw [htask]
    rfl
  refine ⟨_, hlength, ?_⟩
  rw [SsdStore.deliver, if_pos haccepts, hdispatch]
  dsimp only
  rw [BatchContext.sent_completeAll hcount.symm rfl
    (ne_nil_of_length_pos (by rw [hcount]; exact length_pos_of_ne_nil hne))]
  rfl

/-- A batch that delivers anything was taken, and its memory allocated. -/
theorem allocates_of_mem_deliver {ssd : SsdStore n} {requests : List (PrefetchRequest n)}
    (h : (key, block) ∈ ssd.deliver requests) :
    ssd.queueAccepts ∧ Allocates ssdPrefetchChunkBytes ssd.allocate 0 ssd.groups := by
  rw [SsdStore.deliver] at h
  split at h
  · next haccepts =>
    split at h
    · next hdispatch => exact ⟨haccepts, allocates_of_dispatch (by decide) hdispatch⟩
    · cases h
    · cases h
  · cases h

/-- **All or nothing, exactly without a loss.**  If a lookup for the full prefix ends with an SSD
result, the result covers all keys of the query if and only if no block was lost on the way. -/
theorem covers_iff_delivers (ssd : SsdStore n) (hssd : deps.ssdStore = some ssd)
    (keys : List BlockKey) (prefixBlocks : List SealedBlock)
    (hresident : prefixBlocks.length ≤ keys.length)
    (hruns : ssd.Runs (ssd.submitPrefix (keys.drop prefixBlocks.length)))
    (hsource : (runPrefetchTask deps (scanInput keys prefixBlocks true)).source = some .ssd) :
    Covers (runPrefetchTask deps (scanInput keys prefixBlocks true)) keys prefixBlocks ↔
      ssd.Delivers (ssd.submitPrefix (keys.drop prefixBlocks.length)) := by
  obtain ⟨ssd', hssd', hne, hlength, hresult⟩ := ssdAttempt_full rfl (ssdAttempt_of_source hsource)
  obtain rfl := Option.some.inj (hssd.symm.trans hssd')
  rw [hresult]
  dsimp only [scanInput] at hne hlength ⊢
  have hrequests := mapWhile_forall₂ hlength
  refine (covers_iff hresident).trans ⟨fun h => ?_, fun h key hkey => ?_⟩
  · have hdelivered : ∀ req ∈ ssd.submitPrefix (keys.drop prefixBlocks.length), ∃ block,
        (req.key, block) ∈ ssd.deliver (ssd.submitPrefix (keys.drop prefixBlocks.length)) := by
      intro req hreq
      obtain ⟨key, hkey, hget⟩ := forall₂_mem_left hrequests.flip hreq
      obtain ⟨entry, -, rfl⟩ := map_eq_some_iff.mp hget
      exact h key hkey
    obtain ⟨req, hreq⟩ := exists_mem_of_ne_nil _ hne
    obtain ⟨block, hblock⟩ := hdelivered req hreq
    obtain ⟨haccepts, hallocates⟩ := allocates_of_mem_deliver hblock
    obtain ⟨allocs, hallocs, hdeliver⟩ := deliver_eq hruns hne haccepts hallocates
    refine ⟨haccepts, hallocates, fun req hreq => ?_⟩
    rw [← exists_mem_collected_iff hallocs, ← hdeliver]
    exact hdelivered req hreq
  · obtain ⟨allocs, hallocs, hdeliver⟩ := deliver_eq hruns hne h.accepts h.allocates
    obtain ⟨req, hreq, hget⟩ := forall₂_mem_left hrequests hkey
    obtain ⟨entry, -, rfl⟩ := map_eq_some_iff.mp hget
    rw [hdeliver, exists_mem_collected_iff hallocs]
    exact h.reads _ hreq

/-! ### A lookup for one block -/

def loneKey : BlockKey := ⟨"ns", [1]⟩

def loneEntry : SsdIndexEntry 1 where
  shardId := ⟨0, Nat.one_pos⟩
  begin := 0
  len := 1
  fileOffset := 0
  slots := [.new [1] ⟨0⟩]

/-- A ring that holds one block, with the tail where it is said. -/
def loneRing (tail : ℕ) : SsdRingBuffer 1 where
  shards _ := { capacity := 8, head := 1, tail, order := [loneKey] }
  nextShard := ⟨0, Nat.one_pos⟩
  entries key := if key = loneKey then some (.committed loneEntry) else none

/-- The block is on the SSD; its memory is allocated or not, and the tail may pass it before the end
of the read. -/
def loneDeps (allocation : Option ℕ) (tailAtEnd : ℕ) : PrefetchTaskDeps 1 where
  rdmaFirst := none
  ssdStore := some
    { ringAtLookup := loneRing 0
      ringAtSubmit := loneRing 0
      queueAccepts := true
      groups := [(none, [{ blockIdx := 0, slotIdx := 0, size := 1 }])]
      allocate := fun _ => allocation
      completions :=
        [(0, some
          { memory := fun _ => 7, bytesRead := some 1, ring := some (loneRing tailAtEnd) })] }
  maxPrefetchBlocks := 4
  reservedSsdPrefetchBlocks := 0
  rdmaPolls := []

theorem covers_iff_delivers_lone :
    (runPrefetchTask (loneDeps (some 64) 0) (scanInput [loneKey] [] true)).source = some .ssd ∧
    Covers (runPrefetchTask (loneDeps (some 64) 0) (scanInput [loneKey] [] true)) [loneKey] [] := by
  refine ⟨by decide, (covers_iff_delivers (loneDeps (some 64) 0) _ rfl [loneKey] []
    (Nat.zero_le _) ⟨⟨false, .refl _⟩, .refl _⟩ (by decide)).mpr ?_⟩
  refine ⟨rfl, ⟨by decide, fun _ _ => rfl⟩, ?_⟩
  intro req hreq
  obtain rfl := mem_singleton.mp hreq
  exact ⟨_, mem_singleton.mpr rfl, _, rfl, rfl, _, _, rfl, rfl, rfl, Nat.le_refl 0⟩

/-- **Lost blocks.**  The memory for the block is not allocated, or the block is overwritten while
it is read: the result still comes from the SSD, with one block found and one missing. -/
theorem lost_block_is_missing :
    runPrefetchTask (loneDeps none 0) (scanInput [loneKey] [] true) =
      { source := some .ssd, found := 1, cacheInserts := [], readyBlocks := [], missing := 1 } ∧
    runPrefetchTask (loneDeps (some 64) 1) (scanInput [loneKey] [] true) =
      { source := some .ssd, found := 1, cacheInserts := [], readyBlocks := [], missing := 1 } := by
  decide

end PegaFlow.SsdPrefetch
