/-
PegaFlow/WritePath.lean

The insert worker: from the slots of finished saves to sealed blocks (`write_path.rs`,
`offload.rs`, `block.rs`).

A save hands over one batch.  The worker groups the batch by key, fills the slots of the inflight
block of each key, the first save of a slot winning, and collects the blocks that are complete.
They are published in the read cache when the whole batch is done; until then the worker looks at
the cache as it was before the batch.  An entry that has every slot, in order, of a key that is
not in flight is sealed directly.
-/
import PegaFlow.Block
import PegaFlow.KeyedSums
import Mathlib.Data.List.Dedup
import Mathlib.Data.List.ReduceOption

namespace PegaFlow

open List

/-- The node of a slot that was not saved yet. -/
def NumaNode.unknown : NumaNode := ⟨4294967295⟩

namespace WritePath

variable {K B : Type} [DecidableEq K]

/-! ### Batches -/

/-- One layer's saved blocks, ready for cache insertion. -/
structure RawSaveLayer (K B : Type) where
  slotId : ℕ
  blocks : List B
  /-- Keys in save order, parallel to the blocks. -/
  blockHashes : List K

/-- Deferred save batch, sent to the insert worker after the GPU copy. -/
structure RawSaveBatch (K B : Type) where
  totalSlots : ℕ
  numaNode : NumaNode
  layers : List (RawSaveLayer K B)

/-- Grouped insert entries: each key with its slots. -/
abbrev InsertEntries (K B : Type) := List (K × List (ℕ × B))

/-- Fast path: all layers share one hash order, so entries are built block by block. -/
def buildOrderedInsertEntries (hashes : List K) (layers : List (RawSaveLayer K B)) :
    InsertEntries K B :=
  hashes.zipIdx.map fun e =>
    (e.1, layers.filterMap fun layer => layer.blocks[e.2]?.map fun block => (layer.slotId, block))

variable (layers : List (RawSaveLayer K B))

/-- Every saved slot with its key, layer by layer. -/
def keyedSlots : List (K × ℕ × B) :=
  layers.flatMap fun layer =>
    (layer.blocks.zip layer.blockHashes).map fun e => (e.2, layer.slotId, e.1)

/-- Fallback for heterogeneous per-layer hash sets: group via a hash map. -/
def buildHashedInsertEntries : InsertEntries K B :=
  ((keyedSlots layers).map Prod.fst).dedup.map fun key =>
    (key, ((keyedSlots layers).filter (·.1 = key)).map Prod.snd)

def canUseOrderedFastPath : List (RawSaveLayer K B) → Bool
  | [] => false
  | first :: rest => (first :: rest).all fun layer => layer.blockHashes = first.blockHashes

def buildInsertEntries : InsertEntries K B :=
  if canUseOrderedFastPath layers then
    buildOrderedInsertEntries ((layers.head?.map RawSaveLayer.blockHashes).getD []) layers
  else buildHashedInsertEntries layers

/-! ### Blocks -/

/-- Block that is still being written. -/
structure InflightBlock (fp : B → ℕ) where
  slots : List (Option B)
  remaining : ℕ
  footprint : ℕ
  slotNumas : List NumaNode
  remaining_eq : remaining = slots.countP Option.isNone
  footprint_eq : footprint = tally fp slots.reduceOption
  numas_length : slotNumas.length = slots.length

variable {fp : B → ℕ} {slotId : ℕ}

/-- Filling a free slot uses it up and adds its footprint. -/
theorem fill_counts (fp : B → ℕ) {slots : List (Option B)} (block : B)
    (h : slots[slotId]? = some none) :
    slots.countP Option.isNone = (slots.set slotId (some block)).countP Option.isNone + 1 ∧
      tally fp (slots.set slotId (some block)).reduceOption =
        tally fp slots.reduceOption + fp block := by
  induction slots generalizing slotId with
  | nil => cases h
  | cons slot slots ih =>
    cases slotId with
    | zero =>
      obtain rfl : slot = none := by simpa using h
      constructor
      · rw [set_cons_zero, countP_cons_of_pos rfl, countP_cons_of_neg (by simp)]
      · rw [set_cons_zero, reduceOption_cons_of_some, reduceOption_cons_of_none,
          tally_cons, add_comm]
    | succ i =>
      obtain ⟨hcount, hsum⟩ := ih (by simpa using h)
      rw [set_cons_succ]
      constructor
      · rw [countP_cons, countP_cons]
        omega
      · cases slot with
        | none => rwa [reduceOption_cons_of_none]
        | some b =>
          rw [reduceOption_cons_of_some, reduceOption_cons_of_some, tally_cons,
            tally_cons, hsum, add_assoc]

namespace InflightBlock

def new (fp : B → ℕ) (totalSlots : ℕ) : InflightBlock fp where
  slots := replicate totalSlots none
  remaining := totalSlots
  footprint := 0
  slotNumas := replicate totalSlots NumaNode.unknown
  remaining_eq := by
    rw [countP_replicate]
    rfl
  footprint_eq := by
    have hempty : (replicate totalSlots (none : Option B)).reduceOption = [] :=
      reduceOption_replicate_none
    rw [hempty, tally_nil]
  numas_length := by simp

def totalSlots (b : InflightBlock fp) : ℕ := b.slots.length

/-- Insert a slot idempotently: `none` for a duplicate. -/
def insertSlot (b : InflightBlock fp) (slotId : ℕ) (block : B) (numaNode : NumaNode) :
    Option (InflightBlock fp) :=
  match h : b.slots[slotId]? with
  | some none => some
    { slots := b.slots.set slotId (some block)
      remaining := b.remaining - 1
      footprint := b.footprint + fp block
      slotNumas := b.slotNumas.set slotId numaNode
      remaining_eq := by rw [b.remaining_eq, Nat.sub_eq_of_eq_add (fill_counts fp block h).1]
      footprint_eq := by rw [(fill_counts fp block h).2, b.footprint_eq]
      numas_length := by rw [length_set, length_set, b.numas_length] }
  | _ => none

/-- With no slot left to fill, nothing is dropped by unwrapping. -/
theorem length_reduceOption_of_remaining {b : InflightBlock fp} (h : b.remaining = 0) :
    b.slots.reduceOption.length = b.slots.length := by
  rw [b.remaining_eq, countP_eq_zero] at h
  rw [reduceOption_length_eq_iff]
  intro slot hslot
  exact Option.isSome_iff_ne_none.mpr (by simpa using h slot hslot)

/-- `seal`: convert to an immutable block. -/
def sealBlock (b : InflightBlock fp) (h : b.remaining = 0) : SealedBlock fp where
  slots := b.slots.reduceOption
  footprint := b.footprint
  slotNumas := b.slotNumas
  footprint_eq := b.footprint_eq
  numas_length := by rw [length_reduceOption_of_remaining h, b.numas_length]

end InflightBlock

/-- Create from a fully populated, slot-id ordered insert batch. -/
def fromOrderedSlotInserts (fp : B → ℕ) (slots : List (ℕ × B)) (totalSlots : ℕ)
    (numaNode : NumaNode) : Option (SealedBlock fp) :=
  if h : slots.map Prod.fst = range totalSlots then
    some
      { slots := slots.map Prod.snd
        footprint := tally fp (slots.map Prod.snd)
        slotNumas := replicate totalSlots numaNode
        footprint_eq := rfl
        numas_length := by
          have := congrArg length h
          rw [length_map, length_range] at this
          rw [length_replicate, length_map, this] }
  else none

/-! ### Processing a batch -/

variable {numaNode : NumaNode} {totalSlots : ℕ}

/-- What filling the slots of one entry leads to, with the bytes added. -/
inductive FillOutcome (fp : B → ℕ) where
  | pending (block : InflightBlock fp) (added : ℕ)
  | completed (block : InflightBlock fp) (h : block.remaining = 0) (added : ℕ)

/-- The loop over the slots of one entry; it stops when the block is complete. -/
def fillSlots (numaNode : NumaNode) :
    List (ℕ × B) → InflightBlock fp → ℕ → FillOutcome fp
  | [], block, added => .pending block added
  | (slotId, raw) :: rest, block, added =>
    match block.insertSlot slotId raw numaNode with
    | none => fillSlots numaNode rest block added
    | some block' =>
      if h : block'.remaining = 0 then .completed block' h (added + fp raw)
      else fillSlots numaNode rest block' (added + fp raw)

/-- The worker's state inside a batch: inflight blocks, blocks sealed so far, and the changes of
the byte metric. -/
structure BatchState (K : Type) [DecidableEq K] (fp : B → ℕ) where
  inflight : AList fun _ : K => InflightBlock fp
  sealedBlocks : List (K × SealedBlock fp)
  inflightBytesAdded : ℕ
  inflightBytesRemoved : ℕ

/-- Fill the slots of `key`, starting from `block`. -/
def BatchState.fill (st : BatchState K fp) (numaNode : NumaNode) (key : K)
    (slots : List (ℕ × B)) (block : InflightBlock fp) : BatchState K fp :=
  match fillSlots numaNode slots block 0 with
  | .pending block added =>
    { st with
      inflight := st.inflight.insert key block
      inflightBytesAdded := st.inflightBytesAdded + added }
  | .completed block h added =>
    { inflight := st.inflight.erase key
      sealedBlocks := st.sealedBlocks ++ [(key, block.sealBlock h)]
      inflightBytesAdded := st.inflightBytesAdded + added
      inflightBytesRemoved := st.inflightBytesRemoved + block.footprint }

def insertPartialSlots (totalSlots : ℕ) (numaNode : NumaNode) (st : BatchState K fp) (key : K)
    (slots : List (ℕ × B)) : BatchState K fp :=
  match st.inflight.lookup key with
  | none => st.fill numaNode key slots (InflightBlock.new fp totalSlots)
  | some block =>
    -- a slot count mismatch is logged and the entry dropped
    if block.totalSlots ≠ totalSlots then st else st.fill numaNode key slots block

/-- One entry of `process_insert_batch`; `resident` is the read cache before the batch. -/
def processEntry (resident : K → Bool) (totalSlots : ℕ) (numaNode : NumaNode)
    (st : BatchState K fp) (entry : K × List (ℕ × B)) : BatchState K fp :=
  if resident entry.1 then st
  else if (st.inflight.lookup entry.1).isSome then
    insertPartialSlots totalSlots numaNode st entry.1 entry.2
  else match fromOrderedSlotInserts fp entry.2 totalSlots numaNode with
    | some block => { st with sealedBlocks := st.sealedBlocks ++ [(entry.1, block)] }
    | none => insertPartialSlots totalSlots numaNode st entry.1 entry.2

/-- The loop over all entries of a batch. -/
def processEntries (resident : K → Bool) (totalSlots : ℕ) (numaNode : NumaNode)
    (entries : InsertEntries K B) (st : BatchState K fp) : BatchState K fp :=
  entries.foldl (processEntry resident totalSlots numaNode) st

variable {st : BatchState K fp}

/-- What holds of the worker holds after a batch if every entry keeps it. -/
theorem processEntries_induction {P : BatchState K fp → Prop} {resident : K → Bool}
    {entries : InsertEntries K B} (h : P st)
    (hstep : ∀ s, ∀ e ∈ entries, P s → P (processEntry resident totalSlots numaNode s e)) :
    P (processEntries resident totalSlots numaNode entries st) := by
  induction entries generalizing st with
  | nil => exact h
  | cons e entries ih =>
    refine ih (hstep st e mem_cons_self h) ?_
    exact fun s e' he' => hstep s e' (mem_cons_of_mem _ he')

/-! ### The in-flight bytes -/

variable {block : InflightBlock fp} {slots : List (ℕ × B)} {before : ℕ}

theorem insertSlot_footprint {block' : InflightBlock fp} {raw : B}
    (h : block.insertSlot slotId raw numaNode = some block') :
    block'.footprint = block.footprint + fp raw ∧ block'.totalSlots = block.totalSlots := by
  unfold InflightBlock.insertSlot at h
  split at h
  · cases h
    exact ⟨rfl, length_set ..⟩
  · cases h

/-- What the loop over the slots adds to the block is what it reports. -/
def FillOutcome.Adds (o : FillOutcome fp) (footprint : ℕ) : Prop :=
  match o with
  | .pending block added => block.footprint = footprint + added
  | .completed block _ added => block.footprint = footprint + added

theorem fillSlots_adds {base added : ℕ} (h : block.footprint = base + added) :
    (fillSlots numaNode slots block added).Adds base := by
  induction slots generalizing block added with
  | nil => exact h
  | cons e rest ih =>
    obtain ⟨slotId, raw⟩ := e
    rw [fillSlots]
    split
    · exact ih h
    · next block' hinsert =>
      have hnew : block'.footprint = base + (added + fp raw) := by
        rw [(insertSlot_footprint hinsert).1, h, add_assoc]
      split
      · exact hnew
      · exact ih hnew

/-- The bytes of the blocks in flight. -/
def inflightFootprint (inflight : AList fun _ : K => InflightBlock fp) : ℕ :=
  keyedSum InflightBlock.footprint inflight

/-- The changes reported so far account for the blocks in flight, `before` being their bytes at
the start of the batch. -/
def BatchState.Metered (before : ℕ) (st : BatchState K fp) : Prop :=
  before + st.inflightBytesAdded = inflightFootprint st.inflight + st.inflightBytesRemoved

theorem metered_fill {key : K} (h : st.Metered before) (hblock : inflightFootprint st.inflight =
      block.footprint + inflightFootprint (st.inflight.erase key)) :
    (st.fill numaNode key slots block).Metered before := by
  have hadds : (fillSlots numaNode slots block 0).Adds block.footprint :=
    fillSlots_adds (add_zero _).symm
  unfold BatchState.Metered at h ⊢
  unfold BatchState.fill
  split
  · next block' added hfill =>
    rw [hfill] at hadds
    show before + (st.inflightBytesAdded + added) =
      inflightFootprint (st.inflight.insert key block') + st.inflightBytesRemoved
    rw [inflightFootprint, keyedSum_insert, hadds]
    unfold inflightFootprint at h hblock
    omega
  · next block' hdone added hfill =>
    rw [hfill] at hadds
    have hadds : block'.footprint = block.footprint + added := hadds
    show before + (st.inflightBytesAdded + added) =
      inflightFootprint (st.inflight.erase key) + (st.inflightBytesRemoved + block'.footprint)
    omega

theorem metered_insertPartialSlots {key : K} (h : st.Metered before) :
    (insertPartialSlots totalSlots numaNode st key slots).Metered before := by
  unfold insertPartialSlots
  split
  · next hnone =>
    refine metered_fill h ?_
    rw [inflightFootprint, inflightFootprint, keyedSum_erase_of_lookup_none _ hnone]
    exact (zero_add _).symm
  · next block hsome =>
    split
    · exact h
    · exact metered_fill h (keyedSum_of_lookup _ hsome)

theorem metered_processEntry {resident : K → Bool} {entry : K × List (ℕ × B)}
    (h : st.Metered before) :
    (processEntry resident totalSlots numaNode st entry).Metered before := by
  unfold processEntry
  split
  · exact h
  split
  · exact metered_insertPartialSlots h
  split
  · exact h
  · exact metered_insertPartialSlots h

/-! ### The worker -/

/-- The worker between batches, with the in-flight byte metric. -/
structure Worker (K : Type) [DecidableEq K] (fp : B → ℕ) where
  inflight : AList fun _ : K => InflightBlock fp
  inflightBytes : ℤ

/-- A batch as the worker sees it, grouped into entries. -/
structure InsertBatch (K B : Type) where
  entries : InsertEntries K B
  totalSlots : ℕ
  numaNode : NumaNode

namespace Worker

def init : Worker K fp := ⟨∅, 0⟩

variable (w : Worker K fp)

/-- The loop of `process_insert_batch` over the whole batch. -/
def processed (resident : K → Bool) (batch : InsertBatch K B) : BatchState K fp :=
  processEntries resident batch.totalSlots batch.numaNode batch.entries
    { inflight := w.inflight, sealedBlocks := [], inflightBytesAdded := 0,
      inflightBytesRemoved := 0 }

/-- The blocks that `process_insert_batch` hands to the read cache. -/
def sealedIn (resident : K → Bool) (batch : InsertBatch K B) : List (K × SealedBlock fp) :=
  (w.processed resident batch).sealedBlocks

/-- `process_insert_batch`, what stays in the worker. -/
def processInsertBatch (resident : K → Bool) (batch : InsertBatch K B) : Worker K fp :=
  let result := w.processed resident batch
  { inflight := result.inflight
    inflightBytes := w.inflightBytes + result.inflightBytesAdded - result.inflightBytesRemoved }

/-- The worker after a sequence of batches, each with what the read cache holds at the time. -/
def run (inputs : List ((K → Bool) × InsertBatch K B)) : Worker K fp :=
  inputs.foldl (fun w x => w.processInsertBatch x.1 x.2) w

/-- The metric reads the bytes of the blocks in flight. -/
def MetricOk : Prop :=
  w.inflightBytes = inflightFootprint w.inflight

theorem MetricOk.processInsertBatch {w : Worker K fp} (h : w.MetricOk) (resident : K → Bool)
    (batch : InsertBatch K B) : (w.processInsertBatch resident batch).MetricOk := by
  have hmetered : (w.processed resident batch).Metered (inflightFootprint w.inflight) :=
    processEntries_induction rfl fun _ _ _ hs => metered_processEntry hs
  unfold MetricOk at h ⊢
  unfold BatchState.Metered at hmetered
  unfold Worker.processInsertBatch
  dsimp only
  omega

theorem MetricOk.run {w : Worker K fp} (h : w.MetricOk)
    (inputs : List ((K → Bool) × InsertBatch K B)) : (w.run inputs).MetricOk := by
  induction inputs generalizing w with
  | nil => exact h
  | cons x inputs ih => exact ih (h.processInsertBatch x.1 x.2)

end Worker

/-- The worker together with the read cache, which only the worker writes. -/
structure WriteState (K : Type) [DecidableEq K] (fp : B → ℕ) extends Worker K fp where
  cache : AList fun _ : K => SealedBlock fp

/-- `batch_insert_refs` with admission off: a key that is already resident is kept. -/
def publish (cache : AList fun _ : K => SealedBlock fp) (sealedBlocks : List (K × SealedBlock fp)) :
    AList fun _ : K => SealedBlock fp :=
  sealedBlocks.foldl
    (fun cache e => if (cache.lookup e.1).isSome then cache else cache.insert e.1 e.2) cache

namespace WriteState

def init : WriteState K fp := { Worker.init with cache := ∅ }

def resident (s : WriteState K fp) (key : K) : Bool := (s.cache.lookup key).isSome

/-- `process_insert_batch`, with the sealed blocks published at its end. -/
def processInsertBatch (s : WriteState K fp) (batch : InsertBatch K B) : WriteState K fp :=
  { s.toWorker.processInsertBatch s.resident batch with
    cache := publish s.cache (s.sealedIn s.resident batch) }

/-- `process_raw_save_batch`. -/
def processRawSaveBatch (s : WriteState K fp) (batch : RawSaveBatch K B) : WriteState K fp :=
  s.processInsertBatch ⟨buildInsertEntries batch.layers, batch.totalSlots, batch.numaNode⟩

end WriteState

end WritePath

end PegaFlow
