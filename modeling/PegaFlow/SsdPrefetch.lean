/-
PegaFlow/SsdPrefetch.lean

Reading blocks back from the SSD cache (`ssd_cache.rs`, `seal_offload.rs`).

A batch of blocks is read into pinned memory of the right NUMA nodes.  The slots of all blocks are
grouped by node, each group is cut into chunks of bounded size, every chunk becomes one allocation,
and every slot gets its place in one of them.  A vectored read then scatters the bytes of a block
over the places of its slots, and the block is rebuilt from the places.
-/
import PegaFlow.ByteCuts
import PegaFlow.GpuLayout
import PegaFlow.Groups
import PegaFlow.SsdDevice

namespace PegaFlow

open List

/-- The node is not known. -/
def NumaNode.isUnknown (node : NumaNode) : Bool := node.id = 0xFFFFFFFF

namespace SsdPrefetch

open Gpu (checkedAdd okOr usizeLimit)

variable {n : ℕ}

/-! ### Grouping -/

structure PrefetchRequest (n : ℕ) where
  key : BlockKey
  entry : SsdIndexEntry n
deriving DecidableEq, Repr

/-- Slot reference for NUMA grouping during allocation. -/
structure SlotRef where
  blockIdx : ℕ
  slotIdx : ℕ
  size : ℕ
deriving DecidableEq, Repr

variable (isNuma : Bool)

/-- The group of a slot: `none` is global or unknown. -/
def numaKey (slot : SlotMeta) : Option NumaNode :=
  if isNuma then if slot.numaNode.isUnknown then none else some slot.numaNode else none

variable (requests : List (PrefetchRequest n))

/-- The slots of all blocks with their groups, in the order of the two loops. -/
def slotRefs : List (Option NumaNode × SlotRef) :=
  requests.zipIdx.flatMap fun req =>
    req.1.entry.slots.zipIdx.map fun slot =>
      (numaKey isNuma slot.1,
        { blockIdx := req.2, slotIdx := slot.2, size := slot.1.totalSize })

/-- Group all slots across all blocks by NUMA node. -/
def groupSlotsByNuma : List (Option NumaNode × List SlotRef) :=
  groupBy (slotRefs isNuma requests)

/-! ### Chunking -/

structure SlotPlacement where
  blockIdx : ℕ
  slotIdx : ℕ
  offset : ℕ
deriving DecidableEq, Repr

structure PrefetchChunk where
  capacity : ℕ
  size : ℕ
  slots : List SlotPlacement
deriving DecidableEq, Repr

/-- The slot does not fit in the current chunk, or there is none. -/
def needsNewChunk (current : Option PrefetchChunk) (size : ℕ) : Bool :=
  match current with
  | none => true
  | some chunk =>
    match checkedAdd chunk.size size with
    | none => true
    | some chunkEnd => chunk.capacity < chunkEnd

/-- The chunk with a further slot at its end. -/
def PrefetchChunk.push (chunk : PrefetchChunk) (slot : SlotRef) : PrefetchChunk :=
  { chunk with
    size := chunk.size + slot.size
    slots := chunk.slots ++
      [{ blockIdx := slot.blockIdx, slotIdx := slot.slotIdx, offset := chunk.size }] }

/-- Put a slot into the active chunk, which has to fit it, and count it off. -/
def pushSlot (slot : SlotRef) (chunk : PrefetchChunk) (remaining : ℕ) :
    Except String (PrefetchChunk × ℕ) :=
  if usizeLimit ≤ chunk.size + slot.size then
    .error "new SSD prefetch chunk must fit its first slot"
  else if remaining < slot.size then
    .error "SSD prefetch remaining bytes must cover every slot"
  else .ok (chunk.push slot, remaining - slot.size)

/-- The loop over the slots. -/
def chunkLoop (chunkBytes : ℕ) :
    List SlotRef → ℕ → List PrefetchChunk → Option PrefetchChunk →
      Except String (List PrefetchChunk)
  | [], _, chunks, current => .ok (chunks ++ current.toList)
  | slot :: refs, remaining, chunks, current => do
    let fresh : PrefetchChunk :=
      { capacity := max (min remaining chunkBytes) slot.size, size := 0, slots := [] }
    let startNew := needsNewChunk current slot.size
    let chunks := if startNew then chunks ++ current.toList else chunks
    let (chunk, remaining) ←
      pushSlot slot (if startNew then fresh else current.getD fresh) remaining
    chunkLoop chunkBytes refs remaining chunks (some chunk)

/-- `try_fold` of `checked_add`. -/
def totalSize (refs : List SlotRef) : Option ℕ :=
  refs.foldlM (fun total slot => checkedAdd total slot.size) 0

/-- Cut a group into chunks of at most `chunkBytes`, but at least one slot.  The inner error is the
one the source returns. -/
def chunkSlotRefs (refs : List SlotRef) (chunkBytes : ℕ) :
    Except String (Except String (List PrefetchChunk)) :=
  if chunkBytes = 0 then .error "SSD prefetch chunk size must be non-zero"
  else match totalSize refs with
    | none => .ok (.error "SSD prefetch allocation size overflow")
    | some remaining => do
      let chunks ← chunkLoop chunkBytes refs remaining [] none
      .ok (.ok chunks)

/-! ### Dispatch -/

/-- Which allocation, and the offset within it. -/
structure SlotAlloc where
  /-- The address of the allocation. -/
  allocation : ℕ
  offset : ℕ
deriving DecidableEq, Repr

/-- `slot_allocs`, by block and slot, and the allocations `(address, size)` made so far. -/
structure Placing where
  slotAllocs : ℕ → ℕ → Option SlotAlloc
  allocations : List (ℕ × ℕ)

def Placing.empty : Placing := ⟨fun _ _ => none, []⟩

variable (p : Placing)

def Placing.assign (allocation : ℕ) (slot : SlotPlacement) : Placing :=
  { p with
    slotAllocs := fun blockIdx slotIdx =>
      if blockIdx = slot.blockIdx ∧ slotIdx = slot.slotIdx then
        some { allocation, offset := slot.offset }
      else p.slotAllocs blockIdx slotIdx }

/-- Allocate the chunks of one group; `allocate` answers the calls in their order. -/
def allocateChunks (allocate : ℕ → Option ℕ) : List PrefetchChunk → Placing → Option Placing
  | [], p => some p
  | chunk :: chunks, p =>
    match allocate p.allocations.length with
    | none => none
    | some allocation =>
      let p := chunk.slots.foldl (Placing.assign · allocation)
        { p with allocations := p.allocations ++ [(allocation, chunk.size)] }
      allocateChunks allocate chunks p

/-- Place all groups; `none` fails the whole batch. -/
def allocateGroups (chunkBytes : ℕ) (allocate : ℕ → Option ℕ) :
    List (Option NumaNode × List SlotRef) → Placing → Except String (Option Placing)
  | [], p => .ok (some p)
  | (_, refs) :: groups, p => do
    match ← chunkSlotRefs refs chunkBytes with
    | .error _ => .ok none
    | .ok chunks =>
      match allocateChunks allocate chunks p with
      | none => .ok none
      | some p => allocateGroups chunkBytes allocate groups p

/-- The allocations of the slots of one block. -/
def blockAllocs (blockIdx slots : ℕ) : Except String (List SlotAlloc) :=
  (range slots).mapM fun slotIdx =>
    okOr (p.slotAllocs blockIdx slotIdx) "all slots must have allocations"

/-- `dispatch_prefetch_batch`, up to the sending of the tasks: the allocations of the slots of every
block, or `none` if the batch fails. -/
def dispatchPrefetchBatch (chunkBytes : ℕ) (allocate : ℕ → Option ℕ)
    (groups : List (Option NumaNode × List SlotRef)) (requests : List (PrefetchRequest n)) :
    Except String (Option (List (List SlotAlloc) × List (ℕ × ℕ))) := do
  match ← allocateGroups chunkBytes allocate groups .empty with
  | none => .ok none
  | some p =>
    let allocs ← requests.zipIdx.mapM fun req => blockAllocs p req.2 req.1.entry.slots.length
    .ok (some (allocs, p.allocations))

/-! ### Reading and rebuilding -/

/-- The iovecs `(address, size)` for reading a slot. -/
def readIovecs (slot : SlotMeta) (base offset : ℕ) : List (ℕ × ℕ) :=
  cuts (base + offset) slot.segmentSizes

/-- The iovecs of a block, slot by slot. -/
def blockIovecs (entry : SsdIndexEntry n) (allocs : List SlotAlloc) : List (ℕ × ℕ) :=
  (entry.slots.zip allocs).flatMap fun e => readIovecs e.1 e.2.allocation e.2.offset

/-- A vectored read fills the iovecs from consecutive parts of the file. -/
def readvAt (fileOffset : ℕ) (iovecs : List (ℕ × ℕ)) : List RangeCopy :=
  zipWith (fun dst src => { src := src.1, dst := dst.1, len := dst.2 }) iovecs
    (cuts fileOffset (iovecs.map Prod.snd))

/-- The copies of the read of one block. -/
def blockReads (entry : SsdIndexEntry n) (allocs : List SlotAlloc) : List (Fin n × RangeCopy) :=
  (readvAt entry.fileOffset (blockIovecs entry allocs)).map fun c => (entry.shardId, c)

variable (requests : List (PrefetchRequest n))

/-- The copies of all reads of a batch. -/
def batchReads (allocs : List (List SlotAlloc)) : List (Fin n × RangeCopy) :=
  (requests.zip allocs).flatMap fun e => blockReads e.1.entry e.2

variable (memory : ℕ → UInt8)

/-- The segments of a slot as memory holds them. -/
def reconstructRawBlock (slot : SlotMeta) (alloc : SlotAlloc) : RawBlock :=
  { segments := (cuts (alloc.allocation + alloc.offset) slot.segmentSizes).map fun c =>
      readAt memory c.1 c.2 }

/-- Rebuild a sealed block from per-slot allocations. -/
def rebuildSealedBlockPerSlot (allocs : List SlotAlloc) (slots : List SlotMeta) : SealedBlock :=
  .fromSlots ((slots.zip allocs).map fun e =>
    (reconstructRawBlock memory e.1 e.2, e.1.numaNode))

/-- The end of `execute_prefetch`: `bytesRead` is what the read reports, `none` an error. -/
def executePrefetch (entry : SsdIndexEntry n) (allocs : List SlotAlloc)
    (bytesRead : Option ℕ) : Option SealedBlock :=
  match bytesRead with
  | some count =>
    if count = entry.len then some (rebuildSealedBlockPerSlot memory allocs entry.slots) else none
  | none => none

/-! ### Grouping permutes the slots -/

/-- **The groups hold every slot once.** -/
theorem groupSlotsByNuma_perm : ((groupSlotsByNuma isNuma requests).flatMap Prod.snd).Perm
      ((slotRefs isNuma requests).map Prod.snd) := by
  rw [← map_snd_ungroup]
  exact (ungroup_groupBy (slotRefs isNuma requests)).map _

/-! ### A chunk lays its slots out back to back -/

variable {refs : List SlotRef} {chunkBytes : ℕ} {current : Option PrefetchChunk}
  {chunks : List PrefetchChunk}

def sizes (refs : List SlotRef) : List ℕ := refs.map SlotRef.size

@[simp] theorem sizes_append (refs refs' : List SlotRef) :
    sizes (refs ++ refs') = sizes refs ++ sizes refs' :=
  map_append

/-- Slots back to back from an offset on. -/
def place : ℕ → List SlotRef → List SlotPlacement
  | _, [] => []
  | off, ref :: refs =>
    { blockIdx := ref.blockIdx, slotIdx := ref.slotIdx, offset := off } ::
      place (off + ref.size) refs

theorem place_concat (off : ℕ) (refs : List SlotRef) (ref : SlotRef) :
    place off (refs ++ [ref]) = place off refs ++
      [{ blockIdx := ref.blockIdx, slotIdx := ref.slotIdx, offset := off + (sizes refs).sum }] := by
  induction refs generalizing off with
  | nil => rfl
  | cons ref' refs ih =>
    rw [cons_append, place, ih, place, add_assoc]
    rfl

/-- The chunk holds the slots `refs`. -/
structure Lays (chunk : PrefetchChunk) (refs : List SlotRef) : Prop where
  size_eq : chunk.size = (sizes refs).sum
  slots_eq : chunk.slots = place 0 refs

theorem lays_nil (capacity : ℕ) : Lays { capacity, size := 0, slots := [] } [] :=
  ⟨rfl, rfl⟩

theorem Lays.push {chunk : PrefetchChunk} (h : Lays chunk refs) (slot : SlotRef) :
    Lays (chunk.push slot) (refs ++ [slot]) where
  size_eq := by
    rw [sizes_append, sum_append, ← h.size_eq]
    rfl
  slots_eq := by
    rw [place_concat, ← h.slots_eq, ← h.size_eq, zero_add]
    rfl

/-- A slot that needs no new chunk goes into the current one. -/
theorem exists_current {size : ℕ} (h : needsNewChunk current size = false) :
    ∃ chunk, current = some chunk := by
  cases current with
  | none => cases h
  | some chunk => exact ⟨chunk, rfl⟩

/-- **The chunking loop.**  `parts` are the slots of the chunks that are closed, `rest` those of the
current one; no sum on the way overflows. -/
theorem chunkLoop_ok (chunkBytes : ℕ) {parts rest : List (List SlotRef)}
    (hchunks : Forall₂ Lays chunks parts) (hcurrent : Forall₂ Lays current.toList rest)
    (hsize : (sizes rest.flatten).sum + (sizes refs).sum < usizeLimit) :
    ∃ chunks' parts', chunkLoop chunkBytes refs (sizes refs).sum chunks current = .ok chunks' ∧
      Forall₂ Lays chunks' parts' ∧
      parts'.flatten = parts.flatten ++ rest.flatten ++ refs := by
  induction refs generalizing chunks current parts rest with
  | nil =>
    refine ⟨_, parts ++ rest, rfl, rel_append hchunks hcurrent, ?_⟩
    rw [flatten_append, append_nil]
  | cons slot refs ih =>
    have hsum : (sizes (slot :: refs)).sum = slot.size + (sizes refs).sum := rfl
    rw [hsum] at hsize ⊢
    rw [chunkLoop]
    -- whichever chunk the slot goes into, the loop continues with the slot in it
    have hpush : ∀ {chunk : PrefetchChunk}, chunk.size + slot.size < usizeLimit →
        pushSlot slot chunk (slot.size + (sizes refs).sum) =
          .ok (chunk.push slot, (sizes refs).sum) := by
      intro chunk hfits
      rw [pushSlot, if_neg (by omega), if_neg (by omega), Nat.add_sub_cancel_left]
    cases hnew : needsNewChunk current slot.size with
    | true =>
      rw [hpush (by show 0 + slot.size < usizeLimit; omega)]
      have hopen : Forall₂ Lays (some (PrefetchChunk.push
          { capacity := max (min (slot.size + (sizes refs).sum) chunkBytes) slot.size
            size := 0
            slots := [] } slot)).toList [[slot]] :=
        Forall₂.cons ((lays_nil _).push slot) .nil
      obtain ⟨chunks', parts', hloop, hlays, hflat⟩ := ih (rel_append hchunks hcurrent) hopen
        (by show slot.size + 0 + (sizes refs).sum < usizeLimit; omega)
      refine ⟨chunks', parts', hloop, hlays, ?_⟩
      rw [hflat]
      show (parts ++ rest).flatten ++ [slot] ++ refs = _
      rw [flatten_append, append_assoc, singleton_append]
    | false =>
      obtain ⟨chunk, rfl⟩ := exists_current hnew
      obtain ⟨part, rest', hlays, hnil, rfl⟩ := forall₂_cons_left_iff.mp hcurrent
      obtain rfl := forall₂_nil_left_iff.mp hnil
      have hone : ∀ part : List SlotRef, [part].flatten = part := append_nil
      rw [hone] at hsize ⊢
      have hfits : chunk.size + slot.size < usizeLimit := by rw [hlays.size_eq]; omega
      rw [if_neg Bool.false_ne_true, Option.getD_some, hpush hfits]
      have hopen : Forall₂ Lays (some (chunk.push slot)).toList [part ++ [slot]] :=
        Forall₂.cons (hlays.push slot) .nil
      obtain ⟨chunks', parts', hloop, hlays', hflat⟩ := ih hchunks hopen (by
        rw [hone, sizes_append, sum_append, show (sizes [slot]).sum = slot.size from rfl]
        omega)
      refine ⟨chunks', parts', hloop, hlays', ?_⟩
      rw [hflat, hone]
      simp only [append_assoc, singleton_append]

theorem totalSize_eq (refs : List SlotRef) :
    totalSize refs = if (sizes refs).sum < usizeLimit then some (sizes refs).sum else none := by
  have hfold : ∀ (refs : List SlotRef) (total : ℕ), total < usizeLimit →
      refs.foldlM (fun total slot => checkedAdd total slot.size) total =
        if total + (sizes refs).sum < usizeLimit then some (total + (sizes refs).sum)
        else none := by
    intro refs
    induction refs with
    | nil => intro total hlt; exact (if_pos hlt).symm
    | cons slot refs ih =>
      intro total _
      have hsum : (sizes (slot :: refs)).sum = slot.size + (sizes refs).sum := rfl
      rw [hsum, foldlM_cons, checkedAdd, ← add_assoc]
      by_cases hlt : total + slot.size < usizeLimit
      · rw [if_pos hlt]
        exact ih _ hlt
      · rw [if_neg hlt, if_neg (by omega)]
        rfl
  have htotal := hfold refs 0 (by decide)
  rwa [zero_add] at htotal

/-- **Chunks.**  The slots of a group are cut, in their order, into the slots of the chunks. -/
theorem chunkSlotRefs_ok (hchunk : 0 < chunkBytes) (h : (sizes refs).sum < usizeLimit) :
    ∃ chunks parts, chunkSlotRefs refs chunkBytes = .ok (.ok chunks) ∧
      Forall₂ Lays chunks parts ∧ parts.flatten = refs := by
  have hopen : Forall₂ Lays (none : Option PrefetchChunk).toList [] := .nil
  obtain ⟨chunks, parts, hloop, hlays, hflat⟩ := chunkLoop_ok chunkBytes .nil hopen
    (by show 0 + (sizes refs).sum < usizeLimit; omega)
  refine ⟨chunks, parts, ?_, hlays, hflat⟩
  rw [chunkSlotRefs, if_neg (by omega), totalSize_eq, if_pos h]
  show (chunkLoop chunkBytes refs (sizes refs).sum [] none >>= _) = _
  rw [show chunkLoop chunkBytes refs (sizes refs).sum [] none = .ok chunks from hloop]
  rfl

theorem chunkSlotRefs_overflow (hchunk : 0 < chunkBytes) (h : ¬ (sizes refs).sum < usizeLimit) :
    chunkSlotRefs refs chunkBytes = .ok (.error "SSD prefetch allocation size overflow") := by
  rw [chunkSlotRefs, if_neg (by omega), totalSize_eq, if_neg h]

/-! ### Every slot has its own place -/

/-- Block and slot index. -/
def SlotRef.pos (ref : SlotRef) : ℕ × ℕ := (ref.blockIdx, ref.slotIdx)

def SlotPlacement.pos (slot : SlotPlacement) : ℕ × ℕ := (slot.blockIdx, slot.slotIdx)

theorem map_pos_place (off : ℕ) (refs : List SlotRef) :
    (place off refs).map SlotPlacement.pos = refs.map SlotRef.pos := by
  induction refs generalizing off with
  | nil => rfl
  | cons ref refs ih =>
    rw [place, map_cons, ih]
    rfl

namespace Placing

/-- The allocation of a slot, once it is placed. -/
def allocOf (blockIdx slotIdx : ℕ) : SlotAlloc :=
  (p.slotAllocs blockIdx slotIdx).getD { allocation := 0, offset := 0 }

/-- The address of a slot, once it is placed. -/
def addrOf (ref : SlotRef) : ℕ :=
  (p.allocOf ref.blockIdx ref.slotIdx).allocation + (p.allocOf ref.blockIdx ref.slotIdx).offset

variable {p : Placing} {allocation : ℕ} {slots : List SlotPlacement}

/-- Give the slots of a chunk their places in an allocation. -/
def assignAll (p : Placing) (allocation : ℕ) (slots : List SlotPlacement) : Placing :=
  slots.foldl (assign · allocation) p

@[simp] theorem allocations_assignAll (slots : List SlotPlacement) :
    (p.assignAll allocation slots).allocations = p.allocations := by
  induction slots generalizing p with
  | nil => rfl
  | cons slot slots ih => exact ih

theorem assignAll_of_notMem {i j : ℕ} (h : (i, j) ∉ slots.map SlotPlacement.pos) :
    (p.assignAll allocation slots).slotAllocs i j = p.slotAllocs i j := by
  induction slots generalizing p with
  | nil => rfl
  | cons slot slots ih =>
    rw [map_cons, mem_cons, not_or] at h
    refine (ih h.2).trans (if_neg ?_)
    rintro ⟨rfl, rfl⟩
    exact h.1 rfl

theorem assignAll_of_mem (hnodup : (slots.map SlotPlacement.pos).Nodup) {slot : SlotPlacement}
    (hslot : slot ∈ slots) :
    (p.assignAll allocation slots).slotAllocs slot.blockIdx slot.slotIdx =
      some { allocation, offset := slot.offset } := by
  induction slots generalizing p with
  | nil => cases hslot
  | cons first slots ih =>
    rw [map_cons, nodup_cons] at hnodup
    rcases mem_cons.mp hslot with rfl | hslot
    · exact (assignAll_of_notMem hnodup.1).trans (if_pos ⟨rfl, rfl⟩)
    · exact ih hnodup.2 hslot

/-- The addresses of slots that were placed back to back. -/
theorem map_addrOf_eq {off : ℕ}
    (h : ∀ slot ∈ place off refs, p.slotAllocs slot.blockIdx slot.slotIdx =
      some { allocation, offset := slot.offset }) :
    refs.map (fun ref => (p.addrOf ref, ref.size)) = cuts (allocation + off) (sizes refs) := by
  induction refs generalizing off with
  | nil => rfl
  | cons ref refs ih =>
    have hfirst := h _ mem_cons_self
    have haddr : p.addrOf ref = allocation + off := by
      unfold addrOf allocOf
      rw [hfirst]
      rfl
    rw [map_cons, ih fun slot hslot => h slot (mem_cons_of_mem _ hslot), haddr,
      ← add_assoc]
    rfl

end Placing

/-- The slots `refs` have been placed: inside an allocation each, and apart from each other if the
allocations are. -/
structure Placed (p : Placing) (refs : List SlotRef) : Prop where
  isSome : ∀ ref ∈ refs, (p.slotAllocs ref.blockIdx ref.slotIdx).isSome
  inside : ∀ ref ∈ refs, ∃ a ∈ p.allocations,
    a.1 ≤ p.addrOf ref ∧ p.addrOf ref + ref.size ≤ a.1 + a.2
  apart : (p.allocations.Pairwise fun a b => RangesApart a.1 a.2 b.1 b.2) →
    refs.Pairwise fun ref ref' => RangesApart (p.addrOf ref) ref.size (p.addrOf ref') ref'.size

theorem placed_empty : Placed .empty [] where
  isSome _ h := absurd h not_mem_nil
  inside _ h := absurd h not_mem_nil
  apart _ := .nil

/-- One more chunk, in an allocation of its own. -/
theorem Placed.chunk {p : Placing} {part : List SlotRef} (h : Placed p refs)
    (hnodup : ((refs ++ part).map SlotRef.pos).Nodup) {chunk : PrefetchChunk}
    (hlays : Lays chunk part) (allocation : ℕ) :
    Placed (Placing.assignAll
      { p with allocations := p.allocations ++ [(allocation, chunk.size)] } allocation chunk.slots)
      (refs ++ part) := by
  rw [map_append, nodup_append] at hnodup
  obtain ⟨-, hpart, hdisjoint⟩ := hnodup
  rw [hlays.slots_eq, hlays.size_eq]
  generalize hq : Placing.assignAll _ allocation (place 0 part) = q
  have hallocations : q.allocations = p.allocations ++ [(allocation, (sizes part).sum)] := by
    rw [← hq, Placing.allocations_assignAll]
  have hold : ∀ ref ∈ refs, q.slotAllocs ref.blockIdx ref.slotIdx =
      p.slotAllocs ref.blockIdx ref.slotIdx := by
    intro ref href
    rw [← hq]
    refine Placing.assignAll_of_notMem ?_
    rw [map_pos_place]
    exact fun hmem => hdisjoint _ (mem_map_of_mem href) _ hmem rfl
  have hnew : ∀ slot ∈ place 0 part, q.slotAllocs slot.blockIdx slot.slotIdx =
      some { allocation, offset := slot.offset } := by
    intro slot hslot
    rw [← hq]
    exact Placing.assignAll_of_mem (by rwa [map_pos_place]) hslot
  have haddr : part.map (fun ref => (q.addrOf ref, ref.size)) = cuts allocation (sizes part) :=
    Placing.map_addrOf_eq hnew
  have hcut : ∀ ref ∈ part, allocation ≤ q.addrOf ref ∧
      q.addrOf ref + ref.size ≤ allocation + (sizes part).sum := by
    intro ref href
    refine cuts_inside (c := (q.addrOf ref, ref.size)) ?_
    rw [← haddr]
    exact mem_map_of_mem href
  have haddrOld : ∀ ref ∈ refs, q.addrOf ref = p.addrOf ref := by
    intro ref href
    unfold Placing.addrOf Placing.allocOf
    rw [hold ref href]
  refine ⟨?_, ?_, ?_⟩
  · intro ref href
    rcases mem_append.mp href with href | href
    · rw [hold ref href]
      exact h.isSome ref href
    · have hpos : ref.pos ∈ (place 0 part).map SlotPlacement.pos := by
        rw [map_pos_place]
        exact mem_map_of_mem href
      obtain ⟨slot, hslot, heq⟩ := mem_map.mp hpos
      obtain ⟨hblock, hslotIdx⟩ := Prod.mk.inj heq
      rw [← hblock, ← hslotIdx, hnew slot hslot]
      rfl
  · intro ref href
    rw [hallocations]
    rcases mem_append.mp href with href | href
    · obtain ⟨a, ha, hin⟩ := h.inside ref href
      rw [haddrOld ref href]
      exact ⟨a, mem_append_left _ ha, hin⟩
    · exact ⟨_, mem_append_right _ (mem_singleton.mpr rfl), hcut ref href⟩
  · intro hapart
    rw [hallocations, pairwise_append] at hapart
    obtain ⟨hapart, -, hcross⟩ := hapart
    refine pairwise_append.mpr ⟨?_, ?_, ?_⟩
    · refine (h.apart hapart).imp_of_mem fun href href' hapart => ?_
      rwa [haddrOld _ href, haddrOld _ href']
    · have hpairwise := cuts_pairwise allocation (sizes part)
      rw [← haddr, pairwise_map] at hpairwise
      exact hpairwise
    · intro ref href ref' href'
      obtain ⟨a, ha, hin⟩ := h.inside ref href
      rw [haddrOld ref href]
      exact (hcross a ha _ (mem_singleton.mpr rfl)).mono hin (hcut ref' href')

variable {allocate : ℕ → Option ℕ} {groups : List (Option NumaNode × List SlotRef)}

/-- The number of chunks of a group. -/
def chunkCount (chunkBytes : ℕ) (group : Option NumaNode × List SlotRef) : ℕ :=
  match chunkSlotRefs group.2 chunkBytes with
  | .ok (.ok chunks) => chunks.length
  | _ => 0

/-- **The memory of the groups is allocated**: the sizes of each group add up, and the allocator
answers the calls for their chunks, of which `done` were made before. -/
structure Allocates (chunkBytes : ℕ) (allocate : ℕ → Option ℕ) (done : ℕ)
    (groups : List (Option NumaNode × List SlotRef)) : Prop where
  sizes_lt : ∀ group ∈ groups, (sizes group.2).sum < usizeLimit
  answers : ∀ k < (groups.map (chunkCount chunkBytes)).sum, (allocate (done + k)).isSome

theorem allocates_cons_iff {group : Option NumaNode × List SlotRef} {done : ℕ} :
    Allocates chunkBytes allocate done (group :: groups) ↔
      (sizes group.2).sum < usizeLimit ∧
      (∀ k < chunkCount chunkBytes group, (allocate (done + k)).isSome) ∧
      Allocates chunkBytes allocate (done + chunkCount chunkBytes group) groups := by
  constructor
  · rintro ⟨hsizes, hanswers⟩
    rw [map_cons, sum_cons] at hanswers
    refine ⟨hsizes _ mem_cons_self, fun k hk => hanswers k (by omega),
      fun g hg => hsizes g (mem_cons_of_mem _ hg), fun k hk => ?_⟩
    rw [add_assoc]
    exact hanswers _ (by omega)
  · rintro ⟨hsize, hfirst, hsizes, hanswers⟩
    refine ⟨forall_mem_cons.mpr ⟨hsize, hsizes⟩, fun k hk => ?_⟩
    rw [map_cons, sum_cons] at hk
    by_cases hlt : k < chunkCount chunkBytes group
    · exact hfirst k hlt
    · have := hanswers (k - chunkCount chunkBytes group) (by omega)
      rwa [add_assoc, Nat.add_sub_of_le (by omega)] at this

theorem allocateChunks_ok {parts : List (List SlotRef)} {p : Placing}
    (hallocate : ∀ k < chunks.length, (allocate (p.allocations.length + k)).isSome)
    (hlays : Forall₂ Lays chunks parts) (hp : Placed p refs)
    (hnodup : ((refs ++ parts.flatten).map SlotRef.pos).Nodup) :
    ∃ p', allocateChunks allocate chunks p = some p' ∧ Placed p' (refs ++ parts.flatten) := by
  induction hlays generalizing p refs with
  | nil => exact ⟨p, rfl, by rwa [flatten_nil, append_nil]⟩
  | cons hchunk _ ih =>
    rw [flatten_cons, ← append_assoc] at hnodup ⊢
    obtain ⟨allocation, hallocation⟩ :=
      Option.isSome_iff_exists.mp (hallocate 0 (Nat.zero_lt_succ _))
    have hplaced := hp.chunk (hnodup.sublist ((sublist_append_left _ _).map _)) hchunk
      allocation
    obtain ⟨p', hp', hplaced'⟩ := ih (by
      intro k hk
      rw [Placing.allocations_assignAll, length_append, length_singleton, add_assoc, add_comm 1]
      exact hallocate (k + 1) (by rw [length_cons]; omega)) hplaced hnodup
    refine ⟨p', ?_, hplaced'⟩
    rw [allocateChunks, show allocate p.allocations.length = some allocation from hallocation]
    exact hp'

/-- Chunks that are allocated were answered, one call each. -/
theorem answers_of_allocateChunks {p p' : Placing}
    (h : allocateChunks allocate chunks p = some p') :
    p'.allocations.length = p.allocations.length + chunks.length ∧
      ∀ k < chunks.length, (allocate (p.allocations.length + k)).isSome := by
  induction chunks generalizing p with
  | nil =>
    cases h
    exact ⟨rfl, fun k hk => absurd hk (Nat.not_lt_zero k)⟩
  | cons chunk chunks ih =>
    rw [allocateChunks] at h
    split at h
    · cases h
    · next allocation hallocation =>
      obtain ⟨hlength, hanswers⟩ := ih h
      have hone : (Placing.assignAll { p with
          allocations := p.allocations ++ [(allocation, chunk.size)] } allocation
          chunk.slots).allocations.length = p.allocations.length + 1 := by
        rw [Placing.allocations_assignAll, length_append, length_singleton]
      rw [Placing.assignAll] at hone
      rw [hone] at hlength hanswers
      refine ⟨by rw [hlength, length_cons]; omega, fun k hk => ?_⟩
      cases k with
      | zero => exact Option.isSome_of_eq_some hallocation
      | succ k =>
        rw [length_cons] at hk
        rw [← add_assoc, add_right_comm]
        exact hanswers k (by omega)

theorem allocateGroups_ok (hchunk : 0 < chunkBytes) {p : Placing}
    (h : Allocates chunkBytes allocate p.allocations.length groups) (hp : Placed p refs)
    (hnodup : ((refs ++ groups.flatMap Prod.snd).map SlotRef.pos).Nodup) :
    ∃ p', allocateGroups chunkBytes allocate groups p = .ok (some p') ∧
      Placed p' (refs ++ groups.flatMap Prod.snd) := by
  induction groups generalizing p refs with
  | nil => exact ⟨p, rfl, by rwa [flatMap_nil, append_nil]⟩
  | cons group groups ih =>
    obtain ⟨key, part⟩ := group
    obtain ⟨hpart, hfirst, hrest⟩ := allocates_cons_iff.mp h
    simp only [flatMap_cons, ← append_assoc] at hnodup ⊢
    obtain ⟨chunks, parts, hchunks, hlays, rfl⟩ := chunkSlotRefs_ok hchunk hpart
    simp only [chunkCount, hchunks] at hfirst hrest
    obtain ⟨p₁, hp₁, hplaced₁⟩ := allocateChunks_ok hfirst hlays hp
      (hnodup.sublist ((sublist_append_left _ _).map _))
    rw [← (answers_of_allocateChunks hp₁).1] at hrest
    obtain ⟨p₂, hp₂, hplaced₂⟩ := ih hrest hplaced₁ hnodup
    refine ⟨p₂, ?_, hplaced₂⟩
    rw [allocateGroups, hchunks]
    show (match allocateChunks allocate chunks p with
      | none => _
      | some p => allocateGroups chunkBytes allocate groups p) = _
    rw [hp₁]
    exact hp₂

theorem allocates_of_allocateGroups (hchunk : 0 < chunkBytes) {p p' : Placing}
    (h : allocateGroups chunkBytes allocate groups p = .ok (some p')) :
    Allocates chunkBytes allocate p.allocations.length groups := by
  induction groups generalizing p with
  | nil => exact ⟨fun _ hg => absurd hg not_mem_nil, fun k hk => absurd hk (Nat.not_lt_zero k)⟩
  | cons group groups ih =>
    obtain ⟨key, part⟩ := group
    rw [allocateGroups] at h
    by_cases hpart : (sizes part).sum < usizeLimit
    · obtain ⟨chunks, -, hchunks, -, -⟩ := chunkSlotRefs_ok hchunk hpart
      have hcount : chunkCount chunkBytes (key, part) = chunks.length := by
        simp only [chunkCount, hchunks]
      rw [hchunks] at h
      change (match allocateChunks allocate chunks p with
        | none => _
        | some p => allocateGroups chunkBytes allocate groups p) = _ at h
      split at h
      · cases h
      · next p₁ hp₁ =>
        obtain ⟨hlength, hanswers⟩ := answers_of_allocateChunks hp₁
        rw [allocates_cons_iff, hcount, ← hlength]
        exact ⟨hpart, hanswers, ih h⟩
    · rw [chunkSlotRefs_overflow hchunk hpart] at h
      cases h

/-- The slots of a batch, block by block. -/
def batchSlots : List SlotRef :=
  requests.zipIdx.flatMap fun req =>
    req.1.entry.slots.zipIdx.map fun slot =>
      { blockIdx := req.2, slotIdx := slot.2, size := slot.1.totalSize }

theorem map_snd_slotRefs : (slotRefs isNuma requests).map Prod.snd = batchSlots requests := by
  unfold slotRefs batchSlots
  rw [map_flatMap]
  simp only [map_map]
  rfl

theorem mem_batchSlots {requests : List (PrefetchRequest n)} {req : PrefetchRequest n × ℕ}
    (hreq : req ∈ requests.zipIdx) {slot : SlotMeta × ℕ} (hslot : slot ∈ req.1.entry.slots.zipIdx) :
    { blockIdx := req.2, slotIdx := slot.2, size := slot.1.totalSize } ∈ batchSlots requests :=
  mem_flatMap.mpr ⟨req, hreq, mem_map_of_mem hslot⟩

theorem nodup_pos_batchSlots : ((batchSlots requests).map SlotRef.pos).Nodup := by
  have hindices : ∀ {α : Type} (xs : List α), (xs.zipIdx.map Prod.snd).Nodup := by
    intro α xs
    rw [zipIdx_map_snd]
    exact nodup_range'
  unfold batchSlots
  rw [map_flatMap]
  refine pairwise_flatMap.mpr ⟨?_, ?_⟩
  · intro req _
    rw [map_map]
    refine pairwise_map.mpr ((pairwise_map.mp (hindices _)).imp ?_)
    intro slot slot' hne heq
    exact hne (Prod.mk.inj heq).2
  · refine (pairwise_map.mp (hindices requests)).imp ?_
    intro req req' hne pos hpos pos' hpos' heq
    obtain ⟨ref, href, rfl⟩ := mem_map.mp hpos
    obtain ⟨ref', href', rfl⟩ := mem_map.mp hpos'
    obtain ⟨slot, -, rfl⟩ := mem_map.mp href
    obtain ⟨slot', -, rfl⟩ := mem_map.mp href'
    exact hne (Prod.mk.inj heq).1

theorem Placed.perm {p : Placing} {refs' : List SlotRef} (h : Placed p refs)
    (hperm : refs.Perm refs') : Placed p refs' where
  isSome := fun ref href => h.isSome ref (hperm.mem_iff.mpr href)
  inside := fun ref href => h.inside ref (hperm.mem_iff.mpr href)
  apart := fun hapart => (hperm.pairwise_iff RangesApart.symm).mp (h.apart hapart)

/-- The allocations of every block, read off the placement. -/
def Placing.allocs (requests : List (PrefetchRequest n)) : List (List SlotAlloc) :=
  requests.zipIdx.map fun req => req.1.entry.slots.zipIdx.map fun slot => p.allocOf req.2 slot.2

theorem blockAllocs_ok {p : Placing} {blockIdx : ℕ} {slots : List SlotMeta}
    (h : ∀ slot ∈ slots.zipIdx, (p.slotAllocs blockIdx slot.2).isSome) :
    blockAllocs p blockIdx slots.length =
      .ok (slots.zipIdx.map fun slot => p.allocOf blockIdx slot.2) := by
  have hrange : range slots.length = slots.zipIdx.map Prod.snd := by
    rw [zipIdx_map_snd, range_eq_range']
  have hallocs : (slots.zipIdx.map fun slot => p.allocOf blockIdx slot.2) =
      (range slots.length).map (p.allocOf blockIdx) := by
    rw [hrange, map_map]
    rfl
  rw [hallocs]
  refine mapM_eq_ok fun slotIdx hslotIdx => ?_
  rw [hrange] at hslotIdx
  obtain ⟨slot, hslot, rfl⟩ := mem_map.mp hslotIdx
  obtain ⟨alloc, halloc⟩ := Option.isSome_iff_exists.mp (h slot hslot)
  unfold Placing.allocOf
  rw [halloc]
  rfl

theorem flatMap_groups_perm {isNuma : Bool} {requests : List (PrefetchRequest n)}
    (hgroups : groups.Perm (groupSlotsByNuma isNuma requests)) :
    (groups.flatMap Prod.snd).Perm (batchSlots requests) := by
  rw [← map_snd_slotRefs isNuma]
  exact (hgroups.flatMap_right Prod.snd).trans (groupSlotsByNuma_perm isNuma requests)

/-- An allocator that answers every call allocates a batch whose sizes add up. -/
theorem allocates_of_sum_lt {isNuma : Bool} (hallocate : ∀ k, (allocate k).isSome)
    {requests : List (PrefetchRequest n)} (hgroups : groups.Perm (groupSlotsByNuma isNuma requests))
    (hsize : (sizes (batchSlots requests)).sum < usizeLimit) :
    Allocates chunkBytes allocate 0 groups where
  sizes_lt group hgroup := by
    have hsub : group.2 <+ groups.flatMap Prod.snd := by
      simpa using (singleton_sublist.mpr hgroup).flatMap Prod.snd
    calc (sizes group.2).sum ≤ (sizes (groups.flatMap Prod.snd)).sum :=
          (hsub.map _).sum_le_sum fun _ _ => Nat.zero_le _
      _ = (sizes (batchSlots requests)).sum :=
          ((flatMap_groups_perm hgroups).map SlotRef.size).sum_eq
      _ < usizeLimit := hsize
  answers k _ := hallocate _

/-- **The dispatch of a batch**: if its memory is allocated, every slot gets a place of its own,
whatever the order of the groups. -/
theorem dispatchPrefetchBatch_ok (isNuma : Bool) (hchunk : 0 < chunkBytes)
    {requests : List (PrefetchRequest n)} (hgroups : groups.Perm (groupSlotsByNuma isNuma requests))
    (hallocates : Allocates chunkBytes allocate 0 groups) :
    ∃ p, dispatchPrefetchBatch chunkBytes allocate groups requests =
        .ok (some (p.allocs requests, p.allocations)) ∧ Placed p (batchSlots requests) := by
  have hperm : (groups.flatMap Prod.snd).Perm (batchSlots requests) := flatMap_groups_perm hgroups
  obtain ⟨p, hp, hplaced⟩ := allocateGroups_ok hchunk hallocates placed_empty
    ((hperm.map SlotRef.pos).nodup_iff.mpr (nodup_pos_batchSlots requests))
  have hplaced : Placed p (batchSlots requests) := hplaced.perm hperm
  refine ⟨p, ?_, hplaced⟩
  have hallocs : (requests.zipIdx.mapM fun req =>
      blockAllocs p req.2 req.1.entry.slots.length) = .ok (p.allocs requests) :=
    mapM_eq_ok fun req hreq => blockAllocs_ok fun slot hslot =>
      hplaced.isSome _ (mem_batchSlots hreq hslot)
  rw [dispatchPrefetchBatch, hp]
  show ((requests.zipIdx.mapM fun req =>
    blockAllocs p req.2 req.1.entry.slots.length) >>= _) = _
  rw [hallocs]
  rfl

theorem allocates_of_dispatch (hchunk : 0 < chunkBytes) {requests : List (PrefetchRequest n)}
    {dispatched : List (List SlotAlloc) × List (ℕ × ℕ)}
    (h : dispatchPrefetchBatch chunkBytes allocate groups requests = .ok (some dispatched)) :
    Allocates chunkBytes allocate 0 groups := by
  rw [dispatchPrefetchBatch] at h
  cases hgroups : allocateGroups chunkBytes allocate groups .empty with
  | error message =>
    rw [hgroups] at h
    cases h
  | ok placing =>
    cases placing with
    | none =>
      rw [hgroups] at h
      cases h
    | some p => exact allocates_of_allocateGroups hchunk hgroups

end SsdPrefetch

end PegaFlow
