/-
PegaFlow/SsdReadback.lean

What comes back from the SSD is what was written.
-/
import PegaFlow.SsdPrefetch

namespace PegaFlow

open List Function WriteTask SealedBlock SlotMeta

variable {n : ℕ}

/-! ### Writing a batch -/

variable {files : Fin n → ℕ → UInt8} {t : WriteTask n} {batch : List (WriteTask n)}

/-- The entry describes the block, as `prepare_batch` has it. -/
structure WriteTask.Recorded (t : WriteTask n) : Prop where
  len_eq : t.entry.len = t.block.memoryFootprint
  slots_eq : t.entry.slots = t.block.slotMetas

/-- The request that reads a block back. -/
def WriteTask.request (t : WriteTask n) : SsdPrefetch.PrefetchRequest n :=
  { key := t.key, entry := t.entry }

/-- Write the iovecs of a block, back to back, to its range. -/
def writeBlock (files : Fin n → ℕ → UInt8) (t : WriteTask n) : Fin n → ℕ → UInt8 :=
  update files t.entry.shardId
    (writeAt (files t.entry.shardId) t.entry.fileOffset t.block.bytes)

def writeBlocks (files : Fin n → ℕ → UInt8) (batch : List (WriteTask n)) : Fin n → ℕ → UInt8 :=
  batch.foldl writeBlock files

/-- The file holds the block. -/
def WriteTask.OnFile (t : WriteTask n) (files : Fin n → ℕ → UInt8) : Prop :=
  readAt (files t.entry.shardId) t.entry.fileOffset t.block.bytes.length = t.block.bytes

theorem onFile_writeBlock (files : Fin n → ℕ → UInt8) (t : WriteTask n) :
    t.OnFile (writeBlock files t) := by
  refine readAt_eq fun i hi => ?_
  rw [writeBlock, update_self, writeAt_inside _ _ hi]

theorem WriteTask.OnFile.writeBlock {u : WriteTask n} (h : t.OnFile files) (ht : t.Recorded)
    (hu : u.Recorded) (hapart : ¬t.entry.Overlaps u.entry) : t.OnFile (writeBlock files u) := by
  refine Eq.trans (readAt_congr fun i hi => ?_) h
  unfold PegaFlow.writeBlock
  by_cases hshard : t.entry.shardId = u.entry.shardId
  · rw [hshard, update_self]
    apply writeAt_outside
    intro j hj heq
    rw [length_bytes, ← ht.len_eq] at hi
    rw [length_bytes, ← hu.len_eq] at hj
    exact hapart ⟨hshard, by omega, by omega⟩
  · rw [update_of_ne hshard]

theorem WriteTask.OnFile.writeBlocks (h : t.OnFile files) (ht : t.Recorded)
    (hbatch : ∀ u ∈ batch, u.Recorded) (hapart : ∀ u ∈ batch, ¬t.entry.Overlaps u.entry) :
    t.OnFile (writeBlocks files batch) := by
  induction batch generalizing files with
  | nil => exact h
  | cons u batch ih =>
    exact ih (h.writeBlock ht (hbatch u mem_cons_self) (hapart u mem_cons_self))
      (fun v hv => hbatch v (mem_cons_of_mem u hv))
      fun v hv => hapart v (mem_cons_of_mem u hv)

/-- Blocks written to ranges that keep clear of each other are all on their files. -/
theorem onFile_writeBlocks (hbatch : ∀ t ∈ batch, t.Recorded)
    (hapart : batch.Pairwise fun t u => ¬t.entry.Overlaps u.entry) (files : Fin n → ℕ → UInt8)
    (ht : t ∈ batch) : t.OnFile (writeBlocks files batch) := by
  induction batch generalizing files with
  | nil => cases ht
  | cons u batch ih =>
    obtain ⟨hfirst, hrest⟩ := pairwise_cons.mp hapart
    have hbatch' : ∀ v ∈ batch, v.Recorded := fun v hv => hbatch v (mem_cons_of_mem u hv)
    rcases mem_cons.mp ht with rfl | ht
    · exact (onFile_writeBlock files t).writeBlocks (hbatch t mem_cons_self) hbatch' hfirst
    · exact ih hbatch' hrest (writeBlock files u) ht

/-! ### The image of a block -/

namespace SealedBlock

variable (b : SealedBlock)

/-- All segments of a block in the order of the file. -/
def segments : List (List UInt8) := b.slots.flatMap RawBlock.segments

theorem flatten_segments : b.segments.flatten = b.bytes := by
  unfold segments bytes
  induction b.slots with
  | nil => rfl
  | cons s slots ih => rw [flatMap_cons, flatten_append, ih]; rfl

theorem slotMetas_eq :
    b.slotMetas = (b.slots.zip b.slotNumas).map fun e =>
      new (e.1.segments.map length) e.2 := by
  rw [map_zip_eq_zipWith]
  rfl

@[simp] theorem map_segmentSizes_slotMetas :
    b.slotMetas.map segmentSizes = b.slots.map fun s => s.segments.map length := by
  have hslots : (b.slots.zip b.slotNumas).map Prod.fst = b.slots :=
    map_fst_zip (le_of_eq b.numas_length.symm)
  conv_rhs => rw [← hslots]
  rw [slotMetas_eq, map_map, map_map]
  rfl

@[simp] theorem map_numaNode_slotMetas : b.slotMetas.map numaNode = b.slotNumas := by
  have hnumas : (b.slots.zip b.slotNumas).map Prod.snd = b.slotNumas :=
    map_snd_zip (le_of_eq b.numas_length)
  conv_rhs => rw [← hnumas]
  rw [slotMetas_eq, map_map]
  rfl

theorem totalSize_of_mem_slotMetas {slot : SlotMeta} (h : slot ∈ b.slotMetas) :
    slot.totalSize = slot.segmentSizes.sum := by
  rw [slotMetas_eq] at h
  obtain ⟨e, -, rfl⟩ := mem_map.mp h
  rfl

theorem sum_totalSize_slotMetas : (b.slotMetas.map totalSize).sum = b.memoryFootprint := by
  have hsizes : b.slotMetas.map totalSize =
      (b.slotMetas.map segmentSizes).map sum := by
    rw [map_map]
    exact map_congr_left fun slot hslot => b.totalSize_of_mem_slotMetas hslot
  rw [hsizes, map_segmentSizes_slotMetas, map_map, memoryFootprint, b.footprint_eq]
  rfl

/-- Slots and nodes determine a block. -/
theorem eq_of_slots_of_slotNumas {b b' : SealedBlock} (hslots : b.slots = b'.slots)
    (hnumas : b.slotNumas = b'.slotNumas) : b = b' := by
  obtain ⟨slots, footprint, slotNumas, hfootprint, hlength⟩ := b
  obtain ⟨slots', footprint', slotNumas', hfootprint', hlength'⟩ := b'
  cases hslots
  cases hnumas
  cases hfootprint
  cases hfootprint'
  rfl

end SealedBlock

namespace SsdPrefetch

open Gpu (usizeLimit)

/-! ### The reads of a batch keep clear of each other -/

variable {p : Placing}

theorem zip_map_zipIdx {α β : Type*} (xs : List α) (f : α × ℕ → β) :
    xs.zip (xs.zipIdx.map f) = xs.zipIdx.map fun e => (e.1, f e) := by
  have hxs : xs.zipIdx.map Prod.fst = xs := zipIdx_map_fst 0 xs
  nth_rewrite 1 [← hxs]
  exact zip_map'

variable (requests : List (PrefetchRequest n))

/-- The slots of a batch with their allocations. -/
def slotPlaces (allocs : List (List SlotAlloc)) : List (SlotMeta × SlotAlloc) :=
  (requests.zip allocs).flatMap fun e => e.1.entry.slots.zip e.2

theorem slotPlaces_eq (p : Placing) (requests : List (PrefetchRequest n)) :
    (slotPlaces requests (p.allocs requests)).map
        (fun e => (e.2.allocation + e.2.offset, e.1.totalSize)) =
      (batchSlots requests).map fun ref => (p.addrOf ref, ref.size) := by
  unfold slotPlaces Placing.allocs batchSlots
  rw [zip_map_zipIdx, flatMap_map, map_flatMap, map_flatMap]
  refine flatMap_congr fun req _ => ?_
  rw [zip_map_zipIdx, map_map, map_map]
  rfl

theorem map_dst_readvAt (fileOffset : ℕ) (iovecs : List (ℕ × ℕ)) :
    (readvAt fileOffset iovecs).map (fun c => (c.dst, c.len)) = iovecs := by
  induction iovecs generalizing fileOffset with
  | nil => rfl
  | cons v iovecs ih => exact congrArg (v :: ·) (ih (fileOffset + v.2))

theorem map_src_readvAt (fileOffset : ℕ) (iovecs : List (ℕ × ℕ)) :
    (readvAt fileOffset iovecs).map (fun c => (c.src, c.len)) =
      cuts fileOffset (iovecs.map Prod.snd) := by
  induction iovecs generalizing fileOffset with
  | nil => rfl
  | cons v iovecs ih => exact congrArg ((fileOffset, v.2) :: ·) (ih (fileOffset + v.2))

theorem map_dst_batchReads (allocs : List (List SlotAlloc)) :
    (batchReads requests allocs).map (fun c => (c.2.dst, c.2.len)) =
      (slotPlaces requests allocs).flatMap fun e => readIovecs e.1 e.2.allocation e.2.offset := by
  unfold batchReads slotPlaces
  rw [map_flatMap, flatMap_assoc]
  refine flatMap_congr fun e _ => ?_
  unfold blockReads
  rw [map_map]
  exact map_dst_readvAt _ _

/-- Every segment has its own destination. -/
theorem batchReads_pairwise {requests : List (PrefetchRequest n)}
    (hp : Placed p (batchSlots requests))
    (hapart : p.allocations.Pairwise fun a a' => RangesApart a.1 a.2 a'.1 a'.2)
    (hmetas : ∀ req ∈ requests, ∀ slot ∈ req.entry.slots, slot.totalSize = slot.segmentSizes.sum) :
    (batchReads requests (p.allocs requests)).Pairwise DstApart := by
  have hslots : (slotPlaces requests (p.allocs requests)).Pairwise fun e e' =>
      RangesApart (e.2.allocation + e.2.offset) e.1.totalSize
        (e'.2.allocation + e'.2.offset) e'.1.totalSize := by
    have hrefs := hp.apart hapart
    rw [← pairwise_map (f := fun ref => (p.addrOf ref, ref.size))
      (R := fun c c' => RangesApart c.1 c.2 c'.1 c'.2), ← slotPlaces_eq, pairwise_map] at hrefs
    exact hrefs
  have hsum : ∀ e ∈ slotPlaces requests (p.allocs requests),
      e.1.totalSize = e.1.segmentSizes.sum := by
    intro e he
    obtain ⟨pair, hpair, he⟩ := mem_flatMap.mp he
    exact hmetas _ (of_mem_zip hpair).1 _ (of_mem_zip he).1
  have hranges : ((batchReads requests (p.allocs requests)).map
      (fun c => (c.2.dst, c.2.len))).Pairwise fun c c' => RangesApart c.1 c.2 c'.1 c'.2 := by
    rw [map_dst_batchReads]
    refine pairwise_flatMap.mpr ⟨fun e _ => cuts_pairwise _ _, ?_⟩
    refine hslots.imp_of_mem fun he he' hapart c hc c' hc' => ?_
    rw [hsum _ he, hsum _ he'] at hapart
    exact hapart.mono (cuts_inside hc) (cuts_inside hc')
  rw [pairwise_map] at hranges
  exact hranges

/-! ### Rebuilding a block -/

variable {allocs : List SlotAlloc} {entry : SsdIndexEntry n} {b : SealedBlock}

/-- **A vectored read cuts the image of a block into its pieces.** -/
theorem pieces_of_reads {file memory : ℕ → UInt8} {fileOffset : ℕ} {iovecs : List (ℕ × ℕ)}
    {pieces : List (List UInt8)} (hsizes : iovecs.map Prod.snd = pieces.map length)
    (hfile : readAt file fileOffset pieces.flatten.length = pieces.flatten)
    (hread : ∀ c ∈ readvAt fileOffset iovecs, readAt memory c.dst c.len = readAt file c.src c.len) :
    iovecs.map (fun v => readAt memory v.1 v.2) = pieces := by
  calc iovecs.map (fun v => readAt memory v.1 v.2)
      = (readvAt fileOffset iovecs).map (fun c => readAt memory c.dst c.len) := by
        nth_rewrite 1 [← map_dst_readvAt fileOffset iovecs]
        rw [map_map]
        rfl
    _ = (readvAt fileOffset iovecs).map (fun c => readAt file c.src c.len) :=
        map_congr_left hread
    _ = (cuts fileOffset (iovecs.map Prod.snd)).map (fun c => readAt file c.1 c.2) := by
        rw [← map_src_readvAt, map_map]
        rfl
    _ = pieces := by
        rw [hsizes]
        exact readAt_cuts hfile

theorem map_snd_blockIovecs (hentry : entry.slots = b.slotMetas)
    (hlength : allocs.length = entry.slots.length) :
    (blockIovecs entry allocs).map Prod.snd = b.segments.map length := by
  have hslots : (entry.slots.zip allocs).map Prod.fst = entry.slots :=
    map_fst_zip (le_of_eq hlength.symm)
  calc (blockIovecs entry allocs).map Prod.snd
      = (entry.slots.zip allocs).flatMap (fun e => e.1.segmentSizes) := by
        unfold blockIovecs readIovecs
        rw [map_flatMap]
        simp only [map_snd_cuts]
    _ = (((entry.slots.zip allocs).map Prod.fst).map segmentSizes).flatten := by
        rw [map_map]
        rfl
    _ = b.segments.map length := by
        rw [hslots, hentry, map_segmentSizes_slotMetas, segments,
          map_flatMap, flatMap_def]

/-- **The block is rebuilt slot by slot**, if the iovecs of its read hold its segments. -/
theorem rebuild_eq {memory : ℕ → UInt8} (hentry : entry.slots = b.slotMetas)
    (hlength : allocs.length = entry.slots.length)
    (hmemory : (blockIovecs entry allocs).map (fun v => readAt memory v.1 v.2) = b.segments) :
    rebuildSealedBlockPerSlot memory allocs entry.slots = b := by
  have hslots : (entry.slots.zip allocs).map Prod.fst = entry.slots :=
    map_fst_zip (le_of_eq hlength.symm)
  -- the segments per slot agree: they do in a row, and their numbers agree slot by slot
  have hsegments : (entry.slots.zip allocs).map
      (fun e => (reconstructRawBlock memory e.1 e.2).segments) = b.slots.map RawBlock.segments := by
    refine eq_iff_flatten_eq.mpr ⟨?_, ?_⟩
    · refine Eq.trans ?_ hmemory
      rw [blockIovecs, map_flatMap]
      rfl
    · have hlengths : ((entry.slots.zip allocs).map Prod.fst).map
          (fun slot => slot.segmentSizes.length) =
          (b.slots.map RawBlock.segments).map length := by
        rw [hslots, hentry, ← comp_def length segmentSizes,
          ← map_map, map_segmentSizes_slotMetas, map_map, map_map]
        refine map_congr_left fun s _ => ?_
        exact length_map _
      rw [← hlengths, map_map, map_map]
      refine map_congr_left fun e _ => ?_
      show ((cuts _ _).map _).length = _
      rw [length_map, length_cuts]
      rfl
  refine eq_of_slots_of_slotNumas ?_ ?_
  · have hraw : ∀ xs : List RawBlock, (xs.map RawBlock.segments).map RawBlock.mk = xs := by
      intro xs
      rw [map_map]
      exact map_id xs
    rw [← hraw b.slots, ← hsegments, map_map]
    exact map_map
  · have hnumas : ((entry.slots.zip allocs).map Prod.fst).map numaNode = b.slotNumas := by
      rw [hslots, hentry, map_numaNode_slotMetas]
    rw [← hnumas, map_map]
    exact map_map

/-! ### Round trip -/

theorem sum_sizes_batchSlots : (sizes (batchSlots requests)).sum =
      (requests.map fun req => (req.entry.slots.map SlotMeta.totalSize).sum).sum := by
  have hreqs : requests.zipIdx.map Prod.fst = requests := zipIdx_map_fst 0 requests
  conv_rhs => rw [← hreqs]
  unfold sizes batchSlots
  rw [map_flatMap, flatMap_def, sum_flatten, map_map, map_map]
  refine congrArg sum (map_congr_left fun req _ => ?_)
  have hslots : req.1.entry.slots.zipIdx.map Prod.fst = req.1.entry.slots :=
    zipIdx_map_fst 0 req.1.entry.slots
  show ((req.1.entry.slots.zipIdx.map _).map SlotRef.size).sum =
    (req.1.entry.slots.map SlotMeta.totalSize).sum
  conv_rhs => rw [← hslots]
  rw [map_map, map_map]
  rfl

theorem length_of_mem_allocs {requests : List (PrefetchRequest n)} {req : PrefetchRequest n}
    (h : (req, allocs) ∈ requests.zip (p.allocs requests)) :
    allocs.length = req.entry.slots.length := by
  unfold Placing.allocs at h
  rw [zip_map_zipIdx] at h
  obtain ⟨e, -, he⟩ := mem_map.mp h
  obtain ⟨rfl, rfl⟩ := Prod.mk.inj he
  rw [length_map, length_zipIdx]

/-- **One block of a batch.**  Once all reads are done, in any order, the block is back. -/
theorem executePrefetch_eq (hp : Placed p (batchSlots (batch.map request)))
    (hapart : p.allocations.Pairwise fun a a' => RangesApart a.1 a.2 a'.1 a'.2)
    (hbatch : ∀ t ∈ batch, t.Recorded) (memory : ℕ → UInt8) {reads : List (Fin n × RangeCopy)}
    (hreads : reads.Perm (batchReads (batch.map request) (p.allocs (batch.map request))))
    (ht : t ∈ batch) (hfile : t.OnFile files)
    (hallocs : (t.request, allocs) ∈ (batch.map request).zip (p.allocs (batch.map request))) :
    executePrefetch (copyEach files reads memory) t.entry allocs
      (some ((blockIovecs t.entry allocs).map Prod.snd).sum) = some t.block := by
  have hlength : allocs.length = t.entry.slots.length := length_of_mem_allocs hallocs
  have hsizes := map_snd_blockIovecs (hbatch t ht).slots_eq hlength
  have hmetas : ∀ req ∈ batch.map request, ∀ slot ∈ req.entry.slots,
      slot.totalSize = slot.segmentSizes.sum := by
    intro req hreq slot hslot
    obtain ⟨u, hu, rfl⟩ := mem_map.mp hreq
    exact u.block.totalSize_of_mem_slotMetas (by rw [← (hbatch u hu).slots_eq]; exact hslot)
  have hpairwise : reads.Pairwise DstApart :=
    (hreads.pairwise_iff RangesApart.symm).mpr (batchReads_pairwise hp hapart hmetas)
  have hcount : ((blockIovecs t.entry allocs).map Prod.snd).sum = t.entry.len := by
    rw [hsizes, ← length_flatten, flatten_segments, length_bytes,
      (hbatch t ht).len_eq]
  have hread : ∀ c ∈ readvAt t.entry.fileOffset (blockIovecs t.entry allocs),
      readAt (copyEach files reads memory) c.dst c.len =
        readAt (files t.entry.shardId) c.src c.len := by
    intro c hc
    refine readAt_copyEach hpairwise (c := (t.entry.shardId, c)) (hreads.mem_iff.mpr ?_)
    exact mem_flatMap.mpr ⟨_, hallocs, mem_map_of_mem hc⟩
  have hpieces := pieces_of_reads hsizes (by rw [flatten_segments]; exact hfile) hread
  rw [executePrefetch, if_pos hcount, rebuild_eq (hbatch t ht).slots_eq hlength hpieces]

/-- **Round trip.**  A batch of blocks that has been written to ranges that keep clear of each other
comes back unchanged, for every chunk size, every order of the NUMA groups and every order of the
reads, if the allocator answers every call with memory of its own. -/
theorem blocks_read_back (isNuma : Bool) {chunkBytes : ℕ} (hchunk : 0 < chunkBytes)
    {allocate : ℕ → Option ℕ} (hallocate : ∀ k, (allocate k).isSome = true)
    (batch : List (WriteTask n)) (hbatch : ∀ t ∈ batch, t.Recorded)
    (hapart : batch.Pairwise fun t u => ¬t.entry.Overlaps u.entry)
    (hsize : (batch.map fun t => t.block.memoryFootprint).sum < usizeLimit)
    {groups : List (Option NumaNode × List SlotRef)}
    (hgroups : groups.Perm (groupSlotsByNuma isNuma (batch.map request))) :
    ∃ allocs allocations,
      dispatchPrefetchBatch chunkBytes allocate groups (batch.map request) =
        .ok (some (allocs, allocations)) ∧
      ((allocations.Pairwise fun a a' => RangesApart a.1 a.2 a'.1 a'.2) →
        ∀ (files : Fin n → ℕ → UInt8) (memory : ℕ → UInt8) (reads : List (Fin n × RangeCopy)),
          reads.Perm (batchReads (batch.map request) allocs) →
          List.Forall₂ (fun t blockAllocs =>
            executePrefetch (copyEach (writeBlocks files batch) reads memory) t.entry blockAllocs
              (some ((blockIovecs t.entry blockAllocs).map Prod.snd).sum) = some t.block)
            batch allocs) := by
  have hsum : (sizes (batchSlots (batch.map request))).sum < usizeLimit := by
    rw [sum_sizes_batchSlots, map_map]
    refine lt_of_eq_of_lt (congrArg List.sum (map_congr_left fun t ht => ?_)) hsize
    show (t.entry.slots.map SlotMeta.totalSize).sum = _
    rw [(hbatch t ht).slots_eq, sum_totalSize_slotMetas]
  obtain ⟨p, hp, hplaced⟩ := dispatchPrefetchBatch_ok isNuma hchunk hgroups
    (allocates_of_sum_lt hallocate hgroups hsum)
  refine ⟨_, _, hp, fun hallocations files memory reads hreads => ?_⟩
  refine forall₂_iff_zip.mpr ⟨?_, fun {t blockAllocs} hzip => ?_⟩
  · rw [Placing.allocs, length_map, length_zipIdx, length_map]
  · have ht : t ∈ batch := (of_mem_zip hzip).1
    refine executePrefetch_eq hplaced hallocations hbatch memory hreads ht
      (onFile_writeBlocks hbatch hapart files ht) ?_
    rw [zip_map_left]
    exact mem_map_of_mem hzip

/-- Two blocks of one file, the first with a split slot on node 0 and a slot on node 1. -/
def twoTasks : List (WriteTask 1) :=
  [{ key := ⟨"ns", [1]⟩
     block := .fromSlots [(⟨[[1, 2], [3]]⟩, ⟨0⟩), (⟨[[4, 5]]⟩, ⟨1⟩)]
     entry :=
      { shardId := ⟨0, Nat.one_pos⟩
        begin := 0
        len := 5
        fileOffset := 0
        slots := [.new [2, 1] ⟨0⟩, .new [2] ⟨1⟩] } },
   { key := ⟨"ns", [2]⟩
     block := .fromSlots [(⟨[[6]]⟩, ⟨0⟩)]
     entry :=
      { shardId := ⟨0, Nat.one_pos⟩
        begin := 5
        len := 1
        fileOffset := 5
        slots := [.new [1] ⟨0⟩] } }]

/-- The blocks come back through chunks at the addresses 100, 200 and 300. -/
theorem blocks_read_back_two_nodes :
    ∃ allocs allocations,
      dispatchPrefetchBatch 2 (fun k => some (100 * (k + 1)))
        (groupSlotsByNuma true (twoTasks.map request)) (twoTasks.map request) =
        .ok (some (allocs, allocations)) ∧
      allocations = [(100, 3), (200, 1), (300, 2)] ∧
      ∀ (files : Fin 1 → ℕ → UInt8) (memory : ℕ → UInt8),
        List.Forall₂ (fun t blockAllocs =>
          executePrefetch (copyEach (writeBlocks files twoTasks)
              (batchReads (twoTasks.map request) allocs) memory) t.entry blockAllocs
            (some ((blockIovecs t.entry blockAllocs).map Prod.snd).sum) = some t.block)
          twoTasks allocs := by
  have hrecorded : ∀ t ∈ twoTasks, t.Recorded := by
    intro t ht
    rcases mem_cons.mp ht with rfl | ht
    · exact ⟨rfl, rfl⟩
    · obtain rfl := mem_singleton.mp ht
      exact ⟨rfl, rfl⟩
  have hchunk : 0 < 2 := by decide
  have hallocate : ∀ k, (some (100 * (k + 1))).isSome = true := fun _ => rfl
  obtain ⟨allocs, allocations, hdispatch, hback⟩ := blocks_read_back true hchunk hallocate
    twoTasks hrecorded (by decide) (by decide) (.refl _)
  have hrun : dispatchPrefetchBatch 2 (fun k => some (100 * (k + 1)))
      (groupSlotsByNuma true (twoTasks.map request)) (twoTasks.map request) =
      .ok (some ([[⟨100, 0⟩, ⟨300, 0⟩], [⟨200, 0⟩]], [(100, 3), (200, 1), (300, 2)])) := rfl
  obtain ⟨rfl, rfl⟩ := Prod.mk.inj (Option.some.inj (Except.ok.inj (hdispatch.symm.trans hrun)))
  refine ⟨_, _, hdispatch, rfl, fun files memory => hback ?_ files memory _ (.refl _)⟩
  unfold RangesApart
  decide

/-! ### Reading the index back -/

open SsdDevice

variable {evs : List (SsdEvent n)} {d : SsdDevice n} {requests : List (PrefetchRequest n)}

theorem recorded_of_mem_prepareWrites [NeZero n] {r : SsdRingBuffer n}
    {candidates : List (BlockKey × SealedBlock)} :
    ∀ t ∈ (r.prepareWrites candidates).1, t.Recorded := by
  induction candidates generalizing r with
  | nil => intro t ht; cases ht
  | cons c rest ih =>
    intro t ht
    rcases mem_append.mp ht with ht | ht
    · unfold SsdRingBuffer.prepareWrite at ht
      dsimp only at ht
      split at ht
      · cases ht
      · obtain rfl := mem_singleton.mp ht
        exact ⟨rfl, rfl⟩
    · exact ih t ht

/-- Every write prepared so far has its block described in its entry. -/
theorem recorded_step [NeZero n] {writeInflight : ℕ} (d : SsdDevice n) (ev : SsdEvent n)
    (d' : SsdDevice n) (h : ∀ t ∈ d.writer.log, t.Recorded)
    (hstep : d.step writeInflight ev = some d') : ∀ t ∈ d'.writer.log, t.Recorded := by
  rcases step_cases hstep with ⟨wev, w, -, hw, rfl, -⟩ | ⟨u, c, -, -, -, -, rfl⟩
  · unfold SsdWriter.log at h ⊢
    cases SsdWriter.turn_of_step hw with
    | complete hq => rw [hq] at h; simpa using h
    | submit hp => rw [hp] at h; simpa using h
    | prepare hp =>
      rw [hp, append_nil] at h
      rw [← append_assoc]
      intro t ht
      exact (mem_append.mp ht).elim (h t) (recorded_of_mem_prepareWrites t)
    | idle => exact h
  · exact h

/-- The entries the index returns are those of writes of the log that are on their files. -/
theorem exists_writes_of_get (hinv : Inv evs d)
    (hindex : ∀ req ∈ requests, d.writer.ring.get req.key = some req.entry) :
    ∃ batch : List (WriteTask n), batch.map request = requests ∧
      ∀ t ∈ batch, t ∈ d.writer.log ∧ t.OnFile d.files := by
  induction requests with
  | nil => exact ⟨[], rfl, by simp⟩
  | cons req rest ih =>
    obtain ⟨hreq, hrest⟩ := forall_mem_cons.mp hindex
    obtain ⟨batch, hmap, hbatch⟩ := ih hrest
    obtain ⟨hcommitted, hvalid⟩ := SsdRingBuffer.get_eq_some.mp hreq
    obtain ⟨t, ht, hkey, hentry⟩ := hinv.writer.committed _ _ hcommitted
    obtain rfl : t.request = req := by unfold request; rw [hkey, hentry]
    refine ⟨t :: batch, congrArg _ hmap, forall_mem_cons.mpr ⟨⟨?_, ?_⟩, hbatch⟩⟩
    · exact mem_append_left _ (mem_map_of_mem (f := Prod.fst) ht)
    · refine readAt_eq fun i hi => ?_
      exact hinv.stored t _ (hinv.full t ht) hvalid i hi (by rwa [t.block.length_bytes] at hi)

/-- **What the index holds is read back.**  After every run of the writer over pairwise distinct
keys on a device with faithful I/O, every batch of requests taken from the index comes back through
the prefetch path as the blocks received under its keys, for every chunk size, every order of the
NUMA groups and every order of the reads. -/
theorem index_read_back [NeZero n] (writeInflight : ℕ) (shardCapacities : Fin n → ℕ)
    (files : Fin n → ℕ → UInt8) (hkeys : DistinctKeys evs)
    (hio : Along (step writeInflight) FaithfulIo (new shardCapacities files) evs)
    (hrun : exec (step writeInflight) (new shardCapacities files) evs = some d) (isNuma : Bool)
    {chunkBytes : ℕ} (hchunk : 0 < chunkBytes) {allocate : ℕ → Option ℕ}
    (hallocate : ∀ k, (allocate k).isSome = true) (requests : List (PrefetchRequest n))
    (hindex : ∀ req ∈ requests, d.writer.ring.get req.key = some req.entry)
    (hsize : (requests.map fun req => req.entry.len).sum < usizeLimit)
    {groups : List (Option NumaNode × List SlotRef)}
    (hgroups : groups.Perm (groupSlotsByNuma isNuma requests)) :
    ∃ allocs allocations,
      dispatchPrefetchBatch chunkBytes allocate groups requests =
        .ok (some (allocs, allocations)) ∧
      ((allocations.Pairwise fun a a' => RangesApart a.1 a.2 a'.1 a'.2) →
        ∀ (memory : ℕ → UInt8) (reads : List (Fin n × RangeCopy)),
          reads.Perm (batchReads requests allocs) →
          List.Forall₂ (fun req blockAllocs =>
            ∃ block, (req.key, block) ∈ evs.flatMap SsdEvent.candidates ∧
              executePrefetch (copyEach d.files reads memory) req.entry blockAllocs
                (some ((blockIovecs req.entry blockAllocs).map Prod.snd).sum) = some block)
            requests allocs) := by
  have hinv : Inv evs d :=
    exec_history (I := fun past d => DistinctKeys past → Inv past d)
      inv_step [] (fun _ => inv_new shardCapacities files) hio hrun hkeys
  have hrecorded : ∀ t ∈ d.writer.log, t.Recorded :=
    (always_of_step recorded_step (fun t ht => by cases ht)).exec hrun
  obtain ⟨batch, rfl, hwrites⟩ := exists_writes_of_get hinv hindex
  have hbatch : ∀ t ∈ batch, t.Recorded := fun t ht => hrecorded t (hwrites t ht).1
  have hsum : (sizes (batchSlots (batch.map request))).sum < usizeLimit := by
    rw [sum_sizes_batchSlots]
    refine lt_of_eq_of_lt (congrArg List.sum (map_congr_left fun req hreq => ?_)) hsize
    obtain ⟨t, ht, rfl⟩ := mem_map.mp hreq
    show (t.entry.slots.map SlotMeta.totalSize).sum = t.entry.len
    rw [(hbatch t ht).slots_eq, sum_totalSize_slotMetas, (hbatch t ht).len_eq]
  obtain ⟨p, hp, hplaced⟩ := dispatchPrefetchBatch_ok isNuma hchunk hgroups
    (allocates_of_sum_lt hallocate hgroups hsum)
  refine ⟨_, _, hp, fun hallocations memory reads hreads => ?_⟩
  refine forall₂_iff_zip.mpr ⟨?_, fun {req blockAllocs} hzip => ?_⟩
  · rw [Placing.allocs, length_map, length_map, length_zipIdx, length_map]
  · obtain ⟨t, ht, rfl⟩ := mem_map.mp (of_mem_zip hzip).1
    obtain ⟨hlog, hfile⟩ := hwrites t ht
    exact ⟨t.block, hinv.sources.subset (mem_map_of_mem hlog),
      executePrefetch_eq hplaced hallocations hbatch memory hreads ht hfile hzip⟩

/-- The third block of `wrapInOrder`, whose byte was that of the first one before. -/
theorem index_read_back_wrapInOrder :
    ∃ d, exec (step 3) (new (fun _ => 2) fun _ _ => 0) wrapInOrder = some d ∧
      ∀ memory, ∃ block, (byteKey 3, block) ∈ wrapInOrder.flatMap SsdEvent.candidates ∧
        executePrefetch (copyEach d.files
          (batchReads [(byteTask 3 9 2 0).request] [[⟨64, 0⟩]]) memory)
          (byteTask 3 9 2 0).entry [⟨64, 0⟩] (some 1) = some block := by
  have hchunk : 0 < 8 := by decide
  have hallocate : ∀ k, (some 64 : Option ℕ).isSome = true := fun _ : ℕ => rfl
  obtain ⟨allocs, allocations, hdispatch, hback⟩ := index_read_back 3 (fun _ => 2)
    (fun _ _ => 0) (by decide) (by decide) (rfl : exec _ _ wrapInOrder = _) false hchunk hallocate
    [(byteTask 3 9 2 0).request] (forall_mem_singleton.mpr rfl) (by decide) (.refl _)
  obtain ⟨rfl, rfl⟩ := Prod.mk.inj (Option.some.inj (Except.ok.inj hdispatch))
  refine ⟨_, rfl, fun memory => ?_⟩
  exact (forall₂_cons.mp (hback (pairwise_singleton _ _) memory _ (.refl _))).1

end SsdPrefetch

end PegaFlow
