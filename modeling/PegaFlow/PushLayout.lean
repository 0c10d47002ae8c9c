/-
PegaFlow/PushLayout.lean

Where the bytes of a push come from and go to (`pd_connector/layout.py`, the block ranges of
`prefill_worker.py`, and the steps below them in `PushTargets`).

Both sides describe the KV cache tensor of a layer by its shape and strides.  The prefill side
computes the source offset of each block, or of a slice of heads in it, from the strides; the
decode side tells where its regions (K and V, or one for MLA) start and how long a block is.
What is in between is recomputed: blocks with consecutive ids are pushed as one run of bytes,
and a remote block is looked for at its id times the length of a block.
-/
import Mathlib.Tactic.Ring
import PegaFlow.HeadMapping
import PegaFlow.PushTargets

namespace PegaFlow

open List PdRemoteRegion LayerBlockSlices

/-! ### Tensors and layouts -/

structure Tensor where
  shape : List ℕ
  strides : List ℕ
  elementSize : ℕ
  dataPtr : ℕ
deriving DecidableEq, Repr

/-- The address of an element. -/
def Tensor.addr (tensor : Tensor) (index : List ℕ) : ℕ :=
  tensor.dataPtr + (zipWith (· * ·) index tensor.strides).sum * tensor.elementSize

/-- FlashAttention HND: `[2, num_blocks, block_size, num_kv_heads, head_size]`, with the heads
of a block outside its tokens. -/
structure FlashAttnHndLayout where
  layerName : String
  numBlocks : ℕ
  blockSize : ℕ
  numKvHeads : ℕ
  headSize : ℕ
  kvStride : ℕ
  blockStride : ℕ
  tokenStride : ℕ
  headStride : ℕ
  dimStride : ℕ
  elementSize : ℕ
  baseAddr : ℕ
deriving DecidableEq, Repr

/-- MLA and indexer caches: `[num_blocks, block_size, dim]`. -/
structure MlaBlocksLayout where
  layerName : String
  numBlocks : ℕ
  blockSize : ℕ
  dim : ℕ
  blockStride : ℕ
  tokenStride : ℕ
  dimStride : ℕ
  elementSize : ℕ
  baseAddr : ℕ
  blockBytes : ℕ
deriving DecidableEq, Repr

inductive KvCacheLayout where
  | flash (layout : FlashAttnHndLayout)
  | mla (layout : MlaBlocksLayout)
deriving DecidableEq, Repr

variable (layout : FlashAttnHndLayout)

namespace FlashAttnHndLayout

def blockBytes : ℕ :=
  layout.blockSize * layout.numKvHeads * layout.headSize * layout.elementSize

def headBytes : ℕ :=
  layout.blockSize * layout.headSize * layout.elementSize

def blockOffsetBytes (kvIdx blockId : ℕ) : Except String ℕ :=
  if layout.numBlocks ≤ blockId then
    .error (s!"block_id {blockId} out of range for layer={layout.layerName} " ++
      s!"num_blocks={layout.numBlocks}")
  else .ok ((kvIdx * layout.kvStride + blockId * layout.blockStride) * layout.elementSize)

end FlashAttnHndLayout

namespace MlaBlocksLayout

def blockOffsetBytes (layout : MlaBlocksLayout) (blockId : ℕ) : Except String ℕ :=
  if layout.numBlocks ≤ blockId then
    .error (s!"block_id {blockId} out of range for layer={layout.layerName} " ++
      s!"num_blocks={layout.numBlocks}")
  else .ok (blockId * layout.blockStride * layout.elementSize)

end MlaBlocksLayout

namespace KvCacheLayout

/-- The offsets of a block in the regions of the layer. -/
def blockOffsets : KvCacheLayout → ℕ → Except String (List ℕ)
  | flash layout, blockId => [0, 1].mapM (layout.blockOffsetBytes · blockId)
  | mla layout, blockId => do return [← layout.blockOffsetBytes blockId]

def blockBytes : KvCacheLayout → ℕ
  | flash layout => layout.blockBytes
  | mla layout => layout.blockBytes

def baseAddr : KvCacheLayout → ℕ
  | flash layout => layout.baseAddr
  | mla layout => layout.baseAddr

def numBlocks : KvCacheLayout → ℕ
  | flash layout => layout.numBlocks
  | mla layout => layout.numBlocks

/-- The heads of a rank; layouts without heads count as one. -/
def numKvHeads : KvCacheLayout → ℕ
  | flash layout => layout.numKvHeads
  | mla _ => 1

end KvCacheLayout

/-! ### Prefill side: block slices -/

/-- One slice per offset, all of `bytes` bytes. -/
def sliceRegions (blockId : ℕ) (offsets : List ℕ) (bytes : ℕ) : Except String LayerBlockSlices :=
  if h : 0 < bytes ∧ offsets ≠ [] then
    .ok
      { regions := offsets.map fun srcOffsetBytes => ⟨blockId, srcOffsetBytes, bytes, h.1⟩
        regions_ne := fun hnil => h.2 (map_eq_nil_iff.mp hnil) }
  else .error "AssertionError"

/-- `_coalesced_block_slice`: the slices of `count` blocks, sent to `remoteBlockId` and the
blocks after it. -/
def coalescedBlockSlice (layout : KvCacheLayout) (range : ℕ × ℕ × ℕ) :
    Except String LayerBlockSlices := do
  let offsets ← layout.blockOffsets range.1
  sliceRegions range.2.1 offsets (layout.blockBytes * range.2.2)

/-- The loop of `block_ranges_for_remote_write`: a range is its first local block, its first
remote block and their number. -/
def blockRangesFrom (start : ℕ × ℕ × ℕ) : List (ℕ × ℕ) → List (ℕ × ℕ × ℕ)
  | [] => [start]
  | next :: rest =>
      if next.1 = start.1 + start.2.2 ∧ next.2 = start.2.1 + start.2.2 then
        blockRangesFrom (start.1, start.2.1, start.2.2 + 1) rest
      else start :: blockRangesFrom (next.1, next.2, 1) rest

def blockRanges : List (ℕ × ℕ) → List (ℕ × ℕ × ℕ)
  | [] => []
  | first :: rest => blockRangesFrom (first.1, first.2, 1) rest

/-- The slices of the heads from `startHead` to `endHead` of a block. -/
def FlashAttnHndLayout.blockHeadSlices (blockId startHead endHead : ℕ) :
    Except String LayerBlockSlices :=
  if ¬(startHead < endHead ∧ endHead ≤ layout.numKvHeads) then
    .error (s!"invalid KV head range [{startHead}, {endHead}) for layer={layout.layerName} " ++
      s!"num_kv_heads={layout.numKvHeads}")
  else do
    let offsets ← [0, 1].mapM (layout.blockOffsetBytes · blockId)
    sliceRegions blockId (offsets.map (· + startHead * layout.headBytes))
      ((endHead - startHead) * layout.headBytes)

/-- One round of the loop over the local blocks: the slices of all head slices, addressed to
the remote block. -/
def headSlicedBlock (headSlices : List HeadSlice) (ids : ℕ × ℕ) :
    Except String LayerBlockSlices := do
  let blockSlices ← headSlices.mapM fun slice =>
    layout.blockHeadSlices ids.1 slice.localStart slice.localEnd
  let regions := blockSlices.flatMap fun block =>
    block.regions.map fun region => { region with blockId := ids.2 }
  if h : regions ≠ [] then .ok { regions, regions_ne := h } else .error "AssertionError"

/-- `_target_block_ranges_for_remote_write`.  The entries of the dictionary are visited in the
order of the local ids. -/
def targetBlockRangesForRemoteWrite (layout : KvCacheLayout) (target : PushTargetPlan)
    (remoteBlockIds : List (ℕ × ℕ)) : Except String (List LayerBlockSlices) :=
  let blockMap := remoteBlockIds.insertionSort fun a b => a.1 ≤ b.1
  if target.headSlices = [] then (blockRanges blockMap).mapM (coalescedBlockSlice layout)
  else
    match layout with
    | .mla _ =>
        .error ("PdConnector head-sliced layout mapping requires FlashAttention HND layout; " ++
          "layout=MlaBlocksLayout")
    | .flash layout => blockMap.mapM (headSlicedBlock layout target.headSlices)

/-! ### Decode side: regions -/

structure TransferRegionLayout where
  baseAddr : ℕ
  blockLen : ℕ
  blockStride : Option ℕ
  baseAddr_pos : 0 < baseAddr
  blockLen_pos : 0 < blockLen
  blockLen_le : ∀ stride ∈ blockStride, blockLen ≤ stride

/-- The constructor, with its assertions. -/
def transferRegionLayout (baseAddr blockLen : ℕ) (blockStride : Option ℕ) :
    Except String TransferRegionLayout :=
  if h : 0 < baseAddr ∧ 0 < blockLen ∧ ∀ stride ∈ blockStride, blockLen ≤ stride then
    .ok ⟨baseAddr, blockLen, blockStride, h.1, h.2.1, h.2.2⟩
  else .error "AssertionError"

/-- `remote_layout` -/
def KvCacheLayout.remoteLayout (layout : KvCacheLayout) :
    Except String (List TransferRegionLayout) := do
  let offsets ← layout.blockOffsets 0
  offsets.mapM fun offset => transferRegionLayout (layout.baseAddr + offset) layout.blockBytes none

/-- `_single_remote_head_slice` -/
def singleRemoteHeadSlice : List HeadSlice → Except String HeadSlice
  | [] => .error "PdConnector target has no head slices"
  | [slice] => .ok slice
  | _ => .error ("PdConnector first head-sliced version expects one contiguous head slice per " ++
      "target")

/-- `_remote_head_layer`, for one region. -/
def remoteHeadRegion (slice : HeadSlice) (headBytes : ℕ) (region : TransferRegionLayout) :
    Except String TransferRegionLayout :=
  transferRegionLayout (region.baseAddr + slice.remoteStart * headBytes)
    ((slice.remoteEnd - slice.remoteStart) * headBytes)
    (some (region.blockStride.getD region.blockLen))

/-- `_target_handshake_for_local_layout`.  `layout` is that of the first registered layer,
whatever the layer of the regions. -/
def targetRegions (layout : KvCacheLayout) (target : PushTargetPlan)
    (regions : List TransferRegionLayout) : Except String (List TransferRegionLayout) :=
  if target.headSlices = [] then .ok regions
  else
    match layout with
    | .mla _ =>
        .error ("PdConnector head-sliced layout mapping requires FlashAttention HND layout; " ++
          "layout=MlaBlocksLayout")
    | .flash layout => do
        let slice ← singleRemoteHeadSlice target.headSlices
        regions.mapM (remoteHeadRegion slice layout.headBytes)

/-- A region of the handshake, as `register_remote` validates and stores it. -/
def registerRegion (layerIdx : ℕ) (e : TransferRegionLayout × ℕ) : Except String PdRemoteRegion :=
  let blockStride := e.1.blockStride.getD e.1.blockLen
  if hpos : e.1.baseAddr = 0 ∨ e.1.blockLen = 0 then
    .error s!"layer {layerIdx} region {e.2} has an invalid address range"
  else if hle : blockStride < e.1.blockLen then
    .error (s!"layer {layerIdx} region {e.2} block_stride {blockStride} is smaller than " ++
      s!"block_len {e.1.blockLen}")
  else .ok ⟨e.1.baseAddr, e.1.blockLen, blockStride,
    Nat.pos_of_ne_zero fun h => hpos (.inr h), Nat.le_of_not_lt hle⟩

/-- The memory region of a layer starts at the lowest of its regions. -/
def minAddr (regions : List TransferRegionLayout) : ℕ :=
  (regions.map TransferRegionLayout.baseAddr).min?.getD 0

/-- `_remote_num_kv_heads`: the heads of a decode rank, from the length of its blocks. -/
def remoteNumKvHeads (regions : List TransferRegionLayout) (localLayout : KvCacheLayout)
    (fallback : ℕ) : Except String ℕ :=
  match regions, localLayout with
  | region :: _, .flash layout =>
      if layout.headBytes = 0 then .error "ZeroDivisionError"
      else if region.blockLen % layout.headBytes ≠ 0 then .ok fallback
      else .ok (max 1 (region.blockLen / layout.headBytes))
  | _, _ => .ok fallback

/-- `_build_push_layout_plan`: `prefill` and `decode` are the first layers of the two sides. -/
def buildLayerPushPlan (prefill decode : KvCacheLayout) (tpRank tpSize : ℕ)
    (handshakes : List RankHandshake) (useMla : Bool) : Except String (List PushTargetPlan) := do
  let remoteRegions ← decode.remoteLayout
  let localHeads := prefill.numKvHeads
  let remoteHeads ← remoteNumKvHeads remoteRegions prefill localHeads
  buildPushLayoutPlan tpRank tpSize handshakes localHeads remoteHeads
    (totalNumKvHeads localHeads tpSize remoteHeads (decodeTpSize handshakes) useMla) useMla

/-- **A push** of some blocks of one layer to one target: registration of the layer on both
sides, the slices, and the scatter targets.  `first` is the first registered layer of the
prefill side; `remoteBlockIds` gives the remote block of each local one; `blockIds` are those of
the handshake. -/
def pushTarget (first prefill decode : KvCacheLayout) (target : PushTargetPlan)
    (blockIds : List ℕ) (reqId : String) (layerIdx : ℕ) (remoteBlockIds : List (ℕ × ℕ)) :
    Except String ScatterTransferRequest := do
  let localRegions ← prefill.remoteLayout
  let remoteRegions ← decode.remoteLayout
  let regions ← targetRegions first target remoteRegions
  let regions ← regions.zipIdx.mapM (registerRegion layerIdx)
  let engine : PdRdmaEngine :=
    { localLayers := fun _ =>
        some { baseAddr := minAddr localRegions, mrPtr := minAddr localRegions }
      remoteRequests := fun _ => some fun _ => some
        { mrPtr := minAddr remoteRegions, allowedBlockIds := blockIds, regions } }
  let blocks ← targetBlockRangesForRemoteWrite prefill target remoteBlockIds
  engine.pushLayer reqId layerIdx (layerBlocksToNative blocks)

/-! ### What a push should copy -/

/-- The entries of the mapped blocks and heads: in each dimension, the indices on the two
sides. -/
def mappedEntries (shape : List ℕ) (target : PushTargetPlan) (blockMap : List (ℕ × ℕ)) :
    List (List (ℕ × ℕ)) :=
  match shape with
  | [kvs, _, blockSize, numKvHeads, headSize] =>
      blockMap.flatMap fun ids => (range kvs).flatMap fun kv =>
        (target.headPairs numKvHeads).flatMap fun heads =>
          (range blockSize).flatMap fun token => (range headSize).map fun d =>
            [(kv, kv), ids, (token, token), heads, (d, d)]
  | [_, blockSize, dim] =>
      blockMap.flatMap fun ids => (range blockSize).flatMap fun token =>
        (range dim).map fun d => [ids, (token, token), (d, d)]
  | _ => []

/-- The element-wise copy of the mapped blocks and heads. -/
def elementCopy (prefill decode : Tensor) (target : PushTargetPlan) (blockMap : List (ℕ × ℕ)) :
    List (ℕ × ℕ) :=
  (mappedEntries prefill.shape target blockMap).flatMap fun e =>
    copyRun (prefill.addr (e.map Prod.fst)) (decode.addr (e.map Prod.snd)) prefill.elementSize

variable (first prefill decode : KvCacheLayout)

/-- A map between the blocks of two layers. -/
structure IsBlockMap (blockMap : List (ℕ × ℕ)) : Prop where
  nodup_local : (blockMap.map Prod.fst).Nodup
  nodup_remote : (blockMap.map Prod.snd).Nodup
  lt : ∀ ids ∈ blockMap, ids.1 < prefill.numBlocks ∧ ids.2 < decode.numBlocks

/-- All pushes of a layer are accepted and copy the mapped entries. -/
def CopiesAll (p d : Tensor) (target : PushTargetPlan) (blockIds : List ℕ) (reqId : String)
    (layerIdx : ℕ) : Prop :=
  ∀ blockMap, IsBlockMap prefill decode blockMap → ∃ request,
    pushTarget first prefill decode target blockIds reqId layerIdx blockMap = .ok request ∧
      request.pairs.Perm (elementCopy p d target blockMap)

structure FlashAlike (lp ld : FlashAttnHndLayout) : Prop where
  elementSize : ld.elementSize = lp.elementSize
  blockSize : ld.blockSize = lp.blockSize
  headSize : ld.headSize = lp.headSize

/-- The entries of a head, and the blocks of the decode side, lie next to each other. -/
structure FlashPacked (lp ld : FlashAttnHndLayout) : Prop where
  dim : 1 < lp.headSize → lp.dimStride = 1 ∧ ld.dimStride = 1
  block : 1 < ld.numBlocks → ld.blockStride = ld.blockSize * ld.numKvHeads * ld.headSize

/-- **The layers are packed.**  For the whole rank, the blocks of the prefill side lie next to
each other too, unless there is only one to push to; for a slice of heads they may be anywhere,
but heads are as long as those of the first layer. -/
def PackedLike (target : PushTargetPlan) : Prop :=
  match prefill, decode with
  | .flash lp, .flash ld => FlashPacked lp ld ∧
      (target.headSlices = [] → 1 < lp.numBlocks → 1 < ld.numBlocks →
        lp.blockStride = lp.blockSize * lp.numKvHeads * lp.headSize) ∧
      (target.headSlices ≠ [] → ∀ layout, first = .flash layout → layout.headBytes = lp.headBytes)
  | .mla mp, _ => mp.blockStride = mp.blockSize * mp.dim
  | .flash _, .mla _ => False

/-! ### Runs of blocks -/

variable {blocks : List LayerBlockSlices}

section Runs

variable {len stride id c : ℕ} {offs : List ℕ} {b prev next : LayerBlockSlices} {l : PdLocalLayer}
  {regions : List PdRemoteRegion}

/-- The slices of `c` blocks of `len` bytes from block `id` on, at the given offsets. -/
def IsRun (len id c : ℕ) (offs : List ℕ) (b : LayerBlockSlices) : Prop :=
  ∃ hpos, b.regions = offs.map fun o => ⟨id, o, c * len, hpos⟩

/-- All regions have blocks of `len` bytes, `stride` bytes apart. -/
def Uniform (len stride : ℕ) (regions : List PdRemoteRegion) : Prop :=
  ∀ region ∈ regions, region.blockLen = len ∧ region.blockStride = stride

/-- The byte pairs of a run, for regions that start at `dsts`. -/
def runPairs (base len stride : ℕ) (dsts : List ℕ) (id c : ℕ) (offs : List ℕ) : List (ℕ × ℕ) :=
  (offs.zip dsts).flatMap fun e => (range c).flatMap fun k =>
    copyRun (base + e.1 + k * len) (e.2 + (id + k) * stride) len

theorem sliceRegions_ok (h : sliceRegions id offs (c * len) = .ok b) : IsRun len id c offs b := by
  unfold sliceRegions at h
  split at h
  · next hpos =>
    cases h
    exact ⟨hpos.1, rfl⟩
  · cases h

theorem zipIdx_flatMap_getElem? {α β γ : Type*} (f : α → β → List γ) (xs : List α) (ys : List β) :
    (xs.zipIdx.flatMap fun e => ys[e.2]?.elim [] (f e.1)) =
      (xs.zip ys).flatMap fun e => f e.1 e.2 := by
  have key : ∀ (xs : List α) (k : ℕ), ((xs.zipIdx k).flatMap fun e => ys[e.2]?.elim [] (f e.1)) =
      (xs.zip (ys.drop k)).flatMap fun e => f e.1 e.2 := by
    intro xs
    induction xs with
    | nil => intro k; rfl
    | cons x xs ih =>
      intro k
      rw [zipIdx_cons, flatMap_cons, ih (k + 1)]
      cases hk : ys[k]? with
      | none =>
        have hlen := List.getElem?_eq_none_iff.mp hk
        rw [drop_eq_nil_of_le hlen, drop_eq_nil_of_le (Nat.le_succ_of_le hlen)]
        simp
      | some y =>
        obtain ⟨hlt, rfl⟩ := List.getElem?_eq_some_iff.mp hk
        rw [drop_eq_getElem_cons hlt, zip_cons_cons]
        rfl
  simpa using key xs 0

theorem IsRun.pairs (h : IsRun len id c offs b) (hlen : 0 < len)
    (hregions : Uniform len stride regions) :
    b.pairs l regions =
      runPairs l.baseAddr len stride (regions.map baseAddr) id c offs := by
  obtain ⟨hpos, hslices⟩ := h
  have hzip : b.pairs l regions = (b.regions.zip regions).flatMap fun e =>
      slicePairs l ⟨0, e.1.blockId, e.1.srcOffsetBytes, e.1.bytes⟩ e.2 :=
    zipIdx_flatMap_getElem? (fun s : BlockRegionSlice =>
      slicePairs l ⟨0, s.blockId, s.srcOffsetBytes, s.bytes⟩) _ _
  rw [hzip, hslices, runPairs, zip_map_left, zip_map_right, flatMap_map,
    flatMap_map]
  refine flatMap_congr ?_
  rintro ⟨o, region⟩ he
  obtain ⟨hblockLen, hstride⟩ := hregions region (of_mem_zip he).2
  simp only [slicePairs, Prod.map_apply, id_eq, hblockLen, hstride, Nat.mul_div_cancel c hlen]

theorem runPairs_add (base : ℕ) (dsts : List ℕ) (k : ℕ) :
    (runPairs base len stride dsts id (c + k) offs).Perm
      (runPairs base len stride dsts id c offs ++
        runPairs base len stride dsts (id + c) k (offs.map (· + c * len))) := by
  unfold runPairs
  rw [zip_map_left, flatMap_map]
  refine List.Perm.trans (.of_eq ?_) (flatMap_append_perm _ _ _).symm
  refine flatMap_congr ?_
  rintro ⟨o, d⟩ _
  rw [range_add, flatMap_append, flatMap_map]
  refine congrArg _ (flatMap_congr ?_)
  intro j _
  simp only [Prod.map_apply, id_eq, add_mul, add_assoc]

variable {id' k : ℕ} {runs : List (ℕ × ℕ × List ℕ)} {offs' : List ℕ}

theorem IsRun.extend (hprev : IsRun len id c offs prev) (hnext : IsRun len id' k offs' next)
    (hlength : offs.length = offs'.length) : IsRun len id (c + k) offs (prev.extend next) := by
  obtain ⟨hpos, hslices⟩ := hprev
  obtain ⟨hpos', hslices'⟩ := hnext
  refine ⟨by rw [add_mul]; omega, ?_⟩
  show zipWith BlockRegionSlice.extend prev.regions next.regions = _
  rw [hslices, hslices']
  apply ext_getElem
  · simp [hlength]
  · intro i hi hi'
    simp [BlockRegionSlice.extend, add_mul]

theorem IsRun.canExtend (hlen : 0 < len) (hprev : IsRun len id c offs prev)
    (hnext : IsRun len id' k offs' next) (h : prev.canExtend next) :
    k ∣ c ∧ id + c / k = id' ∧ offs' = offs.map (· + c * len) := by
  obtain ⟨hpos, hslices⟩ := hprev
  obtain ⟨hpos', hslices'⟩ := hnext
  have hne : offs ≠ [] := by
    rintro rfl
    exact prev.regions_ne hslices
  rw [LayerBlockSlices.canExtend, Bool.and_eq_true, decide_eq_true_eq, all_eq_true, hslices,
    hslices'] at h
  obtain ⟨hlength, hall⟩ := h
  rw [length_map, length_map] at hlength
  have hat : ∀ e ∈ offs.zip offs', c * len % (k * len) = 0 ∧ id + c * len / (k * len) = id' ∧
      e.1 + c * len = e.2 := by
    rintro ⟨o, o'⟩ he
    have hext := hall (⟨id, o, c * len, hpos⟩, ⟨id', o', k * len, hpos'⟩) (by
      rw [zip_map]
      exact mem_map_of_mem he)
    simpa [BlockRegionSlice.canExtend, and_assoc] using hext
  obtain ⟨o, offs₁, rfl⟩ := exists_cons_of_ne_nil hne
  obtain ⟨o', offs₁', rfl⟩ : ∃ o' offs₁', offs' = o' :: offs₁' :=
    exists_cons_of_length_eq_add_one hlength.symm
  obtain ⟨hmod, hid, -⟩ := hat (o, o') mem_cons_self
  rw [Nat.mul_div_mul_right _ _ hlen] at hid
  refine ⟨Nat.dvd_of_mul_dvd_mul_right hlen (Nat.dvd_of_mod_eq_zero hmod), hid, ?_⟩
  apply ext_getElem
  · simpa using hlength.symm
  · intro i hi hi'
    rw [getElem_map]
    have hmem : ((o :: offs₁)[i], (o' :: offs₁')[i]) ∈ (o :: offs₁).zip (o' :: offs₁') := by
      rw [mem_iff_getElem]
      exact ⟨i, by rw [length_zip]; omega, by rw [getElem_zip]⟩
    exact (hat _ hmem).2.2.symm

/-- Runs of distinct remote blocks that are merged continue each other: a longer run would
start inside the one before. -/
theorem eq_of_canExtend (hk : 0 < k) (hc : 0 < c) (hdvd : k ∣ c) (hid : id + c / k = id')
    (hdisj : (range' id c).Disjoint (range' id' k)) : id' = id + c := by
  have hmem : id' ∈ range' id' k := mem_range'_1.mpr ⟨le_refl _, by omega⟩
  have hout : id' ∉ range' id c := fun h => hdisj h hmem
  rw [mem_range'_1] at hout
  have hle : c / k ≤ c := Nat.div_le_self c k
  have hpos : 0 < c / k := Nat.div_pos (Nat.le_of_dvd hc hdvd) hk
  omega

/-- The blocks that a list of runs covers. -/
def runIds (runs : List (ℕ × ℕ × List ℕ)) : List ℕ :=
  runs.flatMap fun run => List.range' run.1 run.2.1

/-- The slices of non-empty runs, one for one. -/
def AreRuns (len : ℕ) (runs : List (ℕ × ℕ × List ℕ)) (blocks : List LayerBlockSlices) : Prop :=
  Forall₂ (fun run b => 0 < run.2.1 ∧ IsRun len run.1 run.2.1 run.2.2 b) runs blocks

/-- Merging blocks keeps the byte pairs, as long as no remote block occurs twice. -/
theorem coalesceFrom_pairs (hlen : 0 < len) (hregions : Uniform len stride regions) (hc : 0 < c)
    (hprev : IsRun len id c offs prev) (hblocks : AreRuns len runs blocks)
    (hnodup : (List.range' id c ++ runIds runs).Nodup) :
    ((coalesceFrom prev blocks).flatMap (pairs l regions)).Perm
      (runPairs l.baseAddr len stride (regions.map baseAddr) id c offs ++
        runs.flatMap fun run => runPairs l.baseAddr len stride
          (regions.map baseAddr) run.1 run.2.1 run.2.2) := by
  induction hblocks generalizing prev id c offs with
  | nil =>
    rw [coalesceFrom, flatMap_singleton, flatMap_nil, append_nil,
      hprev.pairs hlen hregions]
  | @cons run block runs blocks hblock hblocks ih =>
    obtain ⟨id', k, offs'⟩ := run
    obtain ⟨hk, hrun⟩ := hblock
    have hsplit : (List.range' id c ++ (List.range' id' k ++ runIds runs)).Nodup := hnodup
    have hdisj : (List.range' id c).Disjoint (List.range' id' k) := by
      intro x hx hx'
      exact (nodup_append.mp hsplit).2.2 x hx x (mem_append_left _ hx') rfl
    rw [coalesceFrom, flatMap_cons]
    split
    · next hext =>
      obtain ⟨hdvd, hid, rfl⟩ := hprev.canExtend hlen hrun hext
      obtain rfl := eq_of_canExtend hk hc hdvd hid hdisj
      refine (ih (Nat.add_pos_left hc k) (hprev.extend hrun (by rw [length_map])) ?_).trans ?_
      · rwa [← append_assoc, range'_append_1] at hsplit
      · rw [← append_assoc]
        exact (runPairs_add _ _ k).append_right _
    · rw [flatMap_cons, hprev.pairs hlen hregions]
      exact (ih hk hrun (nodup_append.mp hsplit).2.1).append_left _

/-- Merging the blocks of a push keeps their byte pairs. -/
theorem coalesceContiguousBlocks_pairs (hlen : 0 < len) (hregions : Uniform len stride regions)
    (hblocks : AreRuns len runs blocks) (hnodup : (runIds runs).Nodup) :
    ((coalesceContiguousBlocks blocks).flatMap (pairs l regions)).Perm
      (runs.flatMap fun run => runPairs l.baseAddr len stride
        (regions.map baseAddr) run.1 run.2.1 run.2.2) := by
  cases hblocks with
  | nil => exact .refl _
  | cons hblock hblocks => exact coalesceFrom_pairs hlen hregions hblock.1 hblock.2 hblocks hnodup

end Runs

/-! ### Accepted pushes -/

variable {first prefill decode : KvCacheLayout} {layout head lp ld : FlashAttnHndLayout}
  {mp md : MlaBlocksLayout} {p d : Tensor} {target : PushTargetPlan} {slice : HeadSlice}
  {regions : List TransferRegionLayout} {blockIds : List ℕ} {reqId : String} {layerIdx r : ℕ}
  {ids : ℕ × ℕ} {blockMap : List (ℕ × ℕ)} {request : ScatterTransferRequest}

theorem transferRegionLayout_ok {baseAddr blockLen : ℕ} {blockStride : Option ℕ}
    {region : TransferRegionLayout}
    (h : transferRegionLayout baseAddr blockLen blockStride = .ok region) :
    region.baseAddr = baseAddr ∧ region.blockLen = blockLen ∧ region.blockStride = blockStride := by
  unfold transferRegionLayout at h
  split at h
  · cases h
    exact ⟨rfl, rfl, rfl⟩
  · cases h

namespace KvCacheLayout

/-- The offsets of a block, without the check of its id. -/
def offsetsAt : KvCacheLayout → ℕ → List ℕ
  | flash layout, blockId => [0, 1].map fun kvIdx =>
      (kvIdx * layout.kvStride + blockId * layout.blockStride) * layout.elementSize
  | mla layout, blockId => [blockId * layout.blockStride * layout.elementSize]

theorem blockOffsets_ok {layout : KvCacheLayout} {blockId : ℕ} {offs : List ℕ}
    (h : layout.blockOffsets blockId = .ok offs) : offs = layout.offsetsAt blockId := by
  cases layout with
  | flash layout =>
    have hat : ∀ kvIdx o, layout.blockOffsetBytes kvIdx blockId = .ok o →
        o = (kvIdx * layout.kvStride + blockId * layout.blockStride) * layout.elementSize := by
      intro kvIdx o ho
      obtain ⟨-, ⟨⟩⟩ := ite_error_ok ho
      rfl
    obtain ⟨⟩ | ⟨hk, ⟨⟩ | ⟨hv, ⟨⟩⟩⟩ := mapM_forall₂ h
    rw [hat 0 _ hk, hat 1 _ hv]
    rfl
  | mla layout =>
    obtain ⟨o, ho, ⟨⟩⟩ := bind_ok h
    obtain ⟨-, ⟨⟩⟩ := ite_error_ok ho
    rfl

theorem remoteLayout_ok {layout : KvCacheLayout} (h : layout.remoteLayout = .ok regions) :
    regions.map TransferRegionLayout.baseAddr =
        (layout.offsetsAt 0).map (layout.baseAddr + ·) ∧
      ∀ region ∈ regions, region.blockLen = layout.blockBytes ∧ region.blockStride = none := by
  obtain ⟨offs, hoffs, h⟩ := bind_ok h
  rw [blockOffsets_ok hoffs] at h
  refine ⟨map_eq_of_mapM h fun o region hok => (transferRegionLayout_ok hok).1, ?_⟩
  intro region hregion
  obtain ⟨o, -, hok⟩ := forall₂_mem_right (mapM_forall₂ h) hregion
  exact (transferRegionLayout_ok hok).2

theorem offsetsAt_ne_nil (layout : KvCacheLayout) (blockId : ℕ) :
    layout.offsetsAt blockId ≠ [] := by
  cases layout <;> exact cons_ne_nil _ _

theorem pos_of_remoteLayout {layout : KvCacheLayout} (h : layout.remoteLayout = .ok regions) :
    0 < layout.numBlocks ∧ 0 < layout.blockBytes := by
  obtain ⟨hbases, hlens⟩ := remoteLayout_ok h
  obtain ⟨region, hregion⟩ := exists_mem_of_ne_nil regions fun hnil => by
    rw [hnil] at hbases
    exact offsetsAt_ne_nil layout 0 (map_eq_nil_iff.mp hbases.symm)
  refine ⟨?_, (hlens region hregion).1 ▸ region.blockLen_pos⟩
  obtain ⟨offs, hoffs, -⟩ := bind_ok h
  cases layout with
  | flash layout =>
    obtain ⟨⟩ | ⟨hk, -⟩ := mapM_forall₂ hoffs
    exact not_le.mp (ite_error_ok hk).1
  | mla layout =>
    obtain ⟨o, ho, -⟩ := bind_ok hoffs
    exact not_le.mp (ite_error_ok ho).1

theorem minAddr_remoteLayout {layout : KvCacheLayout} (h : layout.remoteLayout = .ok regions) :
    minAddr regions = layout.baseAddr := by
  rw [minAddr, (remoteLayout_ok h).1]
  cases layout with
  | flash layout => simp [offsetsAt, baseAddr, min?]
  | mla layout => simp [offsetsAt, baseAddr]

end KvCacheLayout

open KvCacheLayout (flash mla offsetsAt offsetsAt_ne_nil blockOffsets_ok remoteLayout_ok
  pos_of_remoteLayout minAddr_remoteLayout)

section Accepted

variable {len stride : ℕ} {dsts : List ℕ}

theorem registerRegion_ok {e : TransferRegionLayout × ℕ} {region : PdRemoteRegion}
    (h : registerRegion layerIdx e = .ok region) :
    region.baseAddr = e.1.baseAddr ∧ region.blockLen = e.1.blockLen ∧
      region.blockStride = e.1.blockStride.getD e.1.blockLen := by
  simp only [registerRegion] at h
  split at h
  · cases h
  · split at h
    · cases h
    · cases h
      exact ⟨rfl, rfl, rfl⟩

theorem registered_ok {handshake : List TransferRegionLayout} {regions : List PdRemoteRegion}
    (h : handshake.zipIdx.mapM (registerRegion layerIdx) = .ok regions)
    (huniform : ∀ region ∈ handshake,
      region.blockLen = len ∧ region.blockStride.getD region.blockLen = stride) :
    Uniform len stride regions ∧
      regions.map baseAddr = handshake.map TransferRegionLayout.baseAddr := by
  constructor
  · intro region hregion
    obtain ⟨e, he, hok⟩ := forall₂_mem_right (mapM_forall₂ h) hregion
    obtain ⟨-, hlen, hstride⟩ := registerRegion_ok hok
    rw [hlen, hstride]
    exact huniform e.1 (fst_mem_of_mem_zipIdx he)
  · calc regions.map baseAddr
        = handshake.zipIdx.map (TransferRegionLayout.baseAddr ∘ Prod.fst) :=
          map_eq_of_mapM h fun e region hok => (registerRegion_ok hok).1
      _ = handshake.map TransferRegionLayout.baseAddr := by
          rw [← map_map, zipIdx_map_fst]

/-- **An accepted push**: the regions are those of the handshake, and the byte pairs are those
of the merged blocks. -/
theorem pushTarget_ok
    (h : pushTarget first prefill decode target blockIds reqId layerIdx blockMap = .ok request) :
    ∃ remoteRegions handshake regions blocks,
      decode.remoteLayout = .ok remoteRegions ∧
      targetRegions first target remoteRegions = .ok handshake ∧
      handshake.zipIdx.mapM (registerRegion layerIdx) = .ok regions ∧
      targetBlockRangesForRemoteWrite prefill target blockMap = .ok blocks ∧
      request.pairs = (coalesceContiguousBlocks blocks).flatMap (pairs
        { baseAddr := prefill.baseAddr, mrPtr := prefill.baseAddr } regions) := by
  obtain ⟨localRegions, hlocal, h⟩ := bind_ok h
  obtain ⟨remoteRegions, hremote, h⟩ := bind_ok h
  obtain ⟨handshake, hhandshake, h⟩ := bind_ok h
  obtain ⟨regions, hregions, h⟩ := bind_ok h
  obtain ⟨blocks, hblocks, h⟩ := bind_ok h
  rw [minAddr_remoteLayout hlocal] at h
  exact ⟨remoteRegions, handshake, regions, blocks, hremote, hhandshake, hregions, hblocks,
    PdRdmaEngine.pushLayer_pairs rfl rfl h⟩

theorem pushTarget_runs (runs : List (ℕ × ℕ × List ℕ)) {regions : List PdRemoteRegion}
    (hdsts : regions.map baseAddr = dsts) (hne : dsts ≠ []) (huniform : Uniform len stride regions)
    (hpairs : request.pairs = (coalesceContiguousBlocks blocks).flatMap (pairs
        { baseAddr := prefill.baseAddr, mrPtr := prefill.baseAddr } regions))
    (hblocks : AreRuns len runs blocks) (hnodup : (runIds runs).Nodup) :
    request.pairs.Perm (runs.flatMap fun run =>
      runPairs prefill.baseAddr len stride dsts run.1 run.2.1 run.2.2) := by
  subst hdsts
  obtain ⟨region, hregion⟩ :=
    exists_mem_of_ne_nil _ fun hnil => hne (map_eq_nil_iff.mpr hnil)
  have hlen : 0 < len := (huniform region hregion).1 ▸ region.blockLen_pos
  rw [hpairs]
  exact coalesceContiguousBlocks_pairs hlen huniform hblocks hnodup

/-! ### Whole ranks -/

variable {range : ℕ × ℕ × ℕ} {b : LayerBlockSlices}

/-- The blocks of a range, with their remote blocks. -/
def rangeBlocks (range : ℕ × ℕ × ℕ) : List (ℕ × ℕ) :=
  (List.range range.2.2).map fun k => (range.1 + k, range.2.1 + k)

theorem blockRangesFrom_blocks (start : ℕ × ℕ × ℕ) (rest : List (ℕ × ℕ)) :
    (blockRangesFrom start rest).flatMap rangeBlocks = rangeBlocks start ++ rest := by
  induction rest generalizing start with
  | nil => rw [blockRangesFrom, flatMap_singleton, append_nil]
  | cons next rest ih =>
    rw [blockRangesFrom]
    split
    · next hnext =>
      have hlast : next = (start.1 + start.2.2, start.2.1 + start.2.2) := Prod.ext hnext.1 hnext.2
      rw [ih, hlast, rangeBlocks, range_succ, map_append, append_assoc]
      rfl
    · rw [flatMap_cons, ih]
      simp [rangeBlocks]

theorem blockRanges_blocks (blockMap : List (ℕ × ℕ)) :
    (blockRanges blockMap).flatMap rangeBlocks = blockMap := by
  cases blockMap with
  | nil => rfl
  | cons first rest =>
    rw [blockRanges, blockRangesFrom_blocks]
    simp [rangeBlocks]

theorem blockRangesFrom_pos {start : ℕ × ℕ × ℕ} {rest : List (ℕ × ℕ)} (hstart : 0 < start.2.2)
    (h : range ∈ blockRangesFrom start rest) : 0 < range.2.2 := by
  induction rest generalizing start with
  | nil => rwa [mem_singleton.mp h]
  | cons next rest ih =>
    rw [blockRangesFrom] at h
    split at h
    · exact ih (Nat.succ_pos _) h
    · rcases mem_cons.mp h with rfl | h
      · exact hstart
      · exact ih one_pos h

theorem blockRanges_pos (h : range ∈ blockRanges blockMap) : 0 < range.2.2 := by
  cases blockMap with
  | nil => cases h
  | cons first rest => exact blockRangesFrom_pos one_pos h

/-- A run of blocks that lie next to each other, as single blocks. -/
theorem runPairs_blocks {base c l : ℕ} {offs : ℕ → List ℕ}
    (hoffs : ∀ k < c, offs (l + k) = (offs l).map (· + k * len)) :
    (runPairs base len stride dsts r c (offs l)).Perm
      ((rangeBlocks (l, r, c)).flatMap fun ids =>
        runPairs base len stride dsts ids.2 1 (offs ids.1)) := by
  refine (flatMap_flatMap_perm _ _ _).trans (.of_eq ?_)
  rw [rangeBlocks, flatMap_map]
  refine flatMap_congr ?_
  intro k hk
  rw [hoffs k (mem_range.mp hk), runPairs, zip_map_left, flatMap_map]
  refine flatMap_congr ?_
  intro e _
  simp [Nat.add_assoc]

theorem coalescedBlockSlice_ok (h : coalescedBlockSlice prefill range = .ok b) :
    IsRun prefill.blockBytes range.2.1 range.2.2 (prefill.offsetsAt range.1) b := by
  obtain ⟨offs, hoffs, h⟩ := bind_ok h
  rw [mul_comm, blockOffsets_ok hoffs] at h
  exact sliceRegions_ok h

theorem runIds_blockRanges (offs : ℕ → List ℕ) (blockMap : List (ℕ × ℕ)) :
    runIds ((blockRanges blockMap).map fun range => (range.2.1, range.2.2, offs range.1)) =
      blockMap.map Prod.snd := by
  conv_rhs => rw [← blockRanges_blocks blockMap, map_flatMap]
  rw [runIds, flatMap_map]
  refine flatMap_congr ?_
  intro range _
  rw [rangeBlocks, map_map, range'_eq_map_range]
  rfl

/-- The byte pairs of a whole block. -/
def blockPairs (prefill decode : KvCacheLayout) (ids : ℕ × ℕ) : List (ℕ × ℕ) :=
  runPairs prefill.baseAddr prefill.blockBytes prefill.blockBytes
    ((decode.offsetsAt 0).map (decode.baseAddr + ·)) ids.2 1 (prefill.offsetsAt ids.1)

/-- **A push of whole blocks** copies them block by block, if the blocks lie next to each other
and are as long on both sides. -/
theorem pushTarget_whole (hwhole : target.headSlices = [])
    (hbytes : decode.blockBytes = prefill.blockBytes) (hoffs : ∀ l r k, (l + k, r + k) ∈ blockMap →
      prefill.offsetsAt (l + k) = (prefill.offsetsAt l).map (· + k * prefill.blockBytes))
    (hnodup : (blockMap.map Prod.snd).Nodup)
    (h : pushTarget first prefill decode target blockIds reqId layerIdx blockMap = .ok request) :
    request.pairs.Perm (blockMap.flatMap (blockPairs prefill decode)) := by
  obtain ⟨remoteRegions, handshake, regions, blocks, hremote, hhandshake, hregions, hblocks,
    hpairs⟩ := pushTarget_ok h
  obtain rfl : remoteRegions = handshake := by
    unfold targetRegions at hhandshake
    rw [if_pos hwhole] at hhandshake
    exact Except.ok.inj hhandshake
  have hsorted := perm_insertionSort (fun a b : ℕ × ℕ => a.1 ≤ b.1) blockMap
  unfold targetBlockRangesForRemoteWrite at hblocks
  rw [if_pos hwhole] at hblocks
  -- the regions of the handshake
  have hlens : ∀ region ∈ remoteRegions, region.blockLen = prefill.blockBytes ∧
      region.blockStride.getD region.blockLen = prefill.blockBytes := by
    intro region hregion
    obtain ⟨hlen, hstride⟩ := (remoteLayout_ok hremote).2 region hregion
    rw [hlen, hstride]
    exact ⟨hbytes, hbytes⟩
  obtain ⟨huniform, hdsts⟩ := registered_ok hregions hlens
  rw [(remoteLayout_ok hremote).1] at hdsts
  -- the ranges of the map
  have hruns := (forall₂_and_left _ _).mpr ⟨fun range hrange => blockRanges_pos hrange,
    (mapM_forall₂ hblocks).imp fun _ _ => coalescedBlockSlice_ok⟩
  have hperm := pushTarget_runs
    ((blockRanges _).map fun range => (range.2.1, range.2.2, prefill.offsetsAt range.1)) hdsts
    (fun hnil => offsetsAt_ne_nil decode 0 (map_eq_nil_iff.mp hnil)) huniform hpairs
    (forall₂_map_left_iff.mpr hruns) (by
      rw [runIds_blockRanges]
      exact (hsorted.map Prod.snd).nodup_iff.mpr hnodup)
  rw [flatMap_map] at hperm
  have hblock : ∀ range ∈ blockRanges (blockMap.insertionSort fun a b => a.1 ≤ b.1),
      (runPairs prefill.baseAddr prefill.blockBytes prefill.blockBytes
        ((decode.offsetsAt 0).map (decode.baseAddr + ·)) range.2.1 range.2.2
        (prefill.offsetsAt range.1)).Perm
      ((rangeBlocks range).flatMap (blockPairs prefill decode)) := by
    intro range hrange
    refine runPairs_blocks ?_
    intro k hk
    have hmem : (range.1 + k, range.2.1 + k) ∈ blockMap := by
      rw [← hsorted.mem_iff, ← blockRanges_blocks (List.insertionSort _ _)]
      exact mem_flatMap.mpr ⟨range, hrange, mem_map.mpr ⟨k, mem_range.mpr hk, rfl⟩⟩
    exact hoffs _ _ _ hmem
  refine (hperm.trans (List.Perm.flatMap_left _ hblock)).trans ?_
  rw [← flatMap_assoc, blockRanges_blocks]
  exact hsorted.flatMap_right _

/-! ### Slices of heads -/

theorem headSlicedBlock_ok (h : headSlicedBlock layout [slice] ids = .ok b) :
    IsRun ((slice.localEnd - slice.localStart) * layout.headBytes) ids.2 1
      (((flash layout).offsetsAt ids.1).map (· + slice.localStart * layout.headBytes))
      b := by
  obtain ⟨blockSlices, hslices, h⟩ := bind_ok h
  obtain ⟨⟩ | ⟨hslice, ⟨⟩⟩ := mapM_forall₂ hslices
  obtain ⟨-, hslice⟩ := ite_error_ok hslice
  obtain ⟨offs, hoffs, hslice⟩ := bind_ok hslice
  rw [← one_mul ((slice.localEnd - slice.localStart) * layout.headBytes)] at hslice
  obtain ⟨hpos, hregions⟩ := sliceRegions_ok hslice
  have hat : (flash layout).blockOffsets ids.1 = .ok offs := hoffs
  rw [blockOffsets_ok hat] at hregions
  dsimp only at h
  split at h
  · cases h
    refine ⟨hpos, ?_⟩
    dsimp only
    rw [flatMap_singleton, hregions]
    rfl
  · cases h

theorem targetRegions_slice (hslice : target.headSlices = [slice])
    (regions : List TransferRegionLayout) :
    targetRegions (.flash head) target regions =
      regions.mapM (remoteHeadRegion slice head.headBytes) := by
  unfold targetRegions
  rw [hslice]
  rfl

/-- A push that is accepted is of whole blocks or of one slice of heads. -/
theorem headSlices_of_pushTarget
    (h : pushTarget first prefill decode target blockIds reqId layerIdx blockMap = .ok request) :
    target.headSlices = [] ∨ ∃ head layout slice,
      first = .flash head ∧ prefill = .flash layout ∧ target.headSlices = [slice] := by
  obtain ⟨remoteRegions, handshake, -, blocks, -, hhandshake, -, hblocks, -⟩ := pushTarget_ok h
  unfold targetRegions at hhandshake
  split at hhandshake
  · next hwhole => exact .inl hwhole
  · next hne =>
    unfold targetBlockRangesForRemoteWrite at hblocks
    rw [if_neg hne] at hblocks
    split at hhandshake
    · cases hhandshake
    · next head =>
      obtain ⟨slice, hslice, -⟩ := bind_ok hhandshake
      unfold singleRemoteHeadSlice at hslice
      split at hslice
      · cases hslice
      · next slice' hsingle =>
        cases prefill with
        | mla _ => cases hblocks
        | flash layout => exact .inr ⟨head, layout, slice', rfl, rfl, hsingle⟩
      · cases hslice

section

variable (hslice : target.headSlices = [slice])
include hslice

/-- The heads of a block that is pushed exist on the prefill side. -/
theorem localEnd_le_of_pushTarget
    (h : pushTarget first (.flash layout) decode target blockIds reqId layerIdx blockMap =
      .ok request) (hids : ids ∈ blockMap) : slice.localEnd ≤ layout.numKvHeads := by
  obtain ⟨-, -, -, blocks, -, -, -, hblocks, -⟩ := pushTarget_ok h
  unfold targetBlockRangesForRemoteWrite at hblocks
  rw [hslice] at hblocks
  obtain ⟨block, -, hblock⟩ := forall₂_mem_left (mapM_forall₂ hblocks)
    ((perm_insertionSort _ blockMap).mem_iff.mpr hids)
  obtain ⟨blockSlices, hslices, -⟩ := bind_ok hblock
  obtain ⟨_, -, hheads⟩ := forall₂_mem_left (mapM_forall₂ hslices) mem_cons_self
  exact (not_not.mp (ite_error_ok hheads).1).2

/-- The regions a slice of heads is written to. -/
theorem sliceRegions_registered {remoteRegions handshake : List TransferRegionLayout}
    {regions : List PdRemoteRegion} (hremote : decode.remoteLayout = .ok remoteRegions)
    (hhandshake : targetRegions (.flash head) target remoteRegions = .ok handshake)
    (hregions : handshake.zipIdx.mapM (registerRegion layerIdx) = .ok regions) :
    Uniform ((slice.localEnd - slice.localStart) * head.headBytes) decode.blockBytes regions ∧
      regions.map baseAddr =
        (decode.offsetsAt 0).map (decode.baseAddr + · + slice.remoteStart * head.headBytes) := by
  rw [targetRegions_slice hslice] at hhandshake
  obtain ⟨hbases, hremoteLens⟩ := remoteLayout_ok hremote
  have hlens : ∀ region ∈ handshake,
      region.blockLen = (slice.localEnd - slice.localStart) * head.headBytes ∧
        region.blockStride.getD region.blockLen = decode.blockBytes := by
    intro region hregion
    obtain ⟨region', hregion', hok⟩ := forall₂_mem_right (mapM_forall₂ hhandshake) hregion
    obtain ⟨hlen, hstride⟩ := hremoteLens region' hregion'
    obtain ⟨-, hlen', hstride'⟩ := transferRegionLayout_ok hok
    rw [hlen', hstride', hstride, hlen, slice.count_eq]
    exact ⟨rfl, rfl⟩
  obtain ⟨huniform, hdsts⟩ := registered_ok hregions hlens
  have hshifted : handshake.map TransferRegionLayout.baseAddr =
      remoteRegions.map ((· + slice.remoteStart * head.headBytes) ∘
        TransferRegionLayout.baseAddr) :=
    map_eq_of_mapM hhandshake fun _ _ hok => (transferRegionLayout_ok hok).1
  rw [hshifted, ← map_map, hbases, map_map] at hdsts
  exact ⟨huniform, hdsts⟩

/-- **A push of a slice of heads** copies it block by block, if heads are as long as those of the
first layer. -/
theorem pushTarget_slice (hbytes : head.headBytes = layout.headBytes)
    (hnodup : (blockMap.map Prod.snd).Nodup)
    (h : pushTarget (.flash head) (.flash layout) decode target blockIds reqId layerIdx blockMap =
      .ok request) :
    request.pairs.Perm (blockMap.flatMap fun ids =>
      runPairs layout.baseAddr ((slice.localEnd - slice.localStart) * layout.headBytes)
        decode.blockBytes
        ((decode.offsetsAt 0).map (decode.baseAddr + · + slice.remoteStart * layout.headBytes))
        ids.2 1
        (((flash layout).offsetsAt ids.1).map
          (· + slice.localStart * layout.headBytes))) := by
  obtain ⟨remoteRegions, handshake, regions, blocks, hremote, hhandshake, hregions, hblocks,
    hpairs⟩ := pushTarget_ok h
  obtain ⟨huniform, hdsts⟩ := sliceRegions_registered hslice hremote hhandshake hregions
  rw [hbytes] at huniform hdsts
  have hsorted := perm_insertionSort (fun a b : ℕ × ℕ => a.1 ≤ b.1) blockMap
  unfold targetBlockRangesForRemoteWrite at hblocks
  rw [hslice] at hblocks
  -- one run for each block
  have hruns := (mapM_forall₂ hblocks).imp fun _ _ hok =>
    And.intro Nat.one_pos (headSlicedBlock_ok hok)
  have hperm := pushTarget_runs
    (List.map (fun ids : ℕ × ℕ => (ids.2, 1, ((flash layout).offsetsAt ids.1).map
          (· + slice.localStart * layout.headBytes))) _) hdsts
    (fun hnil => offsetsAt_ne_nil decode 0 (map_eq_nil_iff.mp hnil)) huniform hpairs
    (forall₂_map_left_iff.mpr hruns) (by
      rw [runIds, flatMap_map]
      show (List.flatMap (fun ids : ℕ × ℕ => [ids.2]) _).Nodup
      rw [← map_eq_flatMap]
      exact (hsorted.map Prod.snd).nodup_iff.mpr hnodup)
  rw [flatMap_map] at hperm
  exact hperm.trans (hsorted.flatMap_right _)

/-- Longer heads than those of the first layer go into several remote blocks, so they cannot be
pushed to the last block. -/
theorem headBytes_eq_of_pushTarget (hids : ∀ id ∈ blockIds, id ≤ r)
    (h : pushTarget (.flash head) (.flash layout) decode target blockIds reqId layerIdx [(0, r)] =
      .ok request) : head.headBytes = layout.headBytes := by
  obtain ⟨localRegions, -, h⟩ := bind_ok h
  obtain ⟨remoteRegions, hremote, h⟩ := bind_ok h
  obtain ⟨handshake, hhandshake, h⟩ := bind_ok h
  obtain ⟨regions, hregions, h⟩ := bind_ok h
  obtain ⟨blocks, hblocks, h⟩ := bind_ok h
  obtain ⟨_, _, tss, ⟨⟩, ⟨⟩, htss, -⟩ := PdRdmaEngine.pushLayer_ok h
  unfold targetBlockRangesForRemoteWrite at hblocks
  rw [hslice] at hblocks
  obtain ⟨⟩ | ⟨hblock, ⟨⟩⟩ := mapM_forall₂ hblocks
  obtain ⟨hpos, hslices⟩ := headSlicedBlock_ok hblock
  simp only [layerBlocksToNative, coalesceContiguousBlocks, coalesceFrom, map_cons, map_nil,
    flatMap_singleton, hslices, offsetsAt, mapIdx_cons, zipIdx_cons] at htss
  obtain _ | ⟨⟨-, region, hregion, hdvd, hallowed, -⟩, -⟩ := htss
  obtain ⟨huniform, -⟩ := sliceRegions_registered hslice hremote hhandshake hregions
  have hlen := (huniform region (mem_of_getElem? hregion)).1
  have hhead : 0 < head.headBytes := Nat.pos_of_mul_pos_left (hlen ▸ region.blockLen_pos)
  have hcount : 0 < slice.localEnd - slice.localStart := Nat.sub_pos_of_lt slice.local_lt
  dsimp only at hdvd hallowed
  rw [hlen, one_mul] at hdvd hallowed
  -- a head is as long as `c` heads of the first layer
  obtain ⟨c, hc⟩ := Nat.dvd_of_mul_dvd_mul_left hcount hdvd
  rw [Nat.mul_div_mul_left _ _ hcount, hc, Nat.mul_div_cancel_left _ hhead] at hallowed
  rw [hc] at hpos ⊢
  obtain rfl : c = 1 := by
    rcases Nat.lt_or_ge 1 c with hmany | hle
    · have := hids _ (hallowed 1 hmany)
      omega
    · have hne : c ≠ 0 := by
        rintro rfl
        simp at hpos
      omega
  exact (mul_one _).symm

end

end Accepted

/-! ### Elements of a block -/

variable {expectedNumBlocks : Option ℕ} {layerName : String} {tensor : Tensor} {i : ℕ}
  {layerSpec : Option KvCacheSpec} {logicalBlockSize : ℕ}

/-- What `FlashAttnHndLayout.from_tensor` has checked. -/
structure FlashTensor (tensor : Tensor) (layout : FlashAttnHndLayout) : Prop where
  shape : tensor.shape =
    [2, layout.numBlocks, layout.blockSize, layout.numKvHeads, layout.headSize]
  strides : tensor.strides = [layout.kvStride, layout.blockStride, layout.tokenStride,
    layout.headStride, layout.dimStride]
  elementSize : layout.elementSize = tensor.elementSize
  baseAddr : layout.baseAddr = tensor.dataPtr
  token : 1 < layout.blockSize → layout.tokenStride = layout.headSize
  head : 1 < layout.numKvHeads → layout.headStride = layout.blockSize * layout.headSize

/-- What `MlaBlocksLayout.from_tensor` has checked. -/
structure MlaTensor (tensor : Tensor) (layout : MlaBlocksLayout) : Prop where
  shape : tensor.shape = [layout.numBlocks, layout.blockSize, layout.dim]
  strides : tensor.strides = [layout.blockStride, layout.tokenStride, layout.dimStride]
  elementSize : layout.elementSize = tensor.elementSize
  baseAddr : layout.baseAddr = tensor.dataPtr
  blockBytes : layout.blockBytes = layout.blockStride * layout.elementSize
  token : 1 < layout.blockSize → layout.tokenStride = layout.dim
  dim : 1 < layout.dim → layout.dimStride = 1

/-- A stride that is as expected unless there is only one index. -/
theorem mul_stride {n stride expected : ℕ} (h : 1 < n → stride = expected) (hi : i < n) :
    i * stride = i * expected := by
  rcases lt_or_ge 1 n with hn | hn
  · rw [h hn]
  · obtain rfl : i = 0 := by omega
    rw [zero_mul, zero_mul]

/-- The part of an address whose strides are those of K and V or are checked. -/
def FlashAttnHndLayout.checked (layout : FlashAttnHndLayout) (index : List ℕ) : ℕ :=
  layout.baseAddr + (index.getD 0 0 * layout.kvStride + index.getD 2 0 * layout.tokenStride +
    index.getD 3 0 * layout.headStride) * layout.elementSize

theorem FlashTensor.addr_checked (h : FlashTensor p lp) {index : List ℕ}
    (hindex : index.length = 5) :
    p.addr index = lp.checked index +
      (index.getD 1 0 * lp.blockStride + index.getD 4 0 * lp.dimStride) * lp.elementSize := by
  match index, hindex with
  | [kv, block, token, head, i], _ =>
    rw [Tensor.addr, h.strides, FlashAttnHndLayout.checked, h.elementSize, h.baseAddr]
    show _ + (kv * lp.kvStride + (block * lp.blockStride + (token * lp.tokenStride +
        (head * lp.headStride + (i * lp.dimStride + 0))))) * _ =
      _ + (kv * lp.kvStride + token * lp.tokenStride + head * lp.headStride) * _ +
        (block * lp.blockStride + i * lp.dimStride) * _
    ring

theorem FlashTensor.addr (h : FlashTensor p lp) (hdim : 1 < lp.headSize → lp.dimStride = 1)
    {kv block token head : ℕ} (htoken : token < lp.blockSize) (hhead : head < lp.numKvHeads)
    (hi : i < lp.headSize) :
    p.addr [kv, block, token, head, i] =
      lp.baseAddr + (kv * lp.kvStride + block * lp.blockStride) * lp.elementSize +
        head * lp.headBytes + token * (lp.headSize * lp.elementSize) + i * lp.elementSize := by
  rw [h.addr_checked rfl]
  show _ + (kv * _ + token * lp.tokenStride + head * lp.headStride) * _ +
    (block * _ + i * lp.dimStride) * _ = _
  rw [mul_stride h.token htoken, mul_stride h.head hhead, mul_stride hdim hi,
    FlashAttnHndLayout.headBytes]
  ring

/-- **A slice of heads of a block** is the copy of its elements. -/
theorem FlashTensor.copyRun_heads (hp : FlashTensor p lp) (hd : FlashTensor d ld)
    (halike : FlashAlike lp ld) (hpacked : FlashPacked lp ld) {kv l hs rs nh : ℕ}
    (hlocal : hs + nh ≤ lp.numKvHeads) (hremote : rs + nh ≤ ld.numKvHeads) (hr : r < ld.numBlocks) :
    copyRun (lp.baseAddr + ((kv * lp.kvStride + l * lp.blockStride) * lp.elementSize +
        hs * lp.headBytes))
      (ld.baseAddr + (kv * ld.kvStride + 0 * ld.blockStride) * ld.elementSize +
        rs * lp.headBytes + r * ld.blockBytes) (nh * lp.headBytes) =
    (range nh).flatMap fun i => (range lp.blockSize).flatMap fun token =>
      (range lp.headSize).flatMap fun j =>
        copyRun (p.addr [kv, l, token, hs + i, j]) (d.addr [kv, r, token, rs + i, j])
          p.elementSize := by
  have hbytes : lp.headBytes = lp.blockSize * (lp.headSize * lp.elementSize) := mul_assoc _ _ _
  have hbytes' : ld.headBytes = lp.blockSize * (lp.headSize * lp.elementSize) := by
    rw [FlashAttnHndLayout.headBytes, halike.elementSize, halike.blockSize, halike.headSize,
      mul_assoc]
  have hblock : r * ld.blockBytes = r * ld.blockStride * lp.elementSize := by
    rw [mul_stride hpacked.block hr, FlashAttnHndLayout.blockBytes, halike.elementSize, ← mul_assoc]
  rw [hbytes, copyRun_mul₃, hblock]
  refine flatMap_congr fun i hi => flatMap_congr fun token htoken =>
    flatMap_congr fun j hj => ?_
  rw [mem_range] at hi htoken hj
  have hblockSize := halike.blockSize
  have hheadSize := halike.headSize
  rw [hp.addr (fun hlt => (hpacked.dim hlt).1) htoken (by omega) hj,
    hd.addr (fun hlt => (hpacked.dim (by omega)).2) (by omega) (by omega) (by omega), hbytes,
    hbytes', halike.elementSize, hheadSize, ← hp.elementSize]
  congr 1
  · ring
  · ring

theorem MlaTensor.addr (h : MlaTensor p mp) {block token : ℕ} (htoken : token < mp.blockSize)
    (hi : i < mp.dim) :
    p.addr [block, token, i] = mp.baseAddr + block * mp.blockStride * mp.elementSize +
      token * (mp.dim * mp.elementSize) + i * mp.elementSize := by
  have hsum : p.addr [block, token, i] = mp.baseAddr + (block * mp.blockStride +
      (token * mp.tokenStride + (i * mp.dimStride + 0))) * mp.elementSize := by
    rw [Tensor.addr, h.strides, h.elementSize, h.baseAddr]
    rfl
  rw [hsum, mul_stride h.token htoken, mul_stride h.dim hi]
  ring

theorem runPairs_two (base len stride id : ℕ) (src dst : ℕ → ℕ) :
    runPairs base len stride ([0, 1].map dst) id 1 ([0, 1].map src) =
      (range 2).flatMap fun kv => copyRun (base + src kv) (dst kv + id * stride) len := by
  simp [runPairs, range_succ]

/-- The elements of a block with heads. -/
def FlashAttnHndLayout.elementPairs (lp : FlashAttnHndLayout) (p d : Tensor)
    (target : PushTargetPlan) (ids : ℕ × ℕ) : List (ℕ × ℕ) :=
  (range 2).flatMap fun kv => (target.headPairs lp.numKvHeads).flatMap fun heads =>
    (range lp.blockSize).flatMap fun token => (range lp.headSize).flatMap fun j =>
      copyRun (p.addr [kv, ids.1, token, heads.1, j]) (d.addr [kv, ids.2, token, heads.2, j])
        p.elementSize

/-- Blocks of the whole rank, in the form of `runPairs_block`. -/
theorem elementCopy_flash (hp : FlashTensor p lp) :
    elementCopy p d target blockMap = blockMap.flatMap (lp.elementPairs p d target) := by
  rw [elementCopy, hp.shape]
  simp only [mappedEntries, flatMap_assoc, flatMap_map]
  rfl

section Flash

variable (hp : FlashTensor p lp) (hd : FlashTensor d ld) (halike : FlashAlike lp ld)
  (hpacked : FlashPacked lp ld)
include hp hd halike hpacked

/-- The elements of a block, for heads given by their number and the first of them. -/
theorem FlashTensor.runPairs_block {hs rs nh : ℕ} (hlocal : hs + nh ≤ lp.numKvHeads)
    (hremote : rs + nh ≤ ld.numKvHeads) (hids : ids.2 < ld.numBlocks)
    (hheads : target.headPairs lp.numKvHeads = (range nh).map fun i => (hs + i, rs + i)) :
    runPairs lp.baseAddr (nh * lp.headBytes) ld.blockBytes
      (((flash ld).offsetsAt 0).map (ld.baseAddr + · + rs * lp.headBytes)) ids.2 1
      (((flash lp).offsetsAt ids.1).map (· + hs * lp.headBytes)) =
    lp.elementPairs p d target ids := by
  rw [offsetsAt, offsetsAt, map_map, map_map, runPairs_two]
  refine flatMap_congr fun kv _ => ?_
  rw [hheads, flatMap_map]
  exact hp.copyRun_heads hd halike hpacked hlocal hremote hids

variable (hmap : IsBlockMap (.flash lp) (.flash ld) blockMap)
include hmap

theorem pushTarget_flash_whole
    (h : pushTarget first (.flash lp) (.flash ld) target blockIds reqId layerIdx blockMap =
      .ok request) (hheads : ld.numKvHeads = lp.numKvHeads)
    (hblock : 1 < lp.numBlocks → 1 < ld.numBlocks →
      lp.blockStride = lp.blockSize * lp.numKvHeads * lp.headSize)
    (hwhole : target.headSlices = []) :
    request.pairs.Perm (elementCopy p d target blockMap) := by
  have hbytes : lp.blockBytes = lp.numKvHeads * lp.headBytes := by
    rw [FlashAttnHndLayout.blockBytes, FlashAttnHndLayout.headBytes]
    ring
  have hbytes' : (flash ld).blockBytes = (flash lp).blockBytes := by
    show ld.blockBytes = lp.blockBytes
    rw [FlashAttnHndLayout.blockBytes, FlashAttnHndLayout.blockBytes, halike.elementSize,
      halike.blockSize, halike.headSize, hheads]
  have hpairs : target.headPairs lp.numKvHeads =
      (range lp.numKvHeads).map fun i => (0 + i, 0 + i) := by
    rw [PushTargetPlan.headPairs, if_pos hwhole]
    simp only [zero_add]
  refine (pushTarget_whole hwhole hbytes' ?_ hmap.nodup_remote h).trans (.of_eq ?_)
  · intro l r k hmem
    obtain ⟨hl, hr⟩ : l + k < lp.numBlocks ∧ r + k < ld.numBlocks := hmap.lt _ hmem
    rw [offsetsAt, offsetsAt, map_map]
    refine map_congr_left fun kv _ => ?_
    show _ = (kv * lp.kvStride + l * lp.blockStride) * lp.elementSize + k * lp.blockBytes
    rcases Nat.eq_zero_or_pos k with rfl | hk
    · rw [zero_mul, add_zero, add_zero]
    · rw [FlashAttnHndLayout.blockBytes, ← hblock (by omega) (by omega)]
      ring
  · rw [elementCopy_flash hp]
    refine flatMap_congr fun ids hids => ?_
    rw [← hp.runPairs_block hd halike hpacked (le_of_eq (zero_add _))
      (le_of_eq (by rw [zero_add, hheads])) (hmap.lt ids hids).2 hpairs, ← hbytes]
    simp only [zero_mul, add_zero, map_id']
    rw [show ld.blockBytes = lp.blockBytes from hbytes']
    rfl

theorem pushTarget_flash_slice
    (h : pushTarget (.flash head) (.flash lp) (.flash ld) target blockIds reqId layerIdx blockMap =
      .ok request) (hbytes : head.headBytes = lp.headBytes) (hslice : target.headSlices = [slice])
    (hremote : slice.remoteEnd ≤ ld.numKvHeads) :
    request.pairs.Perm (elementCopy p d target blockMap) := by
  have hpairs : target.headPairs lp.numKvHeads =
      (range (slice.localEnd - slice.localStart)).map
        fun i => (slice.localStart + i, slice.remoteStart + i) := by
    rw [PushTargetPlan.headPairs, hslice, flatMap_singleton]
    rfl
  have hlt' := slice.remote_lt
  have hcount := slice.count_eq
  refine (pushTarget_slice hslice hbytes hmap.nodup_remote h).trans (.of_eq ?_)
  rw [elementCopy_flash hp]
  refine flatMap_congr fun ids hids => ?_
  have hlocal := localEnd_le_of_pushTarget hslice h hids
  exact hp.runPairs_block hd halike hpacked (by omega) (by omega) (hmap.lt ids hids).2 hpairs

omit hpacked in
/-- **Packed layers with heads** are pushed right. -/
theorem pushTarget_flash (hpacked : PackedLike first (.flash lp) (.flash ld) target)
    (h : pushTarget first (.flash lp) (.flash ld) target blockIds reqId layerIdx blockMap =
      .ok request) (hheads : target.headSlices = [] → ld.numKvHeads = lp.numKvHeads)
    (hremote : ∀ slice ∈ target.headSlices, slice.remoteEnd ≤ ld.numKvHeads) :
    request.pairs.Perm (elementCopy p d target blockMap) := by
  obtain ⟨hpacked, hblock, hfirst⟩ := hpacked
  obtain hwhole | ⟨head, layout, slice, rfl, ⟨⟩, hslice⟩ := headSlices_of_pushTarget h
  · exact pushTarget_flash_whole hp hd halike hpacked hmap h (hheads hwhole) (hblock hwhole) hwhole
  · exact pushTarget_flash_slice hp hd halike hpacked hmap h
      (hfirst (by rw [hslice]; exact cons_ne_nil _ _) head rfl) hslice
      (hremote slice (hslice ▸ mem_cons_self))

end Flash

/-- A push of blocks without heads copies pages. -/
theorem pushTarget_pages (hp : MlaTensor p mp) (hbytes : md.blockBytes = mp.blockBytes)
    (hwhole : target.headSlices = []) (hnodup : (blockMap.map Prod.snd).Nodup)
    (h : pushTarget first (.mla mp) (.mla md) target blockIds reqId layerIdx blockMap =
      .ok request) :
    request.pairs.Perm (blockMap.flatMap fun ids =>
      copyRun (mp.baseAddr + ids.1 * mp.blockStride * mp.elementSize)
        (md.baseAddr + ids.2 * mp.blockBytes) mp.blockBytes) := by
  have hbytes' : (mla md).blockBytes = (mla mp).blockBytes := hbytes
  refine (pushTarget_whole hwhole hbytes' ?_ hnodup h).trans (.of_eq ?_)
  · intro l r k _
    show [_] = [_]
    show _ = [l * mp.blockStride * mp.elementSize + k * mp.blockBytes]
    rw [hp.blockBytes]
    congr 1
    ring
  · refine flatMap_congr fun ids _ => ?_
    simp [blockPairs, runPairs, offsetsAt, KvCacheLayout.blockBytes,
      KvCacheLayout.baseAddr]

theorem remoteNumKvHeads_flash {fallback : ℕ} (hremote : (flash ld).remoteLayout = .ok regions)
    (hbytes : lp.headBytes = ld.headBytes) :
    remoteNumKvHeads regions (.flash lp) fallback = .ok ld.numKvHeads := by
  obtain ⟨hbases, hlens⟩ := remoteLayout_ok hremote
  cases regions with
  | nil => cases hbases
  | cons region regions =>
    have hlen : region.blockLen = ld.numKvHeads * ld.headBytes := by
      rw [(hlens region mem_cons_self).1, KvCacheLayout.blockBytes, FlashAttnHndLayout.blockBytes,
        FlashAttnHndLayout.headBytes]
      ring
    have hpos := region.blockLen_pos
    rw [hlen] at hpos
    have hhead : 0 < ld.headBytes := Nat.pos_of_mul_pos_left hpos
    rw [remoteNumKvHeads, hlen, hbytes, if_neg (Nat.ne_of_gt hhead), Nat.mul_mod_left,
      if_neg (not_not.mpr rfl), Nat.mul_div_cancel _ hhead,
      max_eq_right (Nat.pos_of_mul_pos_right hpos)]

namespace FlashAttnHndLayout

/-- The layout with the entries of a head, and the blocks, next to each other. -/
def packed (layout : FlashAttnHndLayout) : FlashAttnHndLayout :=
  { layout with
    blockStride := layout.blockSize * layout.numKvHeads * layout.headSize
    dimStride := 1 }

/-- A tensor with that layout. -/
def packTensor (layout : FlashAttnHndLayout) (tensor : Tensor) : Tensor :=
  { tensor with
    strides := [layout.kvStride, layout.packed.blockStride, layout.tokenStride,
      layout.headStride, layout.packed.dimStride] }

theorem blockOffsetBytes_packed (kvIdx : ℕ) :
    layout.packed.blockOffsetBytes kvIdx 0 = layout.blockOffsetBytes kvIdx 0 := by
  simp [blockOffsetBytes, packed]

end FlashAttnHndLayout

theorem FlashTensor.packed (h : FlashTensor p lp) : FlashTensor (lp.packTensor p) lp.packed :=
  ⟨h.shape, rfl, h.elementSize, h.baseAddr, h.token, h.head⟩

/-- **Strides that are not checked are not read** for blocks from the first on. -/
theorem pushTarget_packed
    (hmap : blockMap = [(0, r)] ∨ target.headSlices = [] ∧ blockMap = [(0, 0), (1, 1)]) :
    pushTarget first (.flash lp.packed) (.flash ld.packed) target blockIds reqId layerIdx blockMap =
      pushTarget first (.flash lp) (.flash ld) target blockIds reqId layerIdx blockMap := by
  have hoffsets : ∀ layout : FlashAttnHndLayout, (flash layout.packed).blockOffsets 0 =
      (flash layout).blockOffsets 0 := by
    intro layout
    simp only [KvCacheLayout.blockOffsets, FlashAttnHndLayout.blockOffsetBytes_packed]
  have hregions : ∀ layout : FlashAttnHndLayout, (flash layout.packed).remoteLayout =
      (flash layout).remoteLayout := by
    intro layout
    rw [KvCacheLayout.remoteLayout, hoffsets]
    rfl
  have hrange : ∀ id c, coalescedBlockSlice (.flash lp.packed) (0, id, c) =
      coalescedBlockSlice (.flash lp) (0, id, c) := by
    intro id c
    rw [coalescedBlockSlice, hoffsets]
    rfl
  have hblocks : targetBlockRangesForRemoteWrite (.flash lp.packed) target blockMap =
      targetBlockRangesForRemoteWrite (.flash lp) target blockMap := by
    unfold targetBlockRangesForRemoteWrite
    rcases hmap with rfl | ⟨hwhole, rfl⟩
    · dsimp only
      split
      · show mapM (coalescedBlockSlice _) [(0, r, 1)] = mapM (coalescedBlockSlice _) [(0, r, 1)]
        simp only [mapM_cons, mapM_nil, hrange]
      · show mapM (headSlicedBlock _ _) [(0, r)] = mapM (headSlicedBlock _ _) [(0, r)]
        simp only [mapM_cons, mapM_nil, headSlicedBlock, FlashAttnHndLayout.blockHeadSlices,
          FlashAttnHndLayout.blockOffsetBytes_packed]
        rfl
    · rw [if_pos hwhole, if_pos hwhole]
      show mapM (coalescedBlockSlice _) [(0, 0, 2)] = mapM (coalescedBlockSlice _) [(0, 0, 2)]
      simp only [mapM_cons, mapM_nil, hrange]
  unfold pushTarget
  rw [hregions, hregions, hblocks]

theorem FlashTensor.mem_mappedEntries (h : FlashTensor p lp) {e : List (ℕ × ℕ)} :
    e ∈ mappedEntries p.shape target blockMap ↔ ∃ ids ∈ blockMap, ∃ kv < 2,
      ∃ heads ∈ target.headPairs lp.numKvHeads, ∃ token < lp.blockSize, ∃ j < lp.headSize,
        [(kv, kv), ids, (token, token), heads, (j, j)] = e := by
  rw [h.shape]
  simp only [mappedEntries, mem_flatMap, mem_map, mem_range]

/-- The bytes of entries on one side. -/
def entryBytes (tensor : Tensor) (side : ℕ × ℕ → ℕ) (len : ℕ) (es : List (List (ℕ × ℕ))) :
    List ℕ :=
  es.flatMap fun e => (range len).map (tensor.addr (e.map side) + ·)

theorem map_elementCopy (p d : Tensor) (target : PushTargetPlan) (blockMap : List (ℕ × ℕ)) :
    (elementCopy p d target blockMap).map Prod.fst =
        entryBytes p Prod.fst p.elementSize (mappedEntries p.shape target blockMap) ∧
      (elementCopy p d target blockMap).map Prod.snd =
        entryBytes d Prod.snd p.elementSize (mappedEntries p.shape target blockMap) := by
  simp only [elementCopy, entryBytes, map_flatMap, copyRun, map_map]
  exact ⟨rfl, rfl⟩

section Strides

/-- The sum of the `k`-th indices of entries on one side. -/
def indexSum (side : ℕ × ℕ → ℕ) (k : ℕ) (es : List (List (ℕ × ℕ))) : ℕ :=
  (es.map fun e => (e.map side).getD k 0).sum

variable {side : ℕ × ℕ → ℕ} {k len : ℕ} {e : List (ℕ × ℕ)} {es : List (List (ℕ × ℕ))} {q : Tensor}
  {l : FlashAttnHndLayout}

theorem le_indexSum (side : ℕ × ℕ → ℕ) (k : ℕ) (he : e ∈ es) :
    (e.map side).getD k 0 ≤ indexSum side k es :=
  le_sum_of_mem (mem_map.mpr ⟨e, he, rfl⟩)

theorem indexSum_eq_zero (h : ∀ e ∈ es, (e.map side).getD k 0 = 0) : indexSum side k es = 0 := by
  refine sum_eq_zero fun i hi => ?_
  obtain ⟨e, he, rfl⟩ := mem_map.mp hi
  exact h e he

variable (hp : FlashTensor p lp) (hq : FlashTensor q l) (hsize : 0 < l.elementSize)
  (hlen : 0 < len) (hperm : (entryBytes q side len (mappedEntries p.shape target blockMap)).Perm
    (entryBytes (l.packTensor q) side len (mappedEntries p.shape target blockMap)))
include hp hq hsize hlen hperm

/-- Entries that are, as a whole, where those of a packed tensor are. -/
theorem FlashTensor.sum_strides (hes : es = mappedEntries p.shape target blockMap) :
    indexSum side 1 es * l.blockStride + indexSum side 4 es * l.dimStride =
      indexSum side 1 es * l.packed.blockStride + indexSum side 4 es * 1 := by
  have hsum : ∀ {q : Tensor} {l : FlashAttnHndLayout}, FlashTensor q l →
      (es.map fun e => q.addr (e.map side)).sum = (es.map fun e => l.checked (e.map side)).sum +
        (indexSum side 1 es * l.blockStride + indexSum side 4 es * l.dimStride) *
          l.elementSize := by
    intro q l hq
    have hlength : ∀ e ∈ es, (e.map side).length = 5 := by
      intro e he
      rw [hes] at he
      obtain ⟨ids, -, kv, -, heads, -, token, -, j, -, rfl⟩ := hp.mem_mappedEntries.mp he
      rfl
    rw [map_congr_left fun e he => hq.addr_checked (hlength e he)]
    simp only [sum_map_add, sum_map_mul_right, indexSum]
  rw [← hes] at hperm
  have heq := sum_eq_of_perm_runs hlen hperm
  rw [hsum hq, hsum hq.packed] at heq
  exact Nat.eq_of_mul_eq_mul_right hsize (Nat.add_left_cancel heq)

theorem FlashTensor.dimStride_eq (hzero : ∀ ids ∈ blockMap, side ids = 0)
    (he : e ∈ mappedEntries p.shape target blockMap) (hone : (e.map side).getD 4 0 = 1) :
    l.dimStride = 1 := by
  have hsum := hp.sum_strides hq hsize hlen hperm rfl
  rw [indexSum_eq_zero (by
    intro e he
    obtain ⟨ids, hids, kv, -, heads, -, token, -, j, -, rfl⟩ := hp.mem_mappedEntries.mp he
    exact hzero ids hids), zero_mul, zero_mul, zero_add, zero_add] at hsum
  exact Nat.eq_of_mul_eq_mul_left (hone.ge.trans (le_indexSum side 4 he)) hsum

theorem FlashTensor.blockStride_eq (hside : ∀ i, side (i, i) = i)
    (hdim : 1 < lp.headSize → l.dimStride = 1) (he : e ∈ mappedEntries p.shape target blockMap)
    (hone : (e.map side).getD 1 0 = 1) : l.blockStride = l.packed.blockStride := by
  have hsum := hp.sum_strides hq hsize hlen hperm rfl
  have hfree : ∀ es, es = mappedEntries p.shape target blockMap →
      indexSum side 4 es * l.dimStride = indexSum side 4 es * 1 := by
    rintro _ rfl
    by_cases hlt : 1 < lp.headSize
    · rw [hdim hlt]
    · rw [indexSum_eq_zero, zero_mul, zero_mul]
      intro e he
      obtain ⟨ids, -, kv, -, heads, -, token, -, j, hj, rfl⟩ := hp.mem_mappedEntries.mp he
      exact (hside j).trans (by omega)
  rw [hfree _ rfl] at hsum
  exact Nat.eq_of_mul_eq_mul_left (hone.ge.trans (le_indexSum side 1 he))
    (Nat.add_right_cancel hsum)

end Strides

/-- What accepted pushes say of the sizes. -/
theorem CopiesAll.pos (hall : CopiesAll first prefill decode p d target blockIds reqId layerIdx) :
    (0 < prefill.numBlocks ∧ 0 < prefill.blockBytes) ∧ 0 < decode.numBlocks ∧
      (target.headSlices = [] ∨ ∃ head layout slice,
        first = .flash head ∧ prefill = .flash layout ∧ target.headSlices = [slice]) := by
  obtain ⟨request, hpush, -⟩ := hall [] ⟨nodup_nil, nodup_nil, by simp⟩
  have hslices := headSlices_of_pushTarget hpush
  obtain ⟨localRegions, hlocal, hpush⟩ := bind_ok hpush
  obtain ⟨remoteRegions, hremote, -⟩ := bind_ok hpush
  exact ⟨pos_of_remoteLayout hlocal,
    (pos_of_remoteLayout hremote).1, hslices⟩

/-- **Pages with padding** are pushed with it. -/
theorem CopiesAll.mla (hp : MlaTensor p mp) (hbytes : md.blockBytes = mp.blockBytes)
    (hall : CopiesAll first (.mla mp) (.mla md) p d target blockIds reqId layerIdx) :
    mp.blockStride = mp.blockSize * mp.dim := by
  obtain ⟨⟨hblocks, hpos⟩, hblocks', hwhole | ⟨-, -, -, -, ⟨⟩, -⟩⟩ := hall.pos
  obtain ⟨request, hpush, hperm⟩ := hall [(0, 0)]
    ⟨nodup_singleton _, nodup_singleton _, by simpa using ⟨hblocks, hblocks'⟩⟩
  have hnodup : ([(0, 0)].map Prod.snd : List ℕ).Nodup := nodup_singleton _
  have hlength := ((pushTarget_pages hp hbytes hwhole hnodup hpush).symm.trans hperm).length_eq
  have hpos : 0 < mp.blockBytes := hpos
  rw [hp.blockBytes] at hpos
  rw [elementCopy, hp.shape] at hlength
  simp only [mappedEntries, flatMap_singleton, length_copyRun, length_flatMap, map_const',
    length_map, length_range, sum_replicate_nat, hp.blockBytes, ← hp.elementSize] at hlength
  exact Nat.eq_of_mul_eq_mul_right (Nat.pos_of_mul_pos_left hpos) hlength

section Flash

variable (hp : FlashTensor p lp) (hd : FlashTensor d ld) (halike : FlashAlike lp ld)
  (hheads : target.headSlices = [] → ld.numKvHeads = lp.numKvHeads)
  (hremote : ∀ slice ∈ target.headSlices, slice.remoteEnd ≤ ld.numKvHeads)
  (hall : CopiesAll first (.flash lp) (.flash ld) p d target blockIds reqId layerIdx)
include hp hd halike hheads hremote hall

/-- On each side the entries are, as a whole, where those of packed tensors are. -/
theorem CopiesAll.perm_packed (hfirst : target.headSlices ≠ [] → ∀ layout, first = .flash layout →
      layout.headBytes = lp.headBytes) (hmap : IsBlockMap (.flash lp) (.flash ld) blockMap)
    (hzero : blockMap = [(0, r)] ∨ target.headSlices = [] ∧ blockMap = [(0, 0), (1, 1)]) :
    let es := mappedEntries p.shape target blockMap
    (entryBytes p Prod.fst p.elementSize es).Perm
        (entryBytes (lp.packTensor p) Prod.fst p.elementSize es) ∧
      (entryBytes d Prod.snd p.elementSize es).Perm
        (entryBytes (ld.packTensor d) Prod.snd p.elementSize es) := by
  obtain ⟨request, hpush, hperm⟩ := hall blockMap hmap
  rw [← pushTarget_packed hzero] at hpush
  replace hperm := hperm.symm.trans (pushTarget_flash hp.packed hd.packed
    ⟨halike.elementSize, halike.blockSize, halike.headSize⟩
    ⟨hmap.nodup_local, hmap.nodup_remote, hmap.lt⟩
    ⟨⟨fun _ => ⟨rfl, rfl⟩, fun _ => rfl⟩, fun _ _ _ => rfl, hfirst⟩ hpush hheads hremote)
  have hfst := hperm.map Prod.fst
  have hsnd := hperm.map Prod.snd
  rw [(map_elementCopy ..).1, (map_elementCopy ..).1] at hfst
  rw [(map_elementCopy ..).2, (map_elementCopy ..).2] at hsnd
  exact ⟨hfst, hsnd⟩

/-- **Layers that are not packed** are refused or pushed wrong. -/
theorem CopiesAll.flash (hids : ∀ id ∈ blockIds, id < ld.numBlocks) :
    PackedLike first (.flash lp) (.flash ld) target := by
  obtain ⟨⟨hblocks, hbytes⟩, hblocks', hslices⟩ := hall.pos
  obtain ⟨⟨⟨htokens, hlocal⟩, hentries⟩, hsize⟩ :
      ((0 < lp.blockSize ∧ 0 < lp.numKvHeads) ∧ 0 < lp.headSize) ∧ 0 < lp.elementSize := by
    simpa only [KvCacheLayout.blockBytes, FlashAttnHndLayout.blockBytes, Nat.pos_iff_ne_zero, ne_eq,
      Nat.mul_eq_zero, not_or] using hbytes
  have hsize' : 0 < ld.elementSize := halike.elementSize ▸ hsize
  have hlen : 0 < p.elementSize := hp.elementSize ▸ hsize
  have hsingle : ∀ r < ld.numBlocks, IsBlockMap (.flash lp) (.flash ld) [(0, r)] := fun r hr =>
    ⟨nodup_singleton _, nodup_singleton _, by simpa using ⟨hblocks, hr⟩⟩
  have hfirst : target.headSlices ≠ [] → ∀ layout, first = .flash layout →
      layout.headBytes = lp.headBytes := by
    rintro hne head rfl
    obtain hwhole | ⟨-, -, slice, -, -, hslice⟩ := hslices
    · exact absurd hwhole hne
    · obtain ⟨request, hpush, -⟩ := hall _ (hsingle _ (Nat.sub_one_lt_of_lt hblocks'))
      exact headBytes_eq_of_pushTarget hslice (fun id hid => Nat.le_sub_one_of_lt (hids id hid))
        hpush
  obtain ⟨heads, hmem⟩ : ∃ heads, heads ∈ target.headPairs lp.numKvHeads := by
    unfold PushTargetPlan.headPairs
    obtain hwhole | ⟨-, -, slice, -, -, hslice⟩ := hslices
    · rw [if_pos hwhole]
      exact ⟨(0, 0), mem_map.mpr ⟨0, mem_range.mpr hlocal, rfl⟩⟩
    · rw [hslice, if_neg (cons_ne_nil _ _), flatMap_singleton]
      exact ⟨_, mem_map.mpr ⟨0, mem_range.mpr (Nat.sub_pos_of_lt slice.local_lt), rfl⟩⟩
  have hentry : ∀ {blockMap : List (ℕ × ℕ)} {ids : ℕ × ℕ} {j : ℕ}, ids ∈ blockMap →
      j < lp.headSize →
      [(0, 0), ids, (0, 0), heads, (j, j)] ∈ mappedEntries p.shape target blockMap :=
    fun hids hj => hp.mem_mappedEntries.mpr
      ⟨_, hids, 0, two_pos, heads, hmem, 0, htokens, _, hj, rfl⟩
  -- the first block
  have hdim : 1 < lp.headSize → lp.dimStride = 1 ∧ ld.dimStride = 1 := by
    intro hlt
    obtain ⟨hperm, hperm'⟩ :=
      hall.perm_packed hp hd halike hheads hremote hfirst (hsingle 0 hblocks') (.inl rfl)
    have he := hentry (mem_singleton_self (0, 0)) hlt
    exact ⟨hp.dimStride_eq hp hsize hlen hperm (by simp) he rfl,
      hp.dimStride_eq hd hsize' hlen hperm' (by simp) he rfl⟩
  refine ⟨⟨hdim, fun hlt => ?_⟩, fun hwhole hlt hlt' => ?_, hfirst⟩
  -- the first block, to the second
  · have hperm :=
      (hall.perm_packed hp hd halike hheads hremote hfirst (hsingle 1 hlt) (.inl rfl)).2
    exact hp.blockStride_eq hd hsize' hlen hperm (fun _ => rfl) (fun hlt => (hdim hlt).2)
      (hentry (mem_singleton_self (0, 1)) hentries) rfl
  -- two blocks, as one run
  · have hmap : IsBlockMap (.flash lp) (.flash ld) [(0, 0), (1, 1)] :=
      ⟨by simp, by simp, by simpa using ⟨⟨hblocks, hblocks'⟩, hlt, hlt'⟩⟩
    have hperm := (hall.perm_packed (r := 0) hp hd halike hheads hremote hfirst hmap
      (.inr ⟨hwhole, rfl⟩)).1
    exact hp.blockStride_eq hp hsize hlen hperm (fun _ => rfl) (fun hlt => (hdim hlt).1)
      (hentry (mem_cons_of_mem (0, 0) (mem_singleton_self (1, 1))) hentries) rfl

end Flash

/-- A layer with two blocks of one token, K blocks in front of V blocks. -/
def packedTensor (numKvHeads dataPtr : ℕ) : Tensor where
  shape := [2, 2, 1, numKvHeads, 1]
  strides := [2 * numKvHeads, numKvHeads, 1, 1, 1]
  elementSize := 1
  dataPtr

/-- The layout of one of these tensors. -/
def layoutOf (tensor : Tensor) : FlashAttnHndLayout where
  layerName := "layers.0"
  numBlocks := 2
  blockSize := 1
  numKvHeads := tensor.shape.getD 3 0
  headSize := 1
  kvStride := tensor.strides.getD 0 0
  blockStride := tensor.strides.getD 1 0
  tokenStride := 1
  headStride := 1
  dimStride := 1
  elementSize := 1
  baseAddr := tensor.dataPtr

end PegaFlow
