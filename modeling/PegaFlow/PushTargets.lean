/-
PegaFlow/PushTargets.lean

From block slices to the bytes the NICs write (`pd_connector/rdma.py`, `pd_rdma.rs` and the
scatter writes of the transfer engine).

A layer is pushed as a list of blocks, each with one slice per region of the remote layer (K
and V, or one for MLA).  `_coalesce_contiguous_blocks` merges blocks that continue each other
on both sides, `push_layer` checks each slice against the remote region and turns it into
scatter targets, and every RDMA domain writes its share of every target.
-/
import PegaFlow.ByteRuns
import PegaFlow.Loops

namespace PegaFlow

open List

/-! ### Block slices -/

structure BlockRegionSlice where
  blockId : ℕ
  srcOffsetBytes : ℕ
  bytes : ℕ
  bytes_pos : 0 < bytes
deriving DecidableEq

structure LayerBlockSlices where
  regions : List BlockRegionSlice
  regions_ne : regions ≠ []
deriving DecidableEq

/-- A pair of regions for which the next block continues the previous one. -/
def BlockRegionSlice.canExtend (prev next : BlockRegionSlice) : Bool :=
  prev.bytes % next.bytes = 0 && prev.blockId + prev.bytes / next.bytes = next.blockId &&
    prev.srcOffsetBytes + prev.bytes = next.srcOffsetBytes

/-- `_can_extend_block_range` -/
def LayerBlockSlices.canExtend (prev next : LayerBlockSlices) : Bool :=
  prev.regions.length = next.regions.length &&
    (prev.regions.zip next.regions).all fun e => e.1.canExtend e.2

def BlockRegionSlice.extend (current block : BlockRegionSlice) : BlockRegionSlice :=
  { current with
    bytes := current.bytes + block.bytes
    bytes_pos := Nat.add_pos_left current.bytes_pos _ }

theorem zipWith_ne_nil {α β γ : Type*} {f : α → β → γ} {xs : List α} {ys : List β} (hx : xs ≠ [])
    (hy : ys ≠ []) : zipWith f xs ys ≠ [] := by
  cases xs <;> cases ys <;> simp at *

def LayerBlockSlices.extend (current block : LayerBlockSlices) : LayerBlockSlices where
  regions := zipWith BlockRegionSlice.extend current.regions block.regions
  regions_ne := zipWith_ne_nil current.regions_ne block.regions_ne

/-- The loop of `_coalesce_contiguous_blocks`. -/
def coalesceFrom (current : LayerBlockSlices) : List LayerBlockSlices → List LayerBlockSlices
  | [] => [current]
  | block :: blocks =>
      if current.canExtend block then coalesceFrom (current.extend block) blocks
      else current :: coalesceFrom block blocks

def coalesceContiguousBlocks : List LayerBlockSlices → List LayerBlockSlices
  | [] => []
  | block :: blocks => coalesceFrom block blocks

/-- A slice as `push_layer` gets it. -/
structure NativeRegion where
  regionIdx : ℕ
  blockId : ℕ
  srcOffsetBytes : ℕ
  bytes : ℕ
deriving DecidableEq, Repr

/-- `_layer_blocks_to_native` -/
def layerBlocksToNative (blocks : List LayerBlockSlices) : List (List NativeRegion) :=
  (coalesceContiguousBlocks blocks).map fun block =>
    block.regions.mapIdx fun regionIdx region =>
      { regionIdx, blockId := region.blockId, srcOffsetBytes := region.srcOffsetBytes
        bytes := region.bytes }

/-! ### Scatter targets -/

structure PdLocalLayer where
  baseAddr : ℕ
  mrPtr : ℕ
deriving DecidableEq, Repr

/-- A region of a remote layer, as the handshake was validated. -/
structure PdRemoteRegion where
  baseAddr : ℕ
  blockLen : ℕ
  blockStride : ℕ
  blockLen_pos : 0 < blockLen
  blockLen_le : blockLen ≤ blockStride
deriving DecidableEq

structure PdRemoteLayer where
  mrPtr : ℕ
  allowedBlockIds : List ℕ
  regions : List PdRemoteRegion
deriving DecidableEq

structure ScatterTarget where
  dstMrPtr : ℕ
  length : ℕ
  srcOffset : ℕ
  dstOffset : ℕ
deriving DecidableEq, Repr

/-- Arithmetic on `u64` that fails with `message`. -/
def checkedU64 (n : ℕ) (message : String) : Except String ℕ :=
  if n < 2 ^ 64 then .ok n else .error message

variable (l : PdLocalLayer) (r : PdRemoteLayer) {request : ScatterTransferRequest}
  {engine : PdRdmaEngine} {reqId : String} {layerIdx : ℕ}

def makeScatterTarget (blockId srcOffset bytes : ℕ)
    (region : PdRemoteRegion) : Except String ScatterTarget := do
  let offset ← checkedU64 (blockId * region.blockStride) "remote block address overflow"
  let remoteAddr ← checkedU64 (region.baseAddr + offset) "remote block address overflow"
  if remoteAddr < r.mrPtr then .error "remote block address is below MR base"
  else
    let srcAbsolute ← checkedU64 (l.baseAddr + srcOffset) "source offset overflow"
    if srcAbsolute < l.mrPtr then .error "source block address is below local MR base"
    else
      .ok
        { dstMrPtr := r.mrPtr
          length := bytes
          srcOffset := srcAbsolute - l.mrPtr
          dstOffset := remoteAddr - r.mrPtr }

/-- The check of one remote block id. -/
def checkRemoteBlock (blockId offset : ℕ) : Except String Unit := do
  let remoteBlockId ← checkedU64 (blockId + offset) "remote block id overflow"
  if remoteBlockId ∈ r.allowedBlockIds then return ()
  else .error s!"remote block {remoteBlockId} is not registered"

/-- The target of one block of a slice whose remote region is not packed. -/
def blockTarget (block : NativeRegion)
    (region : PdRemoteRegion) (offset : ℕ) : Except String ScatterTarget := do
  let remoteBlockId ← checkedU64 (block.blockId + offset) "remote block id overflow"
  let delta ← checkedU64 (offset * region.blockLen) "source offset overflow"
  let sourceOffset ← checkedU64 (block.srcOffsetBytes + delta) "source offset overflow"
  makeScatterTarget l r remoteBlockId sourceOffset region.blockLen region

def blockSliceToScatterTargets (block : NativeRegion)
    (regionIdx : ℕ) : Except String (List ScatterTarget) :=
  if block.bytes = 0 then .error "block slice bytes must be positive"
  else
    match r.regions[regionIdx]? with
    | none => .error s!"remote region {regionIdx} is not registered"
    | some region =>
        if block.bytes % region.blockLen ≠ 0 then
          .error (s!"block slice bytes {block.bytes} must be a positive multiple of remote " ++
            s!"region block_len {region.blockLen}")
        else do
          let blockCount := block.bytes / region.blockLen
          let _ ← (range blockCount).mapM (checkRemoteBlock r block.blockId)
          if blockCount = 1 ∨ region.blockStride = region.blockLen then
            let target ← makeScatterTarget l r block.blockId block.srcOffsetBytes block.bytes region
            return [target]
          else (range blockCount).mapM (blockTarget l r block region)

/-- What goes to the transfer engine.  Without targets nothing is submitted. -/
structure ScatterTransferRequest where
  srcMrPtr : ℕ
  dsts : List ScatterTarget
deriving DecidableEq, Repr

/-- The tables of the engine that `push_layer` reads. -/
structure PdRdmaEngine where
  localLayers : ℕ → Option PdLocalLayer
  remoteRequests : String → Option (ℕ → Option PdRemoteLayer)

/-- One slice: its targets are added to those of the layer, and their bytes to the sum. -/
def pushRegion (overflow : String) (acc : ℕ × List ScatterTarget) (e : NativeRegion × ℕ) :
    Except String (ℕ × List ScatterTarget) :=
  if e.1.regionIdx ≠ e.2 then .error "block regions must be ordered by region_idx"
  else do
    let targets ← blockSliceToScatterTargets l r e.1 e.2
    let dstBytes ← targets.foldlM (fun n t => checkedU64 (n + t.length) overflow) acc.1
    return (dstBytes, acc.2 ++ targets)

/-- `push_layer`, up to the request it submits. -/
def PdRdmaEngine.pushLayer (engine : PdRdmaEngine) (reqId : String) (layerIdx : ℕ)
    (blocks : List (List NativeRegion)) : Except String ScatterTransferRequest :=
  match engine.localLayers layerIdx with
  | none => .error s!"local layer {layerIdx} is not registered"
  | some l =>
      match (engine.remoteRequests reqId).bind (· layerIdx) with
      | none => .error s!"remote layer {layerIdx} for req {reqId} is not registered"
      | some r => do
          let overflow := s!"RDMA scatter byte count overflow for req={reqId} layer={layerIdx}"
          let acc ← (blocks.flatMap (·.zipIdx)).foldlM (pushRegion l r overflow) (0, [])
          return { srcMrPtr := l.mrPtr, dsts := acc.2 }

/-! ### Scatter writes -/

/-- The byte pairs a target describes, for a source registered at `srcPtr`. -/
def ScatterTarget.pairs (srcPtr : ℕ) (t : ScatterTarget) : List (ℕ × ℕ) :=
  copyRun (srcPtr + t.srcOffset) (t.dstMrPtr + t.dstOffset) t.length

/-- A work request for an RDMA WRITE. -/
structure WriteWr where
  addr : ℕ
  length : ℕ
  remoteAddr : ℕ
deriving DecidableEq, Repr

def WriteWr.pairs (wr : WriteWr) : List (ℕ × ℕ) := copyRun wr.addr wr.remoteAddr wr.length

/-- `ScatterWriteOpIter::fill_wr`.  `byte_shards`, `byte_shard_idx` and what is computed from
them have 32 bits. -/
def fillWr (srcPtr byteShards byteShardIdx : ℕ) (t : ScatterTarget) : WriteWr :=
  let len := t.length % 2 ^ 32 / byteShards
  let offset := len * byteShardIdx % 2 ^ 32
  { addr := srcPtr + t.srcOffset + offset
    length := len
    remoteAddr := t.dstMrPtr + t.dstOffset + offset }

namespace ScatterTransferRequest

/-- What the domains write for `AllDomainsShardBytes`. -/
def writes (request : ScatterTransferRequest) (numDomains : ℕ) : List WriteWr :=
  (range numDomains).flatMap fun domainIdx =>
    request.dsts.map (fillWr request.srcMrPtr (numDomains % 2 ^ 32) (domainIdx % 2 ^ 32))

/-- The byte pairs the targets describe. -/
def pairs (request : ScatterTransferRequest) : List (ℕ × ℕ) :=
  request.dsts.flatMap (ScatterTarget.pairs request.srcMrPtr)

end ScatterTransferRequest

/-- The length of the targets of a slice: the slice itself if the remote region is packed, a
block otherwise. -/
def NativeRegion.targetLength (block : NativeRegion) (region : PdRemoteRegion) : ℕ :=
  if region.blockStride = region.blockLen then block.bytes else region.blockLen

/-- **Slices are shared out evenly**: the lengths that come of the slices are multiples of the
number of domains and have 32 bits. -/
def PdRdmaEngine.EvenlySharded (engine : PdRdmaEngine) (numDomains : ℕ) (reqId : String)
    (layerIdx : ℕ) (blocks : List (List NativeRegion)) : Prop :=
  ∀ r, (engine.remoteRequests reqId).bind (· layerIdx) = some r →
    ∀ regions ∈ blocks, ∀ block ∈ regions, ∀ region ∈ r.regions[block.regionIdx]?,
      block.targetLength region < 2 ^ 32 ∧ numDomains ∣ block.targetLength region

/-! ### Targets of an accepted push -/

section Accepted

variable {l : PdLocalLayer} {r : PdRemoteLayer} {block : NativeRegion} {region : PdRemoteRegion}
  {regionIdx : ℕ} {targets : List ScatterTarget}

variable {k : ℕ} {t : ScatterTarget}

theorem checkedU64_ok {n : ℕ} {message : String} (h : checkedU64 n message = .ok k) : k = n := by
  unfold checkedU64 at h
  split at h
  · cases h; rfl
  · cases h

/-- A target describes the copy of `bytes` bytes to the start of the remote block. -/
theorem makeScatterTarget_ok {blockId srcOffset bytes : ℕ}
    (h : makeScatterTarget l r blockId srcOffset bytes region = .ok t) :
    t.length = bytes ∧ t.pairs l.mrPtr =
      copyRun (l.baseAddr + srcOffset) (region.baseAddr + blockId * region.blockStride) bytes := by
  obtain ⟨offset, hoffset, h⟩ := bind_ok h
  obtain ⟨remoteAddr, hremote, h⟩ := bind_ok h
  rw [checkedU64_ok hoffset] at hremote
  obtain ⟨hdst, h⟩ := ite_error_ok h
  obtain ⟨src, hsrc, h⟩ := bind_ok h
  obtain ⟨hle, ⟨⟩⟩ := ite_error_ok h
  rw [checkedU64_ok hremote, checkedU64_ok hsrc] at *
  refine ⟨rfl, ?_⟩
  show copyRun (l.mrPtr + (l.baseAddr + srcOffset - l.mrPtr))
    (r.mrPtr + (region.baseAddr + blockId * region.blockStride - r.mrPtr)) bytes = _
  rw [Nat.add_sub_cancel' (by omega), Nat.add_sub_cancel' (by omega)]

theorem blockTarget_ok (h : blockTarget l r block region k = .ok t) :
    t.length = region.blockLen ∧ t.pairs l.mrPtr =
      copyRun (l.baseAddr + block.srcOffsetBytes + k * region.blockLen)
        (region.baseAddr + (block.blockId + k) * region.blockStride) region.blockLen := by
  obtain ⟨id, hid, h⟩ := bind_ok h
  obtain ⟨delta, hdelta, h⟩ := bind_ok h
  obtain ⟨src, hsrc, h⟩ := bind_ok h
  have hpairs := makeScatterTarget_ok h
  rwa [checkedU64_ok hid, checkedU64_ok hsrc, checkedU64_ok hdelta, ← add_assoc] at hpairs

/-- The byte pairs of a slice: its blocks, one after the other in the source, go to consecutive
blocks of the region. -/
def slicePairs (l : PdLocalLayer) (block : NativeRegion) (region : PdRemoteRegion) :
    List (ℕ × ℕ) :=
  (range (block.bytes / region.blockLen)).flatMap fun k =>
    copyRun (l.baseAddr + block.srcOffsetBytes + k * region.blockLen)
      (region.baseAddr + (block.blockId + k) * region.blockStride) region.blockLen

/-- The targets of an accepted slice describe its byte pairs and are all of one length. -/
structure SliceTargets (l : PdLocalLayer) (r : PdRemoteLayer) (block : NativeRegion)
    (region : PdRemoteRegion) (targets : List ScatterTarget) : Prop where
  dvd : region.blockLen ∣ block.bytes
  allowed : ∀ k < block.bytes / region.blockLen, block.blockId + k ∈ r.allowedBlockIds
  ne : targets ≠ []
  length : ∀ t ∈ targets, t.length = block.targetLength region
  pairs : targets.flatMap (ScatterTarget.pairs l.mrPtr) = slicePairs l block region

theorem checkRemoteBlock_ok {u : Unit} (h : checkRemoteBlock r block.blockId k = .ok u) :
    block.blockId + k ∈ r.allowedBlockIds := by
  obtain ⟨id, hid, h⟩ := bind_ok h
  rw [checkedU64_ok hid] at h
  split at h
  · next hmem => exact hmem
  · cases h

theorem slicePairs_eq_copyRun (hdvd : region.blockLen ∣ block.bytes)
    (h : block.bytes / region.blockLen = 1 ∨ region.blockStride = region.blockLen) :
    slicePairs l block region = copyRun (l.baseAddr + block.srcOffsetBytes)
      (region.baseAddr + block.blockId * region.blockStride) block.bytes := by
  have hbytes : block.bytes / region.blockLen * region.blockLen = block.bytes :=
    Nat.div_mul_cancel hdvd
  unfold slicePairs
  rcases h with hone | hpacked
  · rw [hone, Nat.one_mul] at hbytes
    rw [hone, range_one, flatMap_singleton, hbytes, Nat.zero_mul, Nat.add_zero,
      Nat.add_zero]
  · conv_rhs => rw [← hbytes, copyRun_mul]
    rw [hpacked]
    simp only [Nat.add_mul, Nat.add_assoc]

theorem blockSliceToScatterTargets_ok
    (h : blockSliceToScatterTargets l r block regionIdx = .ok targets) :
    ∃ region, r.regions[regionIdx]? = some region ∧ SliceTargets l r block region targets := by
  obtain ⟨hbytes, h⟩ := ite_error_ok h
  split at h
  · cases h
  · next region hregion =>
    obtain ⟨hmod, h⟩ := ite_error_ok h
    obtain ⟨us, hus, h⟩ := bind_ok h
    have hdvd : region.blockLen ∣ block.bytes := Nat.dvd_of_mod_eq_zero (not_not.mp hmod)
    have hcount : 0 < block.bytes / region.blockLen :=
      Nat.div_pos (Nat.le_of_dvd (Nat.pos_of_ne_zero hbytes) hdvd) region.blockLen_pos
    have hallowed : ∀ k < block.bytes / region.blockLen,
        block.blockId + k ∈ r.allowedBlockIds := by
      intro k hk
      obtain ⟨u, -, hu⟩ := forall₂_mem_left (mapM_forall₂ hus) (mem_range.mpr hk)
      exact checkRemoteBlock_ok hu
    refine ⟨region, hregion, ?_⟩
    split at h
    · next hone =>
      obtain ⟨t, ht, h⟩ := bind_ok h
      cases h
      obtain ⟨hlen, hpairs⟩ := makeScatterTarget_ok ht
      refine ⟨hdvd, hallowed, cons_ne_nil _ _, ?_, ?_⟩
      · intro t' ht'
        rw [mem_singleton.mp ht', hlen, NativeRegion.targetLength]
        split
        · rfl
        · next hstride =>
          calc block.bytes = block.bytes / region.blockLen * region.blockLen :=
                (Nat.div_mul_cancel hdvd).symm
            _ = region.blockLen := by rw [hone.resolve_right hstride, one_mul]
      · rw [flatMap_singleton, hpairs, slicePairs_eq_copyRun hdvd hone]
    · next hmany =>
      rw [not_or] at hmany
      have hall := mapM_forall₂ h
      refine ⟨hdvd, hallowed, ?_, ?_, ?_⟩
      · rintro rfl
        have := hall.length_eq
        rw [length_range, length_nil] at this
        omega
      · intro t ht
        obtain ⟨k, -, hk⟩ := forall₂_mem_right hall ht
        rw [(blockTarget_ok hk).1, NativeRegion.targetLength, if_neg hmany.2]
      · exact flatMap_eq_of_forall₂ hall fun k t hk => (blockTarget_ok hk).2

theorem foldlM_pushRegion_ok {overflow : String} {es : List (NativeRegion × ℕ)}
    {acc acc' : ℕ × List ScatterTarget} (h : es.foldlM (pushRegion l r overflow) acc = .ok acc') :
    ∃ tss, Forall₂ (fun e ts => e.1.regionIdx = e.2 ∧
      blockSliceToScatterTargets l r e.1 e.2 = .ok ts) es tss ∧ acc'.2 = acc.2 ++ tss.flatten := by
  induction es generalizing acc with
  | nil =>
    cases h
    exact ⟨[], .nil, (append_nil _).symm⟩
  | cons e es ih =>
    obtain ⟨acc₁, hacc₁, h⟩ := bind_ok h
    obtain ⟨tss, htss, hacc'⟩ := ih h
    obtain ⟨hidx, hacc₁⟩ := ite_error_ok hacc₁
    obtain ⟨ts, hts, hacc₁⟩ := bind_ok hacc₁
    obtain ⟨n, -, ⟨⟩⟩ := bind_ok hacc₁
    refine ⟨ts :: tss, .cons ⟨not_not.mp hidx, hts⟩ htss, ?_⟩
    rw [hacc', flatten_cons, append_assoc]

end Accepted

/-- **An accepted push**: both layers are registered, and the targets are those of the slices
in order. -/
theorem PdRdmaEngine.pushLayer_ok {blocks : List (List NativeRegion)}
    (h : engine.pushLayer reqId layerIdx blocks = .ok request) :
    ∃ l r tss, engine.localLayers layerIdx = some l ∧
      (engine.remoteRequests reqId).bind (· layerIdx) = some r ∧
      Forall₂ (fun e ts => e.1.regionIdx = e.2 ∧ ∃ region,
        r.regions[e.2]? = some region ∧ SliceTargets l r e.1 region ts)
        (blocks.flatMap (·.zipIdx)) tss ∧
      request = { srcMrPtr := l.mrPtr, dsts := tss.flatten } := by
  unfold pushLayer at h
  split at h
  · cases h
  · next l hl =>
    split at h
    · cases h
    · next r hr =>
      obtain ⟨acc, hacc, h⟩ := bind_ok h
      cases h
      obtain ⟨tss, htss, hdsts⟩ := foldlM_pushRegion_ok hacc
      refine ⟨l, r, tss, hl, hr, htss.imp ?_, by rw [hdsts]; rfl⟩
      rintro e ts ⟨hidx, hts⟩
      exact ⟨hidx, blockSliceToScatterTargets_ok hts⟩

theorem zipIdx_mapIdx {α β : Type*} (f : ℕ → α → β) (xs : List α) :
    (xs.mapIdx f).zipIdx = xs.zipIdx.map fun e => (f e.2 e.1, e.2) := by
  apply ext_getElem?
  intro i
  simp [Function.comp_def]

/-- The byte pairs of a merged block: the slices of its regions, one after the other. -/
def LayerBlockSlices.pairs (regions : List PdRemoteRegion)
    (block : LayerBlockSlices) : List (ℕ × ℕ) :=
  block.regions.zipIdx.flatMap fun e => regions[e.2]?.elim [] (slicePairs l
    { regionIdx := e.2, blockId := e.1.blockId, srcOffsetBytes := e.1.srcOffsetBytes
      bytes := e.1.bytes })

/-- An accepted push describes the byte pairs of the merged blocks. -/
theorem PdRdmaEngine.pushLayer_pairs {blocks : List LayerBlockSlices} {l : PdLocalLayer}
    {r : PdRemoteLayer} (hl : engine.localLayers layerIdx = some l)
    (hr : (engine.remoteRequests reqId).bind (· layerIdx) = some r)
    (h : engine.pushLayer reqId layerIdx (layerBlocksToNative blocks) = .ok request) :
    request.pairs =
      (coalesceContiguousBlocks blocks).flatMap (LayerBlockSlices.pairs l r.regions) := by
  obtain ⟨l', r', tss, hl', hr', htss, rfl⟩ := pushLayer_ok h
  cases hl.symm.trans hl'
  cases hr.symm.trans hr'
  show tss.flatten.flatMap (ScatterTarget.pairs l.mrPtr) = _
  have hslices : tss.flatMap (flatMap (ScatterTarget.pairs l.mrPtr)) =
      ((layerBlocksToNative blocks).flatMap (·.zipIdx)).flatMap fun e =>
        r.regions[e.2]?.elim [] (slicePairs l e.1) := by
    refine flatMap_eq_of_forall₂ htss ?_
    rintro e ts ⟨-, region, hregion, hslice⟩
    rw [hregion, Option.elim_some, hslice.pairs]
  rw [← flatMap_id, flatMap_assoc]
  refine hslices.trans ?_
  rw [flatMap_assoc, layerBlocksToNative, flatMap_map]
  refine flatMap_congr ?_
  intro block _
  rw [zipIdx_mapIdx, flatMap_map]
  rfl

/-! ### Shares of the domains -/

variable {numDomains : ℕ}

/-- The shares of a target are its first bytes, as many as the domains can share. -/
theorem flatMap_fillWr_pairs (srcPtr : ℕ) (hlt : numDomains < 2 ^ 32) (t : ScatterTarget) :
    (range numDomains).flatMap (fun d =>
      (fillWr srcPtr (numDomains % 2 ^ 32) (d % 2 ^ 32) t).pairs) =
      copyRun (srcPtr + t.srcOffset) (t.dstMrPtr + t.dstOffset)
        (numDomains * (t.length % 2 ^ 32 / numDomains)) := by
  rw [copyRun_mul]
  refine flatMap_congr ?_
  intro d hd
  have hd : d < numDomains := mem_range.mp hd
  have hshare : t.length % 2 ^ 32 / numDomains * d < 2 ^ 32 := by
    calc t.length % 2 ^ 32 / numDomains * d
        ≤ t.length % 2 ^ 32 / numDomains * numDomains := Nat.mul_le_mul_left _ hd.le
      _ ≤ t.length % 2 ^ 32 := Nat.div_mul_le_self _ _
      _ < 2 ^ 32 := Nat.mod_lt _ (by decide)
  rw [Nat.mod_eq_of_lt hlt, Nat.mod_eq_of_lt (lt_trans hd hlt)]
  simp only [fillWr, WriteWr.pairs, Nat.mod_eq_of_lt hshare, mul_comm d]

/-- The shares make up a length exactly if it has 32 bits and can be shared evenly. -/
theorem mul_share_eq_iff {length : ℕ} :
    numDomains * (length % 2 ^ 32 / numDomains) = length ↔
      length < 2 ^ 32 ∧ numDomains ∣ length := by
  constructor
  · intro h
    have hle : length ≤ length % 2 ^ 32 := by
      conv_lhs => rw [← h]
      exact Nat.mul_div_le _ _
    have hlt : length < 2 ^ 32 := lt_of_le_of_lt hle (Nat.mod_lt _ (by decide))
    exact ⟨hlt, Dvd.intro _ h⟩
  · rintro ⟨hlt, hdvd⟩
    rw [Nat.mod_eq_of_lt hlt, Nat.mul_div_cancel' hdvd]

theorem writes_pairs_perm (request : ScatterTransferRequest) (hlt : numDomains < 2 ^ 32) :
    ((request.writes numDomains).flatMap WriteWr.pairs).Perm
      (request.dsts.flatMap fun t =>
        copyRun (request.srcMrPtr + t.srcOffset) (t.dstMrPtr + t.dstOffset)
          (numDomains * (t.length % 2 ^ 32 / numDomains))) := by
  unfold ScatterTransferRequest.writes
  rw [flatMap_assoc]
  simp only [flatMap_map]
  refine (flatMap_flatMap_perm _ _ _).trans ?_
  simp only [flatMap_fillWr_pairs request.srcMrPtr hlt]
  exact .refl _

/-- All bytes of all targets are written exactly if each target can be shared evenly. -/
theorem writes_pairs_perm_iff (request : ScatterTransferRequest) (hlt : numDomains < 2 ^ 32) :
    ((request.writes numDomains).flatMap WriteWr.pairs).Perm request.pairs ↔
      ∀ t ∈ request.dsts, t.length < 2 ^ 32 ∧ numDomains ∣ t.length := by
  have hperm := writes_pairs_perm request hlt
  constructor
  · intro h t ht
    have hlength := (hperm.symm.trans h).length_eq
    have heach := length_eq_of_flatMap (fun t _ => ?_) hlength t ht
    · rw [ScatterTarget.pairs, length_copyRun, length_copyRun] at heach
      exact mul_share_eq_iff.mp heach
    · rw [ScatterTarget.pairs, length_copyRun, length_copyRun]
      exact (Nat.mul_div_le _ _).trans (Nat.mod_le _ _)
  · intro h
    refine hperm.trans (.of_eq (flatMap_congr ?_))
    intro t ht
    rw [mul_share_eq_iff.mpr (h t ht), ScatterTarget.pairs]

/-- **Pushes move all their bytes exactly if they are shared out evenly.**  For every accepted
push, the domains together write the byte pairs of the targets, each as often as described, if
and only if the lengths of the targets are multiples of the number of domains and have 32
bits. -/
theorem pairs_scatterWrites_iff (engine : PdRdmaEngine) (reqId : String) (layerIdx : ℕ)
    (blocks : List (List NativeRegion)) (request : ScatterTransferRequest) (numDomains : ℕ)
    (hlt : numDomains < 2 ^ 32) (h : engine.pushLayer reqId layerIdx blocks = .ok request) :
    ((request.writes numDomains).flatMap WriteWr.pairs).Perm request.pairs ↔
      engine.EvenlySharded numDomains reqId layerIdx blocks := by
  obtain ⟨l, r, tss, -, hr, htss, rfl⟩ := PdRdmaEngine.pushLayer_ok h
  rw [writes_pairs_perm_iff _ hlt]
  constructor
  · intro hall r' hr' regions hregions block hblock region hregion
    cases hr.symm.trans hr'
    obtain ⟨i, hi⟩ := mem_iff_getElem?.mp hblock
    have hmem : (block, i) ∈ blocks.flatMap (·.zipIdx) :=
      mem_flatMap.mpr ⟨regions, hregions, mk_mem_zipIdx_iff_getElem?.mpr hi⟩
    obtain ⟨ts, hts, hidx, region', hregion', hslice⟩ := forall₂_mem_left htss hmem
    obtain ⟨t, ht⟩ := exists_mem_of_ne_nil ts hslice.ne
    have heq : region' = region := by
      rw [show i = block.regionIdx from hidx.symm] at hregion'
      exact Option.some.inj (hregion'.symm.trans hregion)
    rw [← heq, ← hslice.length t ht]
    exact hall t (mem_flatten_of_mem hts ht)
  · intro heven t ht
    obtain ⟨ts, hts, ht⟩ := mem_flatten.mp ht
    obtain ⟨⟨block, i⟩, hmem, hidx, region, hregion, hslice⟩ := forall₂_mem_right htss hts
    obtain ⟨regions, hregions, hblock⟩ := mem_flatMap.mp hmem
    have hmem' : block ∈ regions :=
      mem_iff_getElem?.mpr ⟨i, mk_mem_zipIdx_iff_getElem?.mp hblock⟩
    rw [hslice.length t ht]
    exact heven r hr regions hregions block hmem' region (hidx ▸ hregion)

/-- An engine with one layer on each side and a packed remote region. -/
def onePackedRegion (blockLen : ℕ) (hpos : 0 < blockLen) : PdRdmaEngine where
  localLayers _ := some { baseAddr := 100, mrPtr := 100 }
  remoteRequests _ := some fun _ => some
    { mrPtr := 200
      allowedBlockIds := [0, 1]
      regions := [⟨200, blockLen, blockLen, hpos, le_refl _⟩] }

/-- Blocks 0 and 1, next to each other on both sides. -/
def twoBlocks (blockLen : ℕ) (hpos : 0 < blockLen) : List LayerBlockSlices :=
  [⟨[⟨0, 0, blockLen, hpos⟩], cons_ne_nil _ _⟩,
    ⟨[⟨1, blockLen, blockLen, hpos⟩], cons_ne_nil _ _⟩]

/-- Two blocks of three bytes are merged, and two domains write three bytes each. -/
theorem pairs_scatterWrites_merged :
    ∃ request, (onePackedRegion 3 (by decide)).pushLayer "r" 0
        (layerBlocksToNative (twoBlocks 3 (by decide))) = .ok request ∧
      ((request.writes 2).flatMap WriteWr.pairs).Perm request.pairs := by
  have hpush : (onePackedRegion 3 (by decide)).pushLayer "r" 0
      (layerBlocksToNative (twoBlocks 3 (by decide))) =
        .ok { srcMrPtr := 100, dsts := [⟨200, 6, 0, 0⟩] } := by decide +kernel
  refine ⟨_, hpush, (pairs_scatterWrites_iff _ _ _ _ _ 2 (by decide) hpush).mpr ?_⟩
  rintro r ⟨⟩
  decide +kernel

/-- The first block alone: two domains write one byte each, and the third is lost. -/
theorem not_pairs_scatterWrites_single :
    (onePackedRegion 3 (by decide)).pushLayer "r" 0
        (layerBlocksToNative ((twoBlocks 3 (by decide)).take 1)) =
        .ok { srcMrPtr := 100, dsts := [⟨200, 3, 0, 0⟩] } ∧
      ¬ (((⟨100, [⟨200, 3, 0, 0⟩]⟩ : ScatterTransferRequest).writes 2).flatMap
        WriteWr.pairs).Perm (⟨100, [⟨200, 3, 0, 0⟩]⟩ : ScatterTransferRequest).pairs :=
  ⟨by decide +kernel, by decide +kernel⟩

end PegaFlow
