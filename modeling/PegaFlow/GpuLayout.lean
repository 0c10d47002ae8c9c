/-
PegaFlow/GpuLayout.lean

The layout of one layer's KV cache on the device (`layout.rs`) and its registration.

Every layout is one affine formula: block `i` begins at `data_ptr + i * block_stride`, and the
V segment of a split layout lies `kv_stride` further.  All validation happens at construction:
`Valid` collects what `new`, `with_block_stride` and `with_ssd_padding` establish between them,
and a `RegisteredLayout` carries it.  From it follow the two facts the copy paths rest on: the
ranges of a block lie in the registered region (`copiesAt_inside`), and the ranges of two blocks
have no byte in common (`copiesAt_apart_of_lt`).  The second is where the check of K against V
segments comes in: it looks at two block distances only, and these decide all others
(`absDiff_of_nearest`).
-/
import PegaFlow.ByteCopies
import PegaFlow.Loops

namespace PegaFlow.Gpu

open List

/-! ### Machine arithmetic -/

/-- `usize` and `u64` are 64 bits wide. -/
def usizeLimit : ℕ := 2 ^ 64

def checkedAdd (a b : ℕ) : Option ℕ := if a + b < usizeLimit then some (a + b) else none

def checkedMul (a b : ℕ) : Option ℕ := if a * b < usizeLimit then some (a * b) else none

/-- `abs_diff` of two unsigned numbers. -/
def absDiff (a b : ℕ) : ℕ := (a - b) + (b - a)

/-- `ok_or_else`. -/
def okOr {α : Type*} (x : Option α) (err : String) : Except String α :=
  match x with
  | some a => .ok a
  | none => .error err

theorem okOr_ok {α : Type*} {x : Option α} {err : String} {a : α} (h : okOr x err = .ok a) :
    x = some a := by
  rcases x with - | b
  · cases h
  · exact congrArg some (Except.ok.inj h)

theorem checkedAdd_some {a b c : ℕ} (h : checkedAdd a b = some c) :
    c = a + b ∧ a + b < usizeLimit := by
  unfold checkedAdd at h
  split at h
  · next hlt => exact ⟨(Option.some.inj h).symm, hlt⟩
  · cases h

theorem checkedMul_some {a b c : ℕ} (h : checkedMul a b = some c) : c = a * b := by
  unfold checkedMul at h
  split at h
  · exact (Option.some.inj h).symm
  · cases h

/-- `next_multiple_of`. -/
def nextMultipleOf (n m : ℕ) : ℕ := (n + m - 1) / m * m

theorem le_nextMultipleOf (n : ℕ) {m : ℕ} (hm : 0 < m) : n ≤ nextMultipleOf n m := by
  have hdiv := Nat.div_add_mod (n + m - 1) m
  have hmod := Nat.mod_lt (n + m - 1) hm
  rw [nextMultipleOf, mul_comm]
  omega

/-! ### Layouts -/

/-- How a block's segments are addressed on the GPU. -/
inductive SegmentLayout where
  /-- The whole block is one contiguous range. -/
  | contiguous
  /-- K and V live in separate regions, `kvStrideBytes` apart. -/
  | split (kvStrideBytes : ℕ)
deriving DecidableEq, Repr

/-- One contiguous device address range. -/
structure BlockCopy where
  addr : ℕ
  bytes : ℕ
deriving DecidableEq, Repr

/-- Device address ranges making up one block on the GPU. -/
inductive BlockCopies where
  | contiguous (c : BlockCopy)
  | split (k v : BlockCopy)
deriving DecidableEq, Repr

def BlockCopies.toList : BlockCopies → List BlockCopy
  | .contiguous c => [c]
  | .split k v => [k, v]

/-- Layout of one layer's KV cache: GPU addressing plus the host-side block shape. -/
structure KVCacheLayout where
  dataPtr : ℕ
  sizeBytes : ℕ
  numBlocks : ℕ
  blockStrideBytes : ℕ
  segmentBytes : ℕ
  segments : ℕ
  paddedSegmentBytes : ℕ
  seg : SegmentLayout
deriving DecidableEq, Repr

namespace KVCacheLayout

variable (l : KVCacheLayout)

/-- Actual (unpadded) total block size on the GPU. -/
def blockBytes : ℕ := l.segmentBytes * l.segments

/-- Host-side total block size. -/
def paddedBlockBytes : ℕ := l.paddedSegmentBytes * l.segments

def isSplit : Bool :=
  match l.seg with
  | .contiguous => false
  | .split _ => true

/-- One round of `check_split_segments_disjoint`. -/
def checkDistance (kvStrideBytes distance : ℕ) : Except String Unit :=
  if distance = 0 ∨ l.numBlocks - 1 < distance then .ok ()
  else do
    let blockDistanceBytes ←
      okOr (checkedMul distance l.blockStrideBytes) "memory layout overflow"
    if absDiff kvStrideBytes blockDistanceBytes < l.segmentBytes then
      .error s!"kv_stride_bytes {kvStrideBytes} overlaps blocks {distance} apart"
    else .ok ()

/-- Only the two block distances nearest to `kv_stride` are looked at. -/
def checkSplitSegmentsDisjoint (kvStrideBytes : ℕ) : Except String Unit := do
  let nearest := kvStrideBytes / l.blockStrideBytes
  l.checkDistance kvStrideBytes nearest
  l.checkDistance kvStrideBytes (min (nearest + 1) (usizeLimit - 1))

/-- The end of the last block, relative to the start of the region. -/
def addressedEnd : Except String ℕ :=
  match l.seg with
  | .contiguous =>
    if l.blockStrideBytes < l.blockBytes then
      .error (s!"block_stride {l.blockStrideBytes} must be >= block_bytes {l.blockBytes}: " ++
        "blocks would overlap")
    else
      okOr ((checkedMul (l.numBlocks - 1) l.blockStrideBytes).bind (checkedAdd · l.blockBytes))
        "memory layout overflow"
  | .split kvStrideBytes =>
    if l.blockStrideBytes < l.segmentBytes then
      .error (s!"block_stride {l.blockStrideBytes} must be >= segment_bytes " ++
        s!"{l.segmentBytes}: blocks would overlap")
    else do
      l.checkSplitSegmentsDisjoint kvStrideBytes
      let lastSegmentEnd ←
        okOr ((checkedMul (l.numBlocks - 1) l.blockStrideBytes).bind (checkedAdd · l.segmentBytes))
          "memory layout overflow"
      okOr (checkedAdd kvStrideBytes lastSegmentEnd) "memory layout overflow"

/-- Validate that all addressed bytes fit in `size_bytes` and no two block ranges alias. -/
def checkBounds : Except String Unit := do
  let addressed ← l.addressedEnd
  if l.sizeBytes < addressed then
    .error s!"registered memory too small: need {addressed} bytes, got {l.sizeBytes}"
  else .ok ()

/-- The segment layout `new` chooses. -/
def segmentLayoutOf (segmentBytes kvStrideBytes segments : ℕ) : Except String SegmentLayout :=
  if segments = 1 then .ok .contiguous
  else if kvStrideBytes = 0 then .error "kv_stride_bytes must be > 0 when segments > 1"
  else if kvStrideBytes < segmentBytes then
    .error (s!"kv_stride_bytes {kvStrideBytes} < segment_bytes {segmentBytes}: " ++
      "segments would overlap")
  else if kvStrideBytes = segmentBytes then .ok .contiguous
  else if segments = 2 then .ok (.split kvStrideBytes)
  else
    .error (s!"split layout (kv_stride_bytes {kvStrideBytes} > segment_bytes {segmentBytes}) " ++
      s!"supports exactly 2 segments, got {segments}")

/-- Construct and validate a dense layout. -/
def new (dataPtr sizeBytes numBlocks segmentBytes kvStrideBytes segments : ℕ) :
    Except String KVCacheLayout :=
  if dataPtr = 0 then .error "data_ptr must not be null"
  else if sizeBytes = 0 then .error "size_bytes must be > 0"
  else if segmentBytes = 0 ∨ numBlocks = 0 ∨ segments = 0 then
    .error "segment_bytes, num_blocks, and segments must be non-zero"
  else do
    let _ ← okOr (checkedAdd dataPtr sizeBytes) "data_ptr + size_bytes overflows the address space"
    let blockBytes ← okOr (checkedMul segmentBytes segments) "block size overflow"
    let seg ← segmentLayoutOf segmentBytes kvStrideBytes segments
    let layout : KVCacheLayout :=
      { dataPtr
        sizeBytes
        numBlocks
        blockStrideBytes := match seg with
          | .contiguous => blockBytes
          | .split _ => segmentBytes
        segmentBytes
        segments
        paddedSegmentBytes := segmentBytes
        seg }
    layout.checkBounds
    .ok layout

/-- Override the per-block stride for a non-contiguous per-layer view. -/
def withBlockStride (stride : ℕ) : Except String KVCacheLayout :=
  let minStride := match l.seg with
    | .contiguous => l.blockBytes
    | .split _ => l.segmentBytes
  if stride < minStride then
    .error s!"block_stride {stride} must be >= {minStride}: blocks would overlap"
  else do
    let layout := { l with blockStrideBytes := stride }
    layout.checkBounds
    .ok layout

/-- Apply SSD alignment padding to the host-side segment stride. -/
def withSsdPadding (alignment : ℕ) : KVCacheLayout :=
  { l with paddedSegmentBytes := nextMultipleOf l.segmentBytes alignment }

/-- The ranges of block `blockIdx`, past the check of the index. -/
def copiesAt (blockIdx : ℕ) : BlockCopies :=
  let base := l.dataPtr + blockIdx * l.blockStrideBytes
  match l.seg with
  | .contiguous => .contiguous { addr := base, bytes := l.blockBytes }
  | .split kvStrideBytes =>
    .split { addr := base, bytes := l.segmentBytes }
      { addr := base + kvStrideBytes, bytes := l.segmentBytes }

/-- Device address ranges for `blockIdx`. -/
def blockCopies (blockIdx : ℕ) : Except String BlockCopies :=
  if l.numBlocks ≤ blockIdx then
    .error s!"block {blockIdx} out of range ({l.numBlocks} blocks)"
  else .ok (l.copiesAt blockIdx)

/-! ### What validation establishes -/

/-- The addresses of a layout: blocks follow each other without overlap and end in the region. -/
def Addressed : Prop :=
  match l.seg with
  | .contiguous =>
    l.blockBytes ≤ l.blockStrideBytes ∧
      (l.numBlocks - 1) * l.blockStrideBytes + l.blockBytes ≤ l.sizeBytes
  | .split kvStrideBytes =>
    l.segmentBytes ≤ l.blockStrideBytes ∧
      kvStrideBytes + ((l.numBlocks - 1) * l.blockStrideBytes + l.segmentBytes) ≤ l.sizeBytes ∧
      ∀ distance, 0 < distance → distance ≤ l.numBlocks - 1 →
        l.segmentBytes ≤ absDiff kvStrideBytes (distance * l.blockStrideBytes)

/-- A split layout has two segments, with a gap between them. -/
def SegmentsOk : Prop :=
  match l.seg with
  | .contiguous => True
  | .split kvStrideBytes => l.segments = 2 ∧ l.segmentBytes < kvStrideBytes

/-- A validated layout. -/
structure Valid : Prop where
  numBlocks_pos : 0 < l.numBlocks
  segmentBytes_pos : 0 < l.segmentBytes
  segments_pos : 0 < l.segments
  region_lt : l.dataPtr + l.sizeBytes < usizeLimit
  segment_le_padded : l.segmentBytes ≤ l.paddedSegmentBytes
  segmentsOk : l.SegmentsOk
  addressed : l.Addressed

variable {l : KVCacheLayout}

theorem checkDistance_ok {kv distance : ℕ} (h : l.checkDistance kv distance = .ok ())
    (hpos : 0 < distance) (hle : distance ≤ l.numBlocks - 1) :
    l.segmentBytes ≤ absDiff kv (distance * l.blockStrideBytes) := by
  rw [checkDistance, if_neg (by omega)] at h
  obtain ⟨bytes, hbytes, h⟩ := bind_ok h
  rw [checkedMul_some (okOr_ok hbytes)] at h
  exact Nat.le_of_not_lt (ite_error_ok h).1

/-- **Two block distances decide all of them.**  With blocks at least a segment apart, a V segment
that stays clear of the K segments at the two nearest distances stays clear of every other. -/
theorem absDiff_of_nearest {kv stride segment bound : ℕ} (hseg : 0 < segment)
    (hstride : segment ≤ stride)
    (hnear : ∀ d, d = kv / stride ∨ d = kv / stride + 1 → 0 < d → d ≤ bound →
      segment ≤ absDiff kv (d * stride)) {d : ℕ} (hpos : 0 < d) (hle : d ≤ bound) :
    segment ≤ absDiff kv (d * stride) := by
  have hdiv := Nat.div_add_mod kv stride
  have hmod := Nat.mod_lt kv (lt_of_lt_of_le hseg hstride)
  rw [mul_comm] at hdiv
  rcases lt_or_ge d (kv / stride) with hlt | hge
  · -- the V segment lies at least one stride past this K segment
    have hmul : (d + 1) * stride ≤ kv / stride * stride := Nat.mul_le_mul_right _ hlt
    rw [Nat.succ_mul] at hmul
    unfold absDiff
    omega
  · rcases lt_or_ge (kv / stride + 1) d with hgt | hnear'
    · -- this K segment lies at least one stride past the V segment
      have hmul : (kv / stride + 2) * stride ≤ d * stride := Nat.mul_le_mul_right _ hgt
      rw [Nat.succ_mul, Nat.succ_mul] at hmul
      unfold absDiff
      omega
    · exact hnear d (by omega) hpos hle

theorem checkSplitSegmentsDisjoint_ok {kv : ℕ} (hseg : 0 < l.segmentBytes)
    (hstride : l.segmentBytes ≤ l.blockStrideBytes) (hkv : kv < usizeLimit)
    (h : l.checkSplitSegmentsDisjoint kv = .ok ()) {distance : ℕ} (hpos : 0 < distance)
    (hle : distance ≤ l.numBlocks - 1) :
    l.segmentBytes ≤ absDiff kv (distance * l.blockStrideBytes) := by
  obtain ⟨u, hfirst, hsecond⟩ := bind_ok h
  refine absDiff_of_nearest hseg hstride ?_ hpos hle
  rintro d (rfl | rfl) hd hdle
  · exact checkDistance_ok hfirst hd hdle
  · rcases lt_or_ge (kv / l.blockStrideBytes + 1) usizeLimit with hlt | hge
    · rw [min_eq_left (by omega)] at hsecond
      exact checkDistance_ok hsecond hd hdle
    · -- `saturating_add` would only clip a distance that no number of blocks reaches
      have hone : l.blockStrideBytes = 1 := by
        by_contra hne
        have htwo : 2 ≤ l.blockStrideBytes := by omega
        have hhalf : kv / l.blockStrideBytes ≤ kv / 2 := Nat.div_le_div_left htwo (by omega)
        have hlimit : 1 < usizeLimit := by decide
        omega
      rw [hone] at hge hdle ⊢
      unfold absDiff
      omega

theorem addressedEnd_ok {addressed : ℕ} (hseg : 0 < l.segmentBytes)
    (hsize : l.sizeBytes < usizeLimit) (h : l.addressedEnd = .ok addressed)
    (hle : addressed ≤ l.sizeBytes) : l.Addressed := by
  unfold addressedEnd at h
  unfold Addressed
  rcases hl : l.seg with - | kv
  · simp only [hl] at h ⊢
    obtain ⟨hstride, h⟩ := ite_error_ok h
    obtain ⟨offset, hoffset, hend⟩ := Option.bind_eq_some_iff.mp (okOr_ok h)
    rw [checkedMul_some hoffset] at hend
    rw [(checkedAdd_some hend).1] at hle
    exact ⟨Nat.le_of_not_lt hstride, hle⟩
  · simp only [hl] at h ⊢
    obtain ⟨hstride, h⟩ := ite_error_ok h
    obtain ⟨u, hdisjoint, h⟩ := bind_ok h
    obtain ⟨last, hlast, h⟩ := bind_ok h
    obtain ⟨offset, hoffset, hlast⟩ := Option.bind_eq_some_iff.mp (okOr_ok hlast)
    rw [checkedMul_some hoffset] at hlast
    have hend := (checkedAdd_some (okOr_ok h)).1
    rw [(checkedAdd_some hlast).1] at hend
    rw [hend] at hle
    exact ⟨Nat.le_of_not_lt hstride, hle, fun d hpos hd =>
      checkSplitSegmentsDisjoint_ok hseg (Nat.le_of_not_lt hstride) (by omega) hdisjoint hpos hd⟩

theorem checkBounds_ok (hseg : 0 < l.segmentBytes) (hsize : l.sizeBytes < usizeLimit)
    (h : l.checkBounds = .ok ()) : l.Addressed := by
  obtain ⟨addressed, hend, h⟩ := bind_ok h
  exact addressedEnd_ok hseg hsize hend (Nat.le_of_not_lt (ite_error_ok h).1)

theorem segmentLayoutOf_ok {segmentBytes kv segments : ℕ} {seg : SegmentLayout}
    (h : segmentLayoutOf segmentBytes kv segments = .ok seg) :
    seg = .contiguous ∨ seg = .split kv ∧ segments = 2 ∧ segmentBytes < kv := by
  unfold segmentLayoutOf at h
  split at h
  · exact .inl (Except.ok.inj h).symm
  obtain ⟨-, h⟩ := ite_error_ok h
  obtain ⟨hlt, h⟩ := ite_error_ok h
  split at h
  · exact .inl (Except.ok.inj h).symm
  next hne =>
  split at h
  · next htwo => exact .inr ⟨(Except.ok.inj h).symm, htwo, by omega⟩
  · cases h

theorem new_valid {dataPtr sizeBytes numBlocks segmentBytes kv segments : ℕ}
    (h : new dataPtr sizeBytes numBlocks segmentBytes kv segments = .ok l) :
    l.Valid ∧ l.paddedSegmentBytes = l.segmentBytes := by
  obtain ⟨-, h⟩ := ite_error_ok h
  obtain ⟨-, h⟩ := ite_error_ok h
  obtain ⟨hzero, h⟩ := ite_error_ok h
  obtain ⟨regionEnd, hregion, h⟩ := bind_ok h
  obtain ⟨blockBytes, -, h⟩ := bind_ok h
  obtain ⟨seg, hseg, h⟩ := bind_ok h
  obtain ⟨u, hbounds, h⟩ := bind_ok h
  cases Except.ok.inj h
  have hregion := (checkedAdd_some (okOr_ok hregion)).2
  refine ⟨⟨?_, ?_, ?_, hregion, le_rfl, ?_, checkBounds_ok ?_ ?_ hbounds⟩, rfl⟩
  · show 0 < numBlocks; omega
  · show 0 < segmentBytes; omega
  · show 0 < segments; omega
  · rcases segmentLayoutOf_ok hseg with rfl | ⟨rfl, htwo, hlt⟩
    · trivial
    · exact ⟨htwo, hlt⟩
  · show 0 < segmentBytes; omega
  · show sizeBytes < usizeLimit; omega

theorem withBlockStride_valid {l' : KVCacheLayout} {stride : ℕ} (hv : l.Valid)
    (h : l.withBlockStride stride = .ok l') :
    l'.Valid ∧ l'.paddedSegmentBytes = l.paddedSegmentBytes ∧
      l'.segmentBytes = l.segmentBytes := by
  obtain ⟨-, h⟩ := ite_error_ok h
  obtain ⟨u, hbounds, h⟩ := bind_ok h
  cases Except.ok.inj h
  refine ⟨{ hv with addressed := checkBounds_ok hv.segmentBytes_pos ?_ hbounds }, rfl, rfl⟩
  have := hv.region_lt
  show l.sizeBytes < usizeLimit
  omega

theorem withSsdPadding_valid (hv : l.Valid) {alignment : ℕ} (hpos : 0 < alignment) :
    (l.withSsdPadding alignment).Valid :=
  { hv with segment_le_padded := le_nextMultipleOf _ hpos }

/-! ### The ranges of a block -/

variable {i j : ℕ} {c c' : BlockCopy}

theorem index_mul_le (hi : i < l.numBlocks) :
    i * l.blockStrideBytes ≤ (l.numBlocks - 1) * l.blockStrideBytes :=
  Nat.mul_le_mul_right _ (by omega)

theorem copiesAt_inside (hv : l.Valid) (hi : i < l.numBlocks) {c : BlockCopy}
    (hc : c ∈ (l.copiesAt i).toList) :
    l.dataPtr ≤ c.addr ∧ c.addr + c.bytes ≤ l.dataPtr + l.sizeBytes := by
  have hmul := index_mul_le hi
  have haddressed := hv.addressed
  unfold Addressed at haddressed
  unfold copiesAt at hc
  rcases hl : l.seg with - | kv
  · simp only [hl, BlockCopies.toList, mem_singleton] at haddressed hc
    subst hc
    exact ⟨Nat.le_add_right _ _, by simp only; omega⟩
  · simp only [hl, BlockCopies.toList, mem_cons, not_mem_nil, or_false]
      at haddressed hc
    rcases hc with rfl | rfl
    · exact ⟨Nat.le_add_right _ _, by simp only; omega⟩
    · exact ⟨by simp only; omega, by simp only; omega⟩

theorem copiesAt_pairwise (hv : l.Valid) (i : ℕ) :
    (l.copiesAt i).toList.Pairwise fun c c' => RangesApart c.addr c.bytes c'.addr c'.bytes := by
  have hsegs := hv.segmentsOk
  unfold SegmentsOk at hsegs
  unfold copiesAt
  rcases hl : l.seg with - | kv
  · exact pairwise_singleton _ _
  · simp only [hl] at hsegs
    refine pairwise_cons.mpr ⟨?_, pairwise_singleton _ _⟩
    intro c hc
    obtain rfl := mem_singleton.mp hc
    left
    show l.dataPtr + i * l.blockStrideBytes + l.segmentBytes ≤
      l.dataPtr + i * l.blockStrideBytes + kv
    omega

theorem stride_le_sub (h : i < j) :
    i * l.blockStrideBytes + l.blockStrideBytes ≤ j * l.blockStrideBytes := by
  rw [← Nat.succ_mul]
  exact Nat.mul_le_mul_right _ h

/-- **The ranges of two blocks have no byte in common.** -/
theorem copiesAt_apart_of_lt (hv : l.Valid) (hj : j < l.numBlocks) (hij : i < j)
    (hc : c ∈ (l.copiesAt i).toList) (hc' : c' ∈ (l.copiesAt j).toList) :
    RangesApart c.addr c.bytes c'.addr c'.bytes := by
  have hstep : i * l.blockStrideBytes + l.blockStrideBytes ≤ j * l.blockStrideBytes :=
    stride_le_sub hij
  have haddressed := hv.addressed
  unfold Addressed at haddressed
  unfold copiesAt at hc hc'
  unfold RangesApart
  rcases hl : l.seg with - | kv
  · simp only [hl, BlockCopies.toList, mem_singleton] at haddressed hc hc'
    subst hc hc'
    simp only
    omega
  · simp only [hl, BlockCopies.toList, mem_cons, not_mem_nil, or_false]
      at haddressed hc hc'
    -- the K segment of the later block against the V segment of the earlier one
    have hgap := haddressed.2.2 (j - i) (by omega) (by omega)
    rw [absDiff, Nat.sub_mul] at hgap
    rcases hc with rfl | rfl <;> rcases hc' with rfl | rfl <;> simp only <;> omega

end KVCacheLayout

/-! ### Registration of a layer -/

/-- What a worker sends for one layer.  The registration RPC calls the size of one segment
`bytes_per_block`. -/
structure LayerRegistration where
  layerName : String
  dataPtr : ℕ
  sizeBytes : ℕ
  numBlocks : ℕ
  bytesPerBlock : ℕ
  kvStrideBytes : ℕ
  segments : ℕ
  /-- Entry of `block_stride_bytes_list`, if the list was sent. -/
  blockStrideBytes : Option ℕ
deriving DecidableEq, Repr

def ssdAlignment : ℕ := 512

variable (ssd : Bool)

/-- The padded size of a segment: SSD-aligned if the engine has an SSD tier. -/
def paddedSegment (segmentBytes : ℕ) : ℕ :=
  if ssd then nextMultipleOf segmentBytes ssdAlignment else segmentBytes

/-- A layout as an engine with the given SSD setting registers it. -/
structure RegisteredLayout where
  layout : KVCacheLayout
  valid : layout.Valid
  padded : layout.paddedSegmentBytes = paddedSegment ssd layout.segmentBytes
deriving DecidableEq

variable (reg : LayerRegistration)

/-- Apply the stride the worker sent, if any. -/
def LayerRegistration.applyStride (dense : KVCacheLayout) : Except String KVCacheLayout :=
  match reg.blockStrideBytes with
  | some stride => dense.withBlockStride stride
  | none => .ok dense

/-- The layout built for one layer, before it is known to be valid. -/
def LayerRegistration.buildLayout : Except String KVCacheLayout := do
  let dense ← KVCacheLayout.new reg.dataPtr reg.sizeBytes reg.numBlocks reg.bytesPerBlock
    reg.kvStrideBytes reg.segments
  let strided ← reg.applyStride dense
  .ok (if ssd then strided.withSsdPadding ssdAlignment else strided)

theorem LayerRegistration.buildLayout_valid {ssd : Bool} {reg : LayerRegistration}
    {l : KVCacheLayout} (h : reg.buildLayout ssd = .ok l) :
    l.Valid ∧ l.paddedSegmentBytes = paddedSegment ssd l.segmentBytes := by
  obtain ⟨dense, hdense, h⟩ := bind_ok h
  obtain ⟨strided, hstrided, h⟩ := bind_ok h
  obtain ⟨hvalid, hpadded⟩ := KVCacheLayout.new_valid hdense
  have hstep : strided.Valid ∧ strided.paddedSegmentBytes = strided.segmentBytes := by
    unfold applyStride at hstrided
    rcases hs : reg.blockStrideBytes with - | stride
    · simp only [hs] at hstrided
      cases Except.ok.inj hstrided
      exact ⟨hvalid, hpadded⟩
    · simp only [hs] at hstrided
      obtain ⟨hvalid', hpad, hseg⟩ := KVCacheLayout.withBlockStride_valid hvalid hstrided
      exact ⟨hvalid', by rw [hpad, hpadded, hseg]⟩
  cases Except.ok.inj h
  cases ssd
  · exact hstep
  · exact ⟨KVCacheLayout.withSsdPadding_valid hstep.1 (by decide), rfl⟩

/-- One round of the registration loop: build the layout, or name the layer in the error. -/
def LayerRegistration.register : Except String (RegisteredLayout ssd) :=
  match h : reg.buildLayout ssd with
  | .ok l => .ok ⟨l, (buildLayout_valid h).1, (buildLayout_valid h).2⟩
  | .error err => .error s!"layer {reg.layerName}: {err}"

/-! ### Geometry -/

/-- What must agree between the devices that register a layer. -/
structure Geometry where
  segmentBytes : ℕ
  isSplit : Bool
  paddedBlockBytes : ℕ
deriving DecidableEq, Repr

namespace RegisteredLayout

variable {ssd : Bool}

def geometry (l : RegisteredLayout ssd) : Geometry :=
  { segmentBytes := l.layout.segmentBytes
    isSplit := l.layout.isSplit
    paddedBlockBytes := l.layout.paddedBlockBytes }

end RegisteredLayout

end PegaFlow.Gpu
