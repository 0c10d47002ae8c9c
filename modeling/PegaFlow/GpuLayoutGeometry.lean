/-
PegaFlow/GpuLayoutGeometry.lean

What the validation of a layout accepts, compared with the geometry it is about.

Soundness: whatever `new` and `with_block_stride` accept addresses its own region only, without
overflow, and no two of its segments share a byte (`layout_sound`).
-/
import PegaFlow.GpuLayout

namespace PegaFlow.Gpu

open List Option KVCacheLayout

/-- Two device ranges have no byte in common. -/
def BlockCopy.Apart (c c' : BlockCopy) : Prop := RangesApart c.addr c.bytes c'.addr c'.bytes

instance : DecidableRel BlockCopy.Apart := fun c c' =>
  inferInstanceAs (Decidable (c.addr + c.bytes ≤ c'.addr ∨ c'.addr + c'.bytes ≤ c.addr))

namespace KVCacheLayout

/-! ### Soundness -/

/-- What the constructor and `with_block_stride` accept. -/
inductive Accepted : KVCacheLayout → Prop
  | new {dataPtr sizeBytes numBlocks segmentBytes kvStrideBytes segments : ℕ} {l : KVCacheLayout}
      (h : new dataPtr sizeBytes numBlocks segmentBytes kvStrideBytes segments = .ok l) :
      Accepted l
  | withBlockStride {l l' : KVCacheLayout} {stride : ℕ} (h : Accepted l)
      (hstride : l.withBlockStride stride = .ok l') : Accepted l'

theorem Accepted.valid {l : KVCacheLayout} (h : Accepted l) : l.Valid := by
  induction h with
  | new h => exact (new_valid h).1
  | withBlockStride _ hstride ih => exact (withBlockStride_valid ih hstride).1

variable (l : KVCacheLayout)

/-- `block_copies` with each product and sum in 64 bits: `none` if one of them overflows. -/
def copiesChecked (blockIdx : ℕ) : Option BlockCopies := do
  let offset ← checkedMul blockIdx l.blockStrideBytes
  let base ← checkedAdd l.dataPtr offset
  match l.seg with
  | .contiguous => do
    let bytes ← checkedMul l.segmentBytes l.segments
    some (.contiguous { addr := base, bytes })
  | .split kvStrideBytes => do
    let v ← checkedAdd base kvStrideBytes
    some (.split { addr := base, bytes := l.segmentBytes } { addr := v, bytes := l.segmentBytes })

/-- The step from one segment of a block to the next. -/
def segmentStride : ℕ :=
  match l.seg with
  | .contiguous => l.segmentBytes
  | .split kvStrideBytes => kvStrideBytes

/-- The segments of a block, K first, whether or not they are copied as one range. -/
def segmentsAt (blockIdx : ℕ) : List BlockCopy :=
  (range l.segments).map fun k =>
    { addr := l.dataPtr + blockIdx * l.blockStrideBytes + k * l.segmentStride
      bytes := l.segmentBytes }

/-- What the copy paths rely on. -/
structure Sound : Prop where
  /-- Every block below `num_blocks` has its ranges, computed without overflow. -/
  computed : ∀ i < l.numBlocks, l.blockCopies i = .ok (l.copiesAt i) ∧
    l.copiesChecked i = some (l.copiesAt i)
  /-- They lie in the region, and the region ends in the address space. -/
  inside : ∀ i < l.numBlocks, ∀ c ∈ (l.copiesAt i).toList,
    l.dataPtr ≤ c.addr ∧ c.addr + c.bytes ≤ l.dataPtr + l.sizeBytes
  region : l.dataPtr + l.sizeBytes < usizeLimit
  /-- No two ranges of the layer share a byte. -/
  copies_apart :
    ((range l.numBlocks).flatMap fun i => (l.copiesAt i).toList).Pairwise BlockCopy.Apart
  /-- Nor do two segments. -/
  segments_apart : ((range l.numBlocks).flatMap l.segmentsAt).Pairwise BlockCopy.Apart

section Sound

variable {l : KVCacheLayout} {i j : ℕ} {a b : ℕ}

theorem checkedAdd_eq (h : a + b < usizeLimit) : checkedAdd a b = some (a + b) :=
  if_pos h

theorem checkedMul_eq (h : a * b < usizeLimit) : checkedMul a b = some (a * b) :=
  if_pos h

theorem Valid.copiesChecked_eq (hv : l.Valid) (hi : i < l.numBlocks) :
    l.copiesChecked i = some (l.copiesAt i) := by
  have hmul := index_mul_le hi
  have hregion := hv.region_lt
  have haddressed := hv.addressed
  have hsegs := hv.segmentsOk
  unfold Addressed at haddressed
  unfold copiesChecked copiesAt
  rcases hl : l.seg with - | kv
  · simp only [hl] at haddressed
    have hbytes : l.segmentBytes * l.segments < usizeLimit := by
      have : l.segmentBytes * l.segments = l.blockBytes := rfl
      omega
    rw [checkedMul_eq (by omega), bind_eq_bind, bind_some, checkedAdd_eq (by omega),
      bind_some, checkedMul_eq hbytes]
    rfl
  · simp only [hl] at haddressed
    rw [checkedMul_eq (by omega), bind_eq_bind, bind_some, checkedAdd_eq (by omega),
      bind_some]
    dsimp only
    rw [checkedAdd_eq (by omega)]
    rfl

theorem Valid.segment_inside (hv : l.Valid) {c : BlockCopy} (hc : c ∈ l.segmentsAt i) :
    ∃ c' ∈ (l.copiesAt i).toList, c'.addr ≤ c.addr ∧ c.addr + c.bytes ≤ c'.addr + c'.bytes := by
  obtain ⟨k, hk, rfl⟩ := mem_map.mp hc
  have hk := mem_range.mp hk
  have hsegs := hv.segmentsOk
  unfold SegmentsOk at hsegs
  unfold copiesAt segmentStride
  rcases hl : l.seg with - | kv
  · refine ⟨_, mem_singleton.mpr rfl, Nat.le_add_right _ _, ?_⟩
    have hlast : k * l.segmentBytes + l.segmentBytes ≤ l.blockBytes := by
      rw [blockBytes, ← Nat.succ_mul, Nat.mul_comm l.segmentBytes]
      exact Nat.mul_le_mul_right _ hk
    show l.dataPtr + i * l.blockStrideBytes + k * l.segmentBytes + l.segmentBytes ≤
      l.dataPtr + i * l.blockStrideBytes + l.blockBytes
    omega
  · simp only [hl] at hsegs
    obtain rfl | rfl : k = 0 ∨ k = 1 := by omega
    · refine ⟨_, mem_cons_self, ?_⟩
      simp only [Nat.zero_mul]
      omega
    · refine ⟨_, mem_cons_of_mem _ (mem_singleton.mpr rfl), ?_⟩
      simp only [Nat.one_mul]
      omega

theorem Valid.segmentsAt_pairwise (hv : l.Valid) (i : ℕ) :
    (l.segmentsAt i).Pairwise BlockCopy.Apart := by
  have hsegs := hv.segmentsOk
  unfold SegmentsOk at hsegs
  have hstride : l.segmentBytes ≤ l.segmentStride := by
    unfold segmentStride
    rcases hl : l.seg with - | kv
    · exact le_rfl
    · simp only [hl] at hsegs
      exact hsegs.2.le
  refine pairwise_map.mpr (pairwise_lt_range.imp ?_)
  intro k k' hlt
  left
  have hstep : k * l.segmentStride + l.segmentStride ≤ k' * l.segmentStride := by
    rw [← Nat.succ_mul]
    exact Nat.mul_le_mul_right _ hlt
  show l.dataPtr + i * l.blockStrideBytes + k * l.segmentStride + l.segmentBytes ≤
    l.dataPtr + i * l.blockStrideBytes + k' * l.segmentStride
  omega

theorem Valid.sound (hv : l.Valid) : l.Sound where
  computed i hi := ⟨if_neg (not_le.mpr hi), hv.copiesChecked_eq hi⟩
  inside i hi c hc := copiesAt_inside hv hi hc
  region := hv.region_lt
  copies_apart := by
    refine pairwise_flatMap.mpr ⟨fun i _ => copiesAt_pairwise hv i, ?_⟩
    refine pairwise_lt_range.imp_of_mem ?_
    intro i j _ hj hlt c hc c' hc'
    exact copiesAt_apart_of_lt hv (mem_range.mp hj) hlt hc hc'
  segments_apart := by
    refine pairwise_flatMap.mpr ⟨fun i _ => hv.segmentsAt_pairwise i, ?_⟩
    refine pairwise_lt_range.imp_of_mem ?_
    intro i j _ hj hlt c hc c' hc'
    obtain ⟨d, hd, hin⟩ := hv.segment_inside hc
    obtain ⟨d', hd', hin'⟩ := hv.segment_inside hc'
    exact (copiesAt_apart_of_lt hv (mem_range.mp hj) hlt hd hd').mono hin hin'

end Sound

/-- **Layout soundness.**  What the constructor and `with_block_stride` accept has all ranges of all
blocks inside its region, computes them without overflow, and keeps every K and V segment clear of
every other. -/
theorem layout_sound (h : Accepted l) : l.Sound :=
  h.valid.sound

/-- The layout of two blocks whose K and V alternate: two bytes from K to V, four to the next
block. -/
def alternating : KVCacheLayout :=
  { dataPtr := 4096
    sizeBytes := 8
    numBlocks := 2
    blockStrideBytes := 4
    segmentBytes := 1
    segments := 2
    paddedSegmentBytes := 1
    seg := .split 2 }

theorem layout_sound_alternating :
    new 4096 8 2 1 2 2 = .ok { alternating with blockStrideBytes := 1 } ∧
      { alternating with blockStrideBytes := 1 }.withBlockStride 4 = .ok alternating ∧
      alternating.Sound := by
  have hnew : new 4096 8 2 1 2 2 = .ok { alternating with blockStrideBytes := 1 } := rfl
  have hstride : { alternating with blockStrideBytes := 1 }.withBlockStride 4 = .ok alternating :=
    rfl
  exact ⟨hnew, hstride, layout_sound alternating (.withBlockStride (.new hnew) hstride)⟩

/-! ### Validation, the other way round

`Addressed` is all that `check_bounds` asks for: when it holds, no product or sum on the way
overflows and every check passes. -/

theorem checkDistance_of_apart {l : KVCacheLayout} {kv distance : ℕ}
    (hmul : distance ≤ l.numBlocks - 1 → distance * l.blockStrideBytes < usizeLimit)
    (hapart : 0 < distance → distance ≤ l.numBlocks - 1 →
      l.segmentBytes ≤ absDiff kv (distance * l.blockStrideBytes)) :
    l.checkDistance kv distance = .ok () := by
  unfold checkDistance
  split
  · rfl
  · next hin =>
    rw [checkedMul_eq (hmul (by omega))]
    exact if_neg (not_lt.mpr (hapart (by omega) (by omega)))

theorem Addressed.checkBounds_split {l : KVCacheLayout} {kv : ℕ} (h : l.Addressed)
    (hl : l.seg = .split kv) (hsize : l.sizeBytes < usizeLimit) : l.checkBounds = .ok () := by
  unfold Addressed at h
  simp only [hl] at h
  obtain ⟨hstride, hend, hapart⟩ := h
  have hdistance : ∀ d, l.checkDistance kv d = .ok () := by
    intro d
    refine checkDistance_of_apart (fun hd => ?_) (fun hpos hd => hapart d hpos hd)
    have hmul : d * l.blockStrideBytes ≤ (l.numBlocks - 1) * l.blockStrideBytes :=
      Nat.mul_le_mul_right _ hd
    omega
  have hdisjoint : l.checkSplitSegmentsDisjoint kv = .ok () := by
    show (l.checkDistance kv _ >>= fun _ => l.checkDistance kv _) = _
    rw [hdistance]
    exact hdistance _
  have haddressed : l.addressedEnd =
      .ok (kv + ((l.numBlocks - 1) * l.blockStrideBytes + l.segmentBytes)) := by
    unfold addressedEnd
    simp only [hl]
    rw [if_neg (not_lt.mpr hstride), hdisjoint, checkedMul_eq (by omega), bind_some,
      checkedAdd_eq (by omega)]
    show okOr (checkedAdd kv _) _ = _
    rw [checkedAdd_eq (by omega)]
    rfl
  unfold checkBounds
  rw [haddressed]
  exact if_neg (not_lt.mpr hend)

end KVCacheLayout

/-! ### Completeness -/

/-- The K/V geometry a worker describes for one layer, and the block stride it sends. -/
structure SplitGeometry where
  dataPtr : ℕ
  sizeBytes : ℕ
  numBlocks : ℕ
  segmentBytes : ℕ
  kvStrideBytes : ℕ
  stride : ℕ
deriving DecidableEq, Repr

namespace SplitGeometry

variable (g : SplitGeometry)

/-- The K range and the V range of block `i`. -/
def rangesAt (i : ℕ) : List BlockCopy :=
  [{ addr := g.dataPtr + i * g.stride, bytes := g.segmentBytes },
    { addr := g.dataPtr + i * g.stride + g.kvStrideBytes, bytes := g.segmentBytes }]

/-- The K and V ranges of all blocks. -/
def ranges : List BlockCopy := (range g.numBlocks).flatMap g.rangesAt

/-- The ranges are ones a layer may have: in the region, in the address space, pairwise
disjoint. -/
structure Admissible : Prop where
  ptr_ne : g.dataPtr ≠ 0
  split : g.kvStrideBytes ≠ g.segmentBytes
  inside : ∀ c ∈ g.ranges, c.addr + c.bytes ≤ g.dataPtr + g.sizeBytes
  noOverflow : ∀ c ∈ g.ranges, c.addr + c.bytes ≤ usizeLimit
  apart : g.ranges.Pairwise BlockCopy.Apart

/-- The registration that describes the geometry. -/
def registration (layerName : String) : LayerRegistration :=
  { layerName
    dataPtr := g.dataPtr
    sizeBytes := g.sizeBytes
    numBlocks := g.numBlocks
    bytesPerBlock := g.segmentBytes
    kvStrideBytes := g.kvStrideBytes
    segments := 2
    blockStrideBytes := some g.stride }

/-- The layout of the geometry at some block stride. -/
def layoutAt (stride : ℕ) : KVCacheLayout :=
  { dataPtr := g.dataPtr
    sizeBytes := g.sizeBytes
    numBlocks := g.numBlocks
    blockStrideBytes := stride
    segmentBytes := g.segmentBytes
    segments := 2
    paddedSegmentBytes := g.segmentBytes
    seg := .split g.kvStrideBytes }

/-- What acceptance takes beyond admissibility.  The last condition is the one of the dense layout
that `new` validates first. -/
structure DenseToo : Prop where
  numBlocks_pos : 0 < g.numBlocks
  segmentBytes_pos : 0 < g.segmentBytes
  region_lt : g.dataPtr + g.sizeBytes < usizeLimit
  stride_le : g.segmentBytes ≤ g.stride
  dense : g.numBlocks = 1 ∨ g.numBlocks * g.segmentBytes ≤ g.kvStrideBytes

/-- **The dense layout keeps K and V apart only side by side.**  Without gaps between the K
segments, a V segment that comes before the last of them overlaps one. -/
theorem dense_apart_iff {segment kv numBlocks : ℕ} (hseg : 0 < segment) (hkv : segment < kv)
    (hpos : 0 < numBlocks) :
    (∀ d, 0 < d → d ≤ numBlocks - 1 → segment ≤ absDiff kv (d * segment)) ↔
      numBlocks = 1 ∨ numBlocks * segment ≤ kv := by
  constructor
  · intro h
    by_contra hnot
    have hdiv := Nat.div_add_mod kv segment
    have hmod := Nat.mod_lt kv hseg
    -- the V segment of the first block starts within the K segment of block `kv / segment`
    have hfirst : 0 < kv / segment := Nat.div_pos hkv.le hseg
    have hlast : kv / segment < numBlocks := Nat.div_lt_of_lt_mul (by
      rw [mul_comm]
      omega)
    have hgap := h (kv / segment) hfirst (by omega)
    rw [mul_comm] at hgap
    unfold absDiff at hgap
    omega
  · rintro (rfl | hside) d hd hle
    · omega
    · have hmul : (d + 1) * segment ≤ numBlocks * segment := Nat.mul_le_mul_right _ (by omega)
      rw [Nat.succ_mul] at hmul
      unfold absDiff
      omega

variable {g : SplitGeometry} {l : KVCacheLayout}

theorem mem_ranges {i : ℕ} (hi : i < g.numBlocks) {c : BlockCopy} (hc : c ∈ g.rangesAt i) :
    c ∈ g.ranges :=
  mem_flatMap.mpr ⟨i, mem_range.mpr hi, hc⟩

theorem Admissible.segment_lt (h : g.Admissible) (hpos : 0 < g.numBlocks) :
    g.segmentBytes < g.kvStrideBytes := by
  have hapart := (pairwise_flatMap.mp h.apart).1 0 (mem_range.mpr hpos)
  have hkv := (pairwise_cons.mp hapart).1 _ (mem_singleton.mpr rfl)
  have hne := h.split
  simp only [BlockCopy.Apart, RangesApart] at hkv
  omega

theorem Admissible.last_le (h : g.Admissible) (hpos : 0 < g.numBlocks) :
    (g.numBlocks - 1) * g.stride + g.kvStrideBytes + g.segmentBytes ≤ g.sizeBytes := by
  have hlast := h.inside _ (mem_ranges (i := g.numBlocks - 1) (by omega)
    (mem_cons_of_mem _ (mem_singleton.mpr rfl)))
  simp only at hlast
  omega

theorem Admissible.absDiff_le (h : g.Admissible) {d : ℕ} (hpos : 0 < d) (hd : d ≤ g.numBlocks - 1) :
    g.segmentBytes ≤ absDiff g.kvStrideBytes (d * g.stride) := by
  have hpair := (pairwise_flatMap.mp h.apart).2
  have hblocks := pairwise_iff_getElem.mp hpair 0 d (by simpa using by omega)
    (by simpa using by omega) hpos
  simp only [getElem_range] at hblocks
  have hkv := hblocks _ (mem_cons_of_mem _ (mem_singleton.mpr rfl)) _ mem_cons_self
  simp only [BlockCopy.Apart, RangesApart, Nat.zero_mul] at hkv
  unfold absDiff
  omega

theorem segmentLayoutOf_split (hlt : g.segmentBytes < g.kvStrideBytes) :
    segmentLayoutOf g.segmentBytes g.kvStrideBytes 2 =
      .ok (.split g.kvStrideBytes) := by
  unfold segmentLayoutOf
  rw [if_neg (by decide), if_neg (by omega), if_neg (by omega), if_neg (by omega), if_pos rfl]

theorem new_eq (hptr : g.dataPtr ≠ 0) (hsize : 2 * g.segmentBytes ≤ g.sizeBytes)
    (hblocks : 0 < g.numBlocks) (hseg : 0 < g.segmentBytes)
    (hregion : g.dataPtr + g.sizeBytes < usizeLimit) (hlt : g.segmentBytes < g.kvStrideBytes) :
    new g.dataPtr g.sizeBytes g.numBlocks g.segmentBytes g.kvStrideBytes 2 =
      (g.layoutAt g.segmentBytes).checkBounds.bind fun _ => .ok (g.layoutAt g.segmentBytes) := by
  unfold new
  rw [if_neg hptr, if_neg (by omega), if_neg (by omega), checkedAdd_eq hregion,
    checkedMul_eq (by omega), segmentLayoutOf_split hlt]
  rfl

theorem new_ok_params {dataPtr sizeBytes numBlocks segmentBytes kv segments : ℕ}
    (h : new dataPtr sizeBytes numBlocks segmentBytes kv segments = .ok l) :
    0 < numBlocks ∧ 0 < segmentBytes ∧ dataPtr + sizeBytes < usizeLimit := by
  obtain ⟨-, h⟩ := ite_error_ok h
  obtain ⟨-, h⟩ := ite_error_ok h
  obtain ⟨hzero, h⟩ := ite_error_ok h
  obtain ⟨regionEnd, hregion, h⟩ := bind_ok h
  exact ⟨by omega, by omega, (checkedAdd_some (okOr_ok hregion)).2⟩

theorem Admissible.addressed (h : g.Admissible) (hpos : 0 < g.numBlocks)
    (hstride : g.segmentBytes ≤ g.stride) : (g.layoutAt g.stride).Addressed := by
  have hlast := h.last_le hpos
  refine ⟨hstride, ?_, fun d hd hle => h.absDiff_le hd hle⟩
  show g.kvStrideBytes + ((g.numBlocks - 1) * g.stride + g.segmentBytes) ≤ g.sizeBytes
  omega

theorem Admissible.dense_addressed (h : g.Admissible) (hd : g.DenseToo) :
    (g.layoutAt g.segmentBytes).Addressed := by
  have hlast := h.last_le hd.numBlocks_pos
  have hmul : (g.numBlocks - 1) * g.segmentBytes ≤ (g.numBlocks - 1) * g.stride :=
    Nat.mul_le_mul_left _ hd.stride_le
  have hkv := h.segment_lt hd.numBlocks_pos
  refine ⟨le_rfl, ?_, (dense_apart_iff hd.segmentBytes_pos hkv hd.numBlocks_pos).mpr hd.dense⟩
  show g.kvStrideBytes + ((g.numBlocks - 1) * g.segmentBytes + g.segmentBytes) ≤ g.sizeBytes
  omega

theorem buildLayout_registration (ssd : Bool) (layerName : String) :
    (g.registration layerName).buildLayout ssd =
      (do
        let dense ← new g.dataPtr g.sizeBytes g.numBlocks g.segmentBytes
          g.kvStrideBytes 2
        let strided ← dense.withBlockStride g.stride
        .ok (if ssd then strided.withSsdPadding ssdAlignment else strided)) := rfl

theorem Admissible.buildLayout_of_dense (h : g.Admissible) (hd : g.DenseToo) (ssd : Bool)
    (layerName : String) : ∃ l, (g.registration layerName).buildLayout ssd = .ok l := by
  have hkv := h.segment_lt hd.numBlocks_pos
  have hlast := h.last_le hd.numBlocks_pos
  have hregion := hd.region_lt
  have hsize : g.sizeBytes < usizeLimit := by omega
  have hnew := new_eq h.ptr_ne (by omega) hd.numBlocks_pos hd.segmentBytes_pos hregion hkv
  rw [(h.dense_addressed hd).checkBounds_split rfl hsize] at hnew
  have hstrided : (g.layoutAt g.segmentBytes).withBlockStride g.stride =
      .ok (g.layoutAt g.stride) := by
    have haddressed := h.addressed hd.numBlocks_pos hd.stride_le
    refine (if_neg (not_lt.mpr hd.stride_le)).trans ?_
    show (g.layoutAt g.stride).checkBounds.bind (fun _ => .ok (g.layoutAt g.stride)) = _
    rw [haddressed.checkBounds_split rfl hsize]
    rfl
  refine ⟨if ssd then (g.layoutAt g.stride).withSsdPadding ssdAlignment
    else g.layoutAt g.stride, ?_⟩
  rw [buildLayout_registration, hnew]
  show ((g.layoutAt g.segmentBytes).withBlockStride g.stride >>= _) = _
  rw [hstrided]
  rfl

theorem Admissible.dense_of_buildLayout (h : g.Admissible) {ssd : Bool} {layerName : String}
    (hl : (g.registration layerName).buildLayout ssd = .ok l) : g.DenseToo := by
  obtain ⟨dense, hdense, hl⟩ := bind_ok hl
  obtain ⟨strided, hstrided, -⟩ := bind_ok hl
  obtain ⟨hblocks, hseg, hregion⟩ := new_ok_params hdense
  have hkv := h.segment_lt hblocks
  have hlast := h.last_le hblocks
  have hregion' : g.dataPtr + g.sizeBytes < usizeLimit := hregion
  have hdense' := (new_eq h.ptr_ne (by omega) hblocks hseg hregion hkv).symm.trans hdense
  obtain ⟨u, hbounds, hdense'⟩ := bind_ok hdense'
  cases Except.ok.inj hdense'
  have haddressed := checkBounds_ok (l := g.layoutAt g.segmentBytes) hseg
    (by show g.sizeBytes < usizeLimit; omega) hbounds
  exact ⟨hblocks, hseg, hregion, Nat.le_of_not_lt (ite_error_ok hstrided).1,
    (dense_apart_iff hseg hkv hblocks).mp haddressed.2.2⟩

/-- **What acceptance takes.**  An admissible geometry is accepted exactly if its parameters are
non-zero, its region ends below the top of the address space, blocks are a segment or more apart,
and the dense layout of the same K and V would be admissible as well. -/
theorem accepted_iff_dense (g : SplitGeometry) (h : g.Admissible) (ssd : Bool)
    (layerName : String) :
    (∃ l, (g.registration layerName).buildLayout ssd = .ok l) ↔ g.DenseToo :=
  ⟨fun ⟨_, hl⟩ => h.dense_of_buildLayout hl, fun hd => h.buildLayout_of_dense hd _ _⟩

/-- Blocks of `segmentBytes = 1`, four bytes from one to the next, V two bytes past K. -/
def interleaved (numBlocks : ℕ) : SplitGeometry :=
  { dataPtr := 4096
    sizeBytes := 4 * numBlocks
    numBlocks
    segmentBytes := 1
    kvStrideBytes := 2
    stride := 4 }

theorem accepted_iff_dense_two_blocks :
    ∃ l, ((interleaved 2).registration "l").buildLayout true = .ok l := by
  have hadmissible : (interleaved 2).Admissible :=
    ⟨by decide, by decide, by decide, by decide, by decide⟩
  exact (accepted_iff_dense (interleaved 2) hadmissible true "l").mpr
    ⟨by decide, by decide, by decide, by decide, by decide⟩

/-- **A third block is refused.**  K and V alternate at stride four without overlap, but in the
dense layout, which nobody asked for, the first V segment lies on the third K segment. -/
theorem interleaved_rejected :
    (interleaved 3).Admissible ∧ ((interleaved 3).registration "l").buildLayout true =
      .error "kv_stride_bytes 2 overlaps blocks 2 apart" :=
  ⟨⟨by decide, by decide, by decide, by decide, by decide⟩, by decide⟩

end SplitGeometry

end PegaFlow.Gpu
