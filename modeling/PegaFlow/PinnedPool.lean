/-
PegaFlow/PinnedPool.lean

The pools of pinned memory (`allocator.rs`, `pinned_pool.rs`).

The memory of a NUMA node is split into shards.  Each shard scales the bytes of a request to units
and the units to a size class, and asks `offset-allocator` for a region of that class; a request
goes from shard to shard until one has room.
-/
import Mathlib.Data.List.AList
import Mathlib.Data.PNat.Basic
import PegaFlow.SizeClasses

namespace PegaFlow

open List Option

namespace Pinned

open SizeClasses

/-- `SIZE_CLASS_MANTISSA_BITS` -/
def sizeClassMantissaBits : ℕ := 3

/-! ### The offset allocator -/

/-- What is assumed of `offset-allocator`.  `freeRegions` are the sizes of its free regions, in
units. -/
structure OffsetAllocator where
  State : Type
  Raw : Type
  allocate : State → ℕ → Option (Raw × State)
  free : State → Raw → State
  offset : Raw → ℕ
  allocationSize : State → Raw → ℕ
  totalFreeSpace : State → ℕ
  largestFreeRegion : State → ℕ
  freeRegions : State → List ℕ
  /-- The report is a `u32`. -/
  largest_lt : ∀ s, largestFreeRegion s < 2 ^ 32
  largest_isClass : ∀ s, IsClass sizeClassMantissaBits (largestFreeRegion s)
  largest_le : ∀ s, largestFreeRegion s ≠ 0 → ∃ region ∈ freeRegions s, largestFreeRegion s ≤ region
  allocate_isSome : ∀ s units, units ≠ 0 → IsClass sizeClassMantissaBits units →
    ((allocate s units).isSome ↔
      ∃ region ∈ freeRegions s, units ≤ roundDown sizeClassMantissaBits region)

variable {A : OffsetAllocator}

/-! ### Shards -/

variable {size : ℕ+} {poolSize : ℕ} {hint : Option ℕ+}

/-- The error of `ScaledOffsetAllocator::allocate`. -/
structure RequestTooLarge where
  requestedBytes : ℕ
  unitSize : ℕ
deriving DecidableEq, Repr

/-- An allocated region, in bytes. -/
structure Allocation (A : OffsetAllocator) where
  offsetBytes : ℕ
  sizeBytes : ℕ
  raw : A.Raw

/-- `ScaledOffsetAllocator`: units of `unitSize` bytes. -/
structure ScaledOffsetAllocator (A : OffsetAllocator) where
  unitSize : ℕ
  unitSize_pos : 0 < unitSize
  totalUnits : ℕ
  inner : A.State

/-- `size_class_units`: the least size class that is not below, if it is a `u32`. -/
def sizeClassUnits (units : ℕ) : Option ℕ :=
  let rounded := roundUp sizeClassMantissaBits units
  if rounded < 2 ^ 32 then some rounded else none

/-- `compute_unit_size`, where the product is a `u64`. -/
def computeUnitSize (poolSize : ℕ) (hint : Option ℕ+) : ℕ :=
  let maxUnits := 2 ^ 32 - 1
  let minUnitForCapacity := (poolSize + maxUnits - 1) / maxUnits
  let unit := max (hint.elim 512 PNat.val) minUnitForCapacity
  (unit + 512 - 1) / 512 * 512 % 2 ^ 64

/-- A unit size that the pool can be cut with. -/
def FitsUnits (poolSize unitSize : ℕ) : Prop :=
  512 ∣ unitSize ∧ 0 < unitSize ∧ poolSize / unitSize < 2 ^ 32

theorem fitsUnits_computeUnitSize (hpool : poolSize < 2 ^ 64)
    (hhint : ∀ h ∈ hint, (h : ℕ) ≤ 2 ^ 64 - 512) :
    FitsUnits poolSize (computeUnitSize poolSize hint) := by
  have hbase : 0 < hint.elim 512 PNat.val ∧ hint.elim 512 PNat.val ≤ 2 ^ 64 - 512 := by
    cases hint with
    | none => decide
    | some h => exact ⟨h.pos, hhint h rfl⟩
  unfold FitsUnits computeUnitSize
  dsimp only
  generalize hint.elim 512 PNat.val = base at hbase
  have hround : (max base ((poolSize + (2 ^ 32 - 1) - 1) / (2 ^ 32 - 1)) + 512 - 1) / 512 * 512 <
      2 ^ 64 := by omega
  rw [Nat.mod_eq_of_lt hround]
  exact ⟨Nat.dvd_mul_left _ _, by omega, Nat.div_lt_of_lt_mul (by omega)⟩

/-- Rounded up, a hint above `2 ^ 64 - 512` is `2 ^ 64`. -/
theorem computeUnitSize_eq_zero {hint : ℕ+} (hpool : poolSize < 2 ^ 64) (hlt : (hint : ℕ) < 2 ^ 64)
    (hgt : 2 ^ 64 - 512 < (hint : ℕ)) : computeUnitSize poolSize (some hint) = 0 := by
  unfold computeUnitSize
  dsimp only [Option.elim]
  have hround : (max (hint : ℕ) ((poolSize + (2 ^ 32 - 1) - 1) / (2 ^ 32 - 1)) + 512 - 1) / 512 *
      512 = 2 ^ 64 := by omega
  rw [hround, Nat.mod_self]

/-- The units fit exactly if rounding the hint up does not leave 64 bits. -/
theorem fitsUnits_iff (hpool : poolSize < 2 ^ 64) (hhint : ∀ h ∈ hint, (h : ℕ) < 2 ^ 64) :
    FitsUnits poolSize (computeUnitSize poolSize hint) ↔ ∀ h ∈ hint, (h : ℕ) ≤ 2 ^ 64 - 512 := by
  refine ⟨fun hfits h hh => ?_, fitsUnits_computeUnitSize hpool⟩
  by_contra hgt
  have hpos := hfits.2.1
  rw [hh, computeUnitSize_eq_zero hpool (hhint h hh) (not_le.mp hgt)] at hpos
  exact absurd hpos (lt_irrefl 0)

/-- **Size classes and units.**  A request gets the least class that is not below it, of which it
uses all but an eighth; it gets none only if there is no such class in 32 bits.  Unit sizes are
multiples of 512, and the units of a pool are counted in 32 bits, if and only if rounding the hint
up does not leave 64 bits. -/
theorem sizeClassUnits_least (units poolSize : ℕ) (hint : Option ℕ+) (hpool : poolSize < 2 ^ 64)
    (hhint : ∀ h ∈ hint, (h : ℕ) < 2 ^ 64) :
    (∀ c, sizeClassUnits units = some c →
      IsClass sizeClassMantissaBits c ∧ units ≤ c ∧ c < 2 ^ 32 ∧
      (∀ c', IsClass sizeClassMantissaBits c' → units ≤ c' → c ≤ c') ∧
      sizeClassUnits c = some c ∧ 8 * (c - units) ≤ units) ∧
    (sizeClassUnits units = none →
      ∀ c, IsClass sizeClassMantissaBits c → units ≤ c → 2 ^ 32 ≤ c) ∧
    (∀ units' c', units ≤ units' → sizeClassUnits units' = some c' →
      ∃ c ≤ c', sizeClassUnits units = some c) ∧
    (FitsUnits poolSize (computeUnitSize poolSize hint) ↔
      ∀ h ∈ hint, (h : ℕ) ≤ 2 ^ 64 - 512) := by
  have hsome : ∀ {units c}, sizeClassUnits units = some c →
      roundUp sizeClassMantissaBits units = c ∧ c < 2 ^ 32 := by
    intro units c h
    obtain ⟨hlt, heq⟩ := ite_none_right_eq_some.mp h
    cases heq
    exact ⟨rfl, hlt⟩
  refine ⟨fun c h => ?_, fun h c hc hle => ?_, fun units' c' hle h => ?_,
    fitsUnits_iff hpool hhint⟩
  · obtain ⟨rfl, hlt⟩ := hsome h
    have hclass := isClass_roundUp sizeClassMantissaBits units
    refine ⟨hclass, le_roundUp _ _, hlt, fun c' => roundUp_le, ?_,
      two_pow_mul_roundUp_sub_le sizeClassMantissaBits units⟩
    unfold sizeClassUnits
    rw [roundUp_eq_self hclass]
    exact if_pos hlt
  · by_contra hlt
    have hfits := (roundUp_le hc hle).trans_lt (not_le.mp hlt)
    rw [sizeClassUnits, if_pos hfits] at h
    cases h
  · obtain ⟨rfl, hlt⟩ := hsome h
    have hmono := roundUp_mono sizeClassMantissaBits hle
    exact ⟨_, hmono, if_pos (hmono.trans_lt hlt)⟩

/-- 17 units take a class of 18, and a terabyte is cut with a hint of 4096. -/
theorem sizeClassUnits_least_seventeen :
    8 * (18 - 17) ≤ 17 ∧ FitsUnits (2 ^ 40) (computeUnitSize (2 ^ 40) (some 4096)) := by
  obtain ⟨hclass, -, -, hunits⟩ :=
    sizeClassUnits_least 17 (2 ^ 40) (some 4096) (by decide) (by decide)
  exact ⟨(hclass 18 (by decide)).2.2.2.2.2, hunits.mpr (by decide)⟩

/-- With a hint within 511 bytes of the top the unit size is zero. -/
theorem not_fitsUnits_largest_hint :
    ¬ ∀ poolSize (hint : Option ℕ+), poolSize < 2 ^ 64 → (∀ h ∈ hint, (h : ℕ) < 2 ^ 64) →
      FitsUnits poolSize (computeUnitSize poolSize hint) := by
  intro h
  have := (h 4096 (some ⟨2 ^ 64 - 1, by decide⟩) (by decide) (by decide)).2.1
  exact absurd this (by decide)

namespace ScaledOffsetAllocator

/-- `allocate` -/
def allocate (a : ScaledOffsetAllocator A) (sizeBytes : ℕ) :
    Except RequestTooLarge (Option (Allocation A × ScaledOffsetAllocator A)) :=
  if sizeBytes = 0 then .ok none
  else
    let units := (sizeBytes + a.unitSize - 1) / a.unitSize
    if 2 ^ 32 ≤ units then .error ⟨sizeBytes, a.unitSize⟩
    else match sizeClassUnits units with
      | none => .error ⟨sizeBytes, a.unitSize⟩
      | some classUnits =>
        .ok ((A.allocate a.inner classUnits).map fun (raw, inner) =>
          ({ offsetBytes := A.offset raw * a.unitSize
             sizeBytes := A.allocationSize inner raw * a.unitSize
             raw },
            { a with inner }))

/-- `free` -/
def free (a : ScaledOffsetAllocator A) (allocation : Allocation A) : ScaledOffsetAllocator A :=
  { a with inner := A.free a.inner allocation.raw }

variable (a : ScaledOffsetAllocator A)

/-- The largest free region of `storage_report`, in bytes. -/
def largestFreeAllocation : ℕ :=
  A.largestFreeRegion a.inner * a.unitSize

/-- `PinnedMemoryPool::allocate_locked`: an error is logged, and counts as no room. -/
def allocateLocked (size : ℕ+) : Option (Allocation A × ScaledOffsetAllocator A) :=
  match a.allocate size with
  | .ok allocation => allocation
  | .error _ => none

/-- **A shard** whose report is not below the request has room for it. -/
theorem allocateLocked_of_le_largest (h : (size : ℕ) ≤ a.largestFreeAllocation) :
    (a.allocateLocked size).isSome := by
  have hsize : (size : ℕ) ≠ 0 := size.pos.ne'
  have hunit := a.unitSize_pos
  -- in units the request is at least one and not above the report
  have hunits : ((size : ℕ) + a.unitSize - 1) / a.unitSize ≤ A.largestFreeRegion a.inner := by
    refine Nat.le_of_lt_succ (Nat.div_lt_of_lt_mul ?_)
    rw [largestFreeAllocation, mul_comm] at h
    rw [Nat.mul_succ]
    omega
  have hone : ((size : ℕ) + a.unitSize - 1) / a.unitSize ≠ 0 := by
    refine (Nat.div_pos ?_ hunit).ne'
    omega
  unfold allocateLocked allocate
  rw [if_neg hsize]
  generalize ((size : ℕ) + a.unitSize - 1) / a.unitSize = units at hunits hone ⊢
  -- its class is not above the report either, since the report is a class
  have hbound := A.largest_lt a.inner
  have hclass := roundUp_le (A.largest_isClass a.inner) hunits
  have hup := le_roundUp sizeClassMantissaBits units
  have hsome : sizeClassUnits units = some (roundUp sizeClassMantissaBits units) :=
    if_pos (hclass.trans_lt hbound)
  obtain ⟨region, hregion, hle⟩ := A.largest_le a.inner (by omega)
  have hserved := (A.allocate_isSome a.inner _ (by omega) (isClass_roundUp _ _)).mpr
    ⟨region, hregion, le_roundDown (isClass_roundUp _ units) (hclass.trans hle)⟩
  rw [if_neg (by omega), hsome]
  rw [isSome_map]
  exact hserved

end ScaledOffsetAllocator

/-! ### Sharded pools -/

/-- `ShardedPinnedPool`: shards, and the cursor of the round robin. -/
structure ShardedPinnedPool (A : OffsetAllocator) where
  shards : List (ScaledOffsetAllocator A)
  cursor : ℕ

namespace ShardedPinnedPool

/-- The loop of `allocate`: the first of the given shards that has room. -/
def tryShards (shards : List (ScaledOffsetAllocator A)) (size : ℕ+) :
    List ℕ → Option ((ℕ × Allocation A) × List (ScaledOffsetAllocator A))
  | [] => none
  | idx :: rest =>
    match shards[idx]?.bind fun shard => shard.allocateLocked size with
    | some (allocation, shard) => some ((idx, allocation), shards.set idx shard)
    | none => tryShards shards size rest

/-- `allocate`: round robin, with all shards as fallback. -/
def allocate (pool : ShardedPinnedPool A) (size : ℕ+) :
    Option (ℕ × Allocation A) × ShardedPinnedPool A :=
  let n := pool.shards.length
  let start := pool.cursor % n
  let cursor := (pool.cursor + 1) % 2 ^ 64
  match tryShards pool.shards size ((range n).map fun i => (start + i) % n) with
  | some (allocation, shards) => (some allocation, { shards, cursor })
  | none => (none, { pool with cursor })

/-- `largest_free_allocation` -/
def largestFreeAllocation (pool : ShardedPinnedPool A) : ℕ :=
  (pool.shards.map ScaledOffsetAllocator.largestFreeAllocation).max?.getD 0

/-- `free_internal`, in the shard of the allocation. -/
def free (pool : ShardedPinnedPool A) (shard : ℕ) (allocation : Allocation A) :
    ShardedPinnedPool A :=
  { pool with shards := pool.shards.modify shard fun a => a.free allocation }

theorem tryShards_eq_none {shards : List (ScaledOffsetAllocator A)} {order : List ℕ} :
    tryShards shards size order = none ↔
      ∀ idx ∈ order, (shards[idx]?.bind fun shard => shard.allocateLocked size) = none := by
  induction order with
  | nil => simp [tryShards]
  | cons idx rest ih =>
    rw [tryShards, forall_mem_cons]
    split
    · next h => simp [h]
    · next h => rw [ih]; exact ⟨fun hrest => ⟨h, hrest⟩, fun hall => hall.2⟩

theorem mem_rotation {n start idx : ℕ} (h : idx < n) :
    idx ∈ (range n).map fun i => (start % n + i) % n := by
  have hn : 0 < n := by omega
  have hstart := Nat.mod_lt start hn
  refine mem_map.mpr ⟨(idx + n - start % n) % n, mem_range.mpr (Nat.mod_lt _ hn), ?_⟩
  rw [Nat.add_mod_mod, show start % n + (idx + n - start % n) = idx + n by omega,
    Nat.add_mod_right, Nat.mod_eq_of_lt h]

variable {pool : ShardedPinnedPool A}

/-- **No room** in the pool means no room in any shard. -/
theorem allocate_eq_none :
    (pool.allocate size).1 = none ↔ ∀ shard ∈ pool.shards, shard.allocateLocked size = none := by
  have hloop : (pool.allocate size).1 = none ↔ tryShards pool.shards size
      ((range pool.shards.length).map fun i =>
        (pool.cursor % pool.shards.length + i) % pool.shards.length) = none := by
    unfold allocate
    dsimp only
    split
    · next h =>
      rw [h]
      exact iff_of_false nofun nofun
    · next h =>
      rw [h]
      exact iff_of_true rfl rfl
  rw [hloop, tryShards_eq_none]
  constructor
  · intro hall shard hmem
    obtain ⟨idx, hidx, rfl⟩ := mem_iff_getElem.mp hmem
    have hnone := hall idx (mem_rotation hidx)
    rwa [getElem?_eq_getElem hidx] at hnone
  · intro hall idx _
    cases hget : pool.shards[idx]? with
    | none => rfl
    | some shard => exact hall shard (mem_of_getElem? hget)

theorem shards_of_allocate_eq_none (h : (pool.allocate size).1 = none) :
    (pool.allocate size).2.shards = pool.shards := by
  unfold allocate at h ⊢
  dsimp only at h ⊢
  split at h
  · cases h
  · rfl

theorem allocate_of_le_largest (h : (size : ℕ) ≤ pool.largestFreeAllocation) :
    (pool.allocate size).1.isSome := by
  rw [isSome_iff_ne_none]
  intro hnone
  have hall := allocate_eq_none.mp hnone
  unfold largestFreeAllocation at h
  cases hmax : (pool.shards.map ScaledOffsetAllocator.largestFreeAllocation).max? with
  | none =>
    rw [hmax] at h
    exact absurd h (not_le.mpr size.pos)
  | some largest =>
    rw [hmax] at h
    obtain ⟨shard, hshard, rfl⟩ := mem_map.mp (max?_mem hmax)
    have hsome := shard.allocateLocked_of_le_largest h
    rw [hall shard hshard] at hsome
    cases hsome

end ShardedPinnedPool

/-! ### NUMA nodes -/

/-- `PinnedAllocator`: one pool, or one for each NUMA node. -/
inductive PinnedAllocator (A : OffsetAllocator) where
  | global (pool : ShardedPinnedPool A)
  | numa (pools : AList fun _ : ℕ => ShardedPinnedPool A)

/-- `PinnedAllocation`: the shard it came from is that of the node it was allocated for.  `arc`
identifies the shared pointer. -/
structure PinnedAllocation (A : OffsetAllocator) where
  arc : ℕ
  node : Option ℕ
  shard : ℕ
  allocation : Allocation A

namespace PinnedAllocator

/-- The pool of a node.  A global pool serves all nodes; among the pools of NUMA nodes there is
none for the unknown node. -/
def pool (p : PinnedAllocator A) (node : Option ℕ) : Option (ShardedPinnedPool A) :=
  match p with
  | global pool => some pool
  | numa pools => node.bind pools.lookup

variable (p : PinnedAllocator A)

def setPool (node : Option ℕ) (pool : ShardedPinnedPool A) : PinnedAllocator A :=
  match p, node with
  | global _, _ => global pool
  | numa pools, some node => numa (pools.insert node pool)
  | numa pools, none => numa pools

/-- `allocate` -/
def allocate (p : PinnedAllocator A) (size : ℕ+) (node : Option ℕ) :
    Option (ℕ × Allocation A) × PinnedAllocator A :=
  match p.pool node with
  | none => (none, p)
  | some pool => ((pool.allocate size).1, p.setPool node (pool.allocate size).2)

/-- `largest_free_allocation_for_node` -/
def largestFreeAllocationForNode (node : Option ℕ) : ℕ :=
  ((p.pool node).map ShardedPinnedPool.largestFreeAllocation).getD 0

/-- What happens when the last pointer to an allocation is dropped. -/
def freeAllocation (alloc : PinnedAllocation A) : PinnedAllocator A :=
  match p.pool alloc.node with
  | none => p
  | some pool => p.setPool alloc.node (pool.free alloc.shard alloc.allocation)

/-- The shards of a node. -/
def shardsOf (node : Option ℕ) : List (ScaledOffsetAllocator A) :=
  ((p.pool node).map ShardedPinnedPool.shards).getD []

variable {node : Option ℕ} {p : PinnedAllocator A}

theorem pool_setPool (h : p.pool node ≠ none) (pool' : ShardedPinnedPool A) :
    (p.setPool node pool').pool node = some pool' := by
  cases p with
  | global => rfl
  | numa pools =>
    cases node with
    | none => exact absurd rfl h
    | some node => exact AList.lookup_insert pools

/-- **No room** on the node means no room in any of its shards. -/
theorem allocate_eq_none :
    (p.allocate size node).1 = none ↔
      ∀ shard ∈ p.shardsOf node, shard.allocateLocked size = none := by
  unfold allocate shardsOf
  cases p.pool node with
  | none => simp
  | some pool => exact ShardedPinnedPool.allocate_eq_none

theorem shardsOf_of_allocate_eq_none (h : (p.allocate size node).1 = none) :
    (p.allocate size node).2.shardsOf node = p.shardsOf node := by
  unfold allocate at h ⊢
  split at h
  · rfl
  · next pool hpool =>
    have hset := pool_setPool (hpool ▸ some_ne_none pool : p.pool node ≠ none)
      (pool.allocate size).2
    unfold shardsOf
    rw [hset, hpool, map_some, map_some,
      ShardedPinnedPool.shards_of_allocate_eq_none h]

/-- **Room.**  A node whose report is not below the request has room for it. -/
theorem allocate_of_le_largest (h : (size : ℕ) ≤ p.largestFreeAllocationForNode node) :
    (p.allocate size node).1.isSome := by
  unfold largestFreeAllocationForNode at h
  unfold allocate
  cases hpool : p.pool node with
  | none =>
    rw [hpool] at h
    exact absurd h (not_le.mpr size.pos)
  | some pool =>
    rw [hpool] at h
    exact ShardedPinnedPool.allocate_of_le_largest h

end PinnedAllocator

end Pinned

end PegaFlow
