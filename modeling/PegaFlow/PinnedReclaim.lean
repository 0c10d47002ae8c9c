/-
PegaFlow/PinnedReclaim.lean

Allocation of pinned memory under pressure (`StorageEngine::allocate`).

If no shard has room, blocks are evicted in batches until the report of the node is not below the
request, or no free block is left; then the allocation is tried again.  Dropping an evicted block
frees an allocation only if it was the last pointer to it, so a batch may free nothing.
-/
import PegaFlow.PinnedPool
import PegaFlow.ReadCacheClasses
import PegaFlow.Tally

namespace PegaFlow

open List Option

namespace Pinned

open Resident SizeClasses

variable {A : OffsetAllocator} {K : Type} [DecidableEq K]

/-! ### The storage engine -/

/-- A sealed block, as far as its memory goes. -/
structure CachedBlock (A : OffsetAllocator) where
  memoryFootprint : ℕ
  allocations : List (PinnedAllocation A)

/-- What `StorageEngine::allocate` works on.  `strong` counts the pointers to each allocation. -/
structure StorageEngine (A : OffsetAllocator) (K : Type) where
  allocator : PinnedAllocator A
  readCache : ReadCacheInner K (CachedBlock A)
  strong : ℕ → ℕ
  nextArc : ℕ

variable (e : StorageEngine A K)

namespace StorageEngine

/-- `RECLAIM_BATCH_SIZE` -/
def reclaimBatchSize : ℕ := 512

/-- A pointer to an allocation is dropped; the last one frees it. -/
def dropAllocation (alloc : PinnedAllocation A) : StorageEngine A K :=
  { e with
    strong := Function.update e.strong alloc.arc (e.strong alloc.arc - 1)
    allocator :=
      if e.strong alloc.arc = 1 then e.allocator.freeAllocation alloc else e.allocator }

/-- The evicted blocks are dropped. -/
def dropBlocks (evicted : List (K × CachedBlock A)) : StorageEngine A K :=
  (evicted.flatMap fun b => b.2.allocations).foldl dropAllocation e

/-- The result of `reclaim_until_allocator_can_allocate`, with the sizes of its batches. -/
structure Reclaimed (A : OffsetAllocator) (K : Type) where
  freedBlocks : ℕ
  freedBytes : ℕ
  largestFree : ℕ
  batches : List ℕ
  engine : StorageEngine A K

/-- The loop of `reclaim_until_allocator_can_allocate`. -/
def reclaimLoop (held : K → Bool) (requiredBytes : ℕ) (node : Option ℕ) :
    ℕ → ℕ → ℕ → List ℕ → StorageEngine A K → Option (Reclaimed A K)
  | 0, _, _, _, _ => none
  | fuel + 1, freedBlocks, freedBytes, batches, e =>
    let largestFree := e.allocator.largestFreeAllocationForNode node
    if largestFree < requiredBytes then do
      let (evicted, readCache) ← e.readCache.removeLruBatch reclaimBatchSize held
      let e := { e with readCache }
      let batches := batches ++ [evicted.length]
      if evicted.isEmpty then some { freedBlocks, freedBytes, largestFree, batches, engine := e }
      else
        let batchBytes := (evicted.map fun b => b.2.memoryFootprint).foldl saturatingAdd 0
        reclaimLoop held requiredBytes node fuel (freedBlocks + evicted.length)
          (saturatingAdd freedBytes batchBytes) batches (e.dropBlocks evicted)
    else some { freedBlocks, freedBytes, largestFree, batches, engine := e }

/-- `reclaim_until_allocator_can_allocate` -/
def reclaim (fuel : ℕ) (held : K → Bool) (requiredBytes : ℕ) (node : Option ℕ)
    (e : StorageEngine A K) : Option (Reclaimed A K) :=
  reclaimLoop held requiredBytes node fuel 0 0 [] e

/-- One attempt: a new allocation has one pointer. -/
def tryAllocate (size : ℕ+) (node : Option ℕ) : Option (PinnedAllocation A) × StorageEngine A K :=
  match e.allocator.allocate size node with
  | (none, allocator) => (none, { e with allocator })
  | (some (shard, allocation), allocator) =>
    (some { arc := e.nextArc, node, shard, allocation },
      { e with
        allocator
        strong := Function.update e.strong e.nextArc 1
        nextArc := e.nextArc + 1 })

/-- What `allocate` returns, with the batches of each of its rounds. -/
structure Allocated (A : OffsetAllocator) (K : Type) where
  result : Option (PinnedAllocation A)
  rounds : List (List ℕ)
  engine : StorageEngine A K

/-- The loop of `allocate`. -/
def allocateLoop (held : K → Bool) (size : ℕ+) (node : Option ℕ) :
    ℕ → List (List ℕ) → StorageEngine A K → Option (Allocated A K)
  | 0, _, _ => none
  | fuel + 1, rounds, e =>
    match e.tryAllocate size node with
    | (some alloc, engine) => some { result := some alloc, rounds, engine }
    | (none, e) => do
      let r ← e.reclaim fuel held size node
      let rounds := rounds ++ [r.batches]
      if r.freedBlocks = 0 ∧ r.largestFree < size then
        -- the final retry
        let (result, engine) := r.engine.tryAllocate size node
        some { result, rounds, engine }
      else allocateLoop held size node fuel rounds r.engine

/-- `allocate` -/
def allocate (fuel : ℕ) (held : K → Bool) (size : ℕ+) (node : Option ℕ) (e : StorageEngine A K) :
    Option (Allocated A K) :=
  allocateLoop held size node fuel [] e

/-! ### Batches -/

variable {held : K → Bool} {node : Option ℕ} {e : StorageEngine A K}

omit [DecidableEq K] in
theorem readCache_dropBlocks (e : StorageEngine A K) (evicted : List (K × CachedBlock A)) :
    (e.dropBlocks evicted).readCache = e.readCache := by
  unfold dropBlocks
  generalize evicted.flatMap (fun b => b.2.allocations) = allocs
  induction allocs generalizing e with
  | nil => rfl
  | cons alloc allocs ih => exact (ih (e.dropAllocation alloc)).trans rfl

end StorageEngine

namespace StorageEngine

variable {held : K → Bool} {node : Option ℕ} {batches : List ℕ} {size : ℕ+}

/-! ### Reclaim -/

/-- The cache of the engine is one that its operations make. -/
def Consistent : Prop := ∃ T n, Tracks T n e.readCache

/-- The free blocks of the engine. -/
def freeBlocks (held : K → Bool) (e : StorageEngine A K) : ℕ := (freeKeys held e.readCache).length

/-- What the loop has done, from an engine and the batches before it. -/
structure ReclaimSpec (held : K → Bool) (requiredBytes : ℕ) (node : Option ℕ) (freedBlocks : ℕ)
    (batches : List ℕ) (e : StorageEngine A K) (r : Reclaimed A K) : Prop where
  consistent : r.engine.Consistent
  freed : r.freedBlocks + r.engine.freeBlocks held = freedBlocks + e.freeBlocks held
  largest : r.largestFree = r.engine.allocator.largestFreeAllocationForNode node
  exhausted : r.largestFree < requiredBytes → r.engine.freeBlocks held = 0
  batches : ∃ new, r.batches = batches ++ new ∧ r.freedBlocks = freedBlocks + new.sum ∧
    ∀ size ∈ new.dropLast, 0 < size
  held_stay : ∀ key, held key → r.engine.readCache.resident key = e.readCache.resident key

/-- **The reclaim loop** ends, and has room or no free block left. -/
theorem reclaimLoop_spec (held : K → Bool) (requiredBytes : ℕ) (node : Option ℕ) (fuel : ℕ)
    (freedBlocks freedBytes : ℕ) (batches : List ℕ) {e : StorageEngine A K} (he : e.Consistent)
    (hfuel : e.freeBlocks held < fuel) :
    ∃ r, reclaimLoop held requiredBytes node fuel freedBlocks freedBytes batches e = some r ∧
      ReclaimSpec held requiredBytes node freedBlocks batches e r := by
  induction fuel generalizing freedBlocks freedBytes batches e with
  | zero => exact absurd hfuel (Nat.not_lt_zero _)
  | succ fuel ih =>
    rw [reclaimLoop]
    split
    · next hlow =>
      obtain ⟨T, n, htracks⟩ := he
      obtain ⟨evicted, readCache, heq, htracks', hevicted⟩ := htracks.evicted reclaimBatchSize held
      have hlength := hevicted.length_freeKeys htracks.toRepresents
      have hstay : ∀ key, held key → readCache.resident key = e.readCache.resident key := by
        intro key hheld
        refine (hevicted.resident key fun hmem => ?_).1
        obtain ⟨b, hb, rfl⟩ := mem_map.mp hmem
        rw [(hevicted.blocks b hb).2] at hheld
        cases hheld
      have hconsistent : ∃ T n, Tracks T n readCache := ⟨_, n, htracks'⟩
      rw [heq, bind_eq_bind, bind_some]
      dsimp only
      split
      · next hempty =>
        -- the batch is empty, so no free block is left
        obtain rfl := isEmpty_iff.mp hempty
        have hnone : (freeKeys held e.readCache).length = 0 := by
          have hcount := hevicted.count
          simp only [length_nil, reclaimBatchSize] at hcount
          omega
        refine ⟨_, rfl, hconsistent, ?_, rfl, fun _ => ?_, ⟨[0], rfl, by simp, by simp⟩, hstay⟩
        · rw [freeBlocks, freeBlocks, hlength]
          rfl
        · rw [freeBlocks, ← hlength.trans (add_zero _)]
          exact hnone
      · next hsome =>
        have hpos : 0 < evicted.length := length_pos_of_ne_nil
          (fun hnil => hsome (isEmpty_iff.mpr hnil))
        have hcache : (({ e with readCache } : StorageEngine A K).dropBlocks evicted).readCache =
            readCache := readCache_dropBlocks _ _
        obtain ⟨r, hr, hspec⟩ := ih (freedBlocks + evicted.length) _ (batches ++ [evicted.length])
          (e := ({ e with readCache } : StorageEngine A K).dropBlocks evicted)
          (by rw [Consistent, hcache]; exact hconsistent)
          (by
            rw [freeBlocks, hcache]
            rw [freeBlocks] at hfuel
            omega)
        refine ⟨r, hr, hspec.consistent, ?_, hspec.largest, hspec.exhausted, ?_, ?_⟩
        · have hfreed := hspec.freed
          rw [freeBlocks, freeBlocks, hcache] at hfreed
          rw [freeBlocks, freeBlocks]
          omega
        · obtain ⟨new, hnew, hsum, hall⟩ := hspec.batches
          refine ⟨evicted.length :: new, ?_, ?_, ?_⟩
          · rw [hnew, append_assoc, singleton_append]
          · rw [hsum, sum_cons, add_assoc]
          · intro size hsize
            cases new with
            | nil => cases hsize
            | cons b bs =>
              rcases mem_cons.mp hsize with rfl | hsize
              · exact hpos
              · exact hall size hsize
        · intro key hheld
          rw [hspec.held_stay key hheld, hcache]
          exact hstay key hheld
    · next hroom =>
      exact ⟨_, rfl, he, rfl, rfl, fun hlow => absurd hlow hroom, ⟨[], by simp, by simp, by simp⟩,
        fun _ _ => rfl⟩

theorem reclaimLoop_mono {requiredBytes fuel freedBlocks freedBytes : ℕ} {e : StorageEngine A K}
    {r : Reclaimed A K}
    (h : reclaimLoop held requiredBytes node fuel freedBlocks freedBytes batches e = some r) :
    reclaimLoop held requiredBytes node (fuel + 1) freedBlocks freedBytes batches e = some r := by
  induction fuel generalizing freedBlocks freedBytes batches e with
  | zero => cases h
  | succ fuel ih =>
    rw [reclaimLoop] at h ⊢
    split at h
    · next hlow =>
      rw [if_pos hlow]
      obtain ⟨⟨evicted, readCache⟩, heq, h⟩ := bind_eq_some_iff.mp h
      rw [heq, bind_eq_bind, bind_some]
      dsimp only at h ⊢
      split at h
      · next hempty => rwa [if_pos hempty]
      · next hsome =>
        rw [if_neg hsome]
        exact ih h
    · next hroom => rwa [if_neg hroom]

/-! ### Allocate -/

omit [DecidableEq K] in
theorem tryAllocate_cases (e : StorageEngine A K) (size : ℕ+) (node : Option ℕ) :
    (∃ alloc engine, e.tryAllocate size node = (some alloc, engine) ∧
      engine.readCache = e.readCache) ∨
    (e.allocator.allocate size node).1 = none ∧
      e.tryAllocate size node =
        (none, { e with allocator := (e.allocator.allocate size node).2 }) := by
  unfold tryAllocate
  split
  · next heq => exact .inr ⟨by rw [heq], by rw [heq]⟩
  · exact .inl ⟨_, _, rfl, rfl⟩

omit [DecidableEq K] in
theorem tryAllocate_of_le_largest {e : StorageEngine A K}
    (h : (size : ℕ) ≤ e.allocator.largestFreeAllocationForNode node) :
    ∃ alloc engine, e.tryAllocate size node = (some alloc, engine) ∧
      engine.readCache = e.readCache := by
  rcases e.tryAllocate_cases size node with hsome | ⟨hnone, -⟩
  · exact hsome
  · have hroom := PinnedAllocator.allocate_of_le_largest h
    rw [hnone] at hroom
    cases hroom

/-- What the loop has done, from an engine and the rounds before it. -/
structure AllocateSpec (held : K → Bool) (size : ℕ+) (node : Option ℕ) (rounds : List (List ℕ))
    (e : StorageEngine A K) (out : Allocated A K) : Prop where
  evicted : out.result = none → out.engine.freeBlocks held = 0
  shards : out.result = none →
    ∀ shard ∈ out.engine.allocator.shardsOf node, shard.allocateLocked size = none
  rounds : ∃ new, out.rounds = rounds ++ new ∧ (∀ round ∈ new.dropLast, 0 < round.sum) ∧
    ∀ round ∈ new, ∀ batch ∈ round.dropLast, 0 < batch
  held_stay : ∀ key, held key → out.engine.readCache.resident key = e.readCache.resident key

theorem rounds_cons {new : List (List ℕ)} (hpos : 0 < batches.sum)
    (h : ∀ round ∈ new.dropLast, 0 < round.sum) :
    ∀ round ∈ (batches :: new).dropLast, 0 < round.sum := by
  intro round hround
  cases new with
  | nil => cases hround
  | cons next new =>
    rcases mem_cons.mp hround with rfl | hround
    · exact hpos
    · exact h round hround

/-- **The loop of `allocate`** ends. -/
theorem allocateLoop_spec (held : K → Bool) (size : ℕ+) (node : Option ℕ) (fuel : ℕ)
    (rounds : List (List ℕ)) {e : StorageEngine A K} (he : e.Consistent)
    (hfuel : e.freeBlocks held + 1 < fuel) :
    ∃ out, allocateLoop held size node fuel rounds e = some out ∧
      AllocateSpec held size node rounds e out := by
  induction fuel generalizing rounds e with
  | zero => exact absurd hfuel (Nat.not_lt_zero _)
  | succ fuel ih =>
    rw [allocateLoop]
    rcases e.tryAllocate_cases size node with ⟨alloc, engine, htry, hcache⟩ | ⟨hnone, htry⟩
    · rw [htry]
      exact ⟨_, rfl, nofun, nofun, ⟨[], by simp, by simp, by simp⟩,
        fun key _ => by rw [hcache]⟩
    · rw [htry]
      dsimp only
      obtain ⟨r, hr, hspec⟩ := reclaimLoop_spec held size node fuel 0 0 []
        (e := { e with allocator := (e.allocator.allocate size node).2 }) he
        (Nat.lt_of_succ_lt_succ hfuel)
      obtain ⟨batches, hbatches, hsum, hall⟩ := hspec.batches
      rw [nil_append] at hbatches
      rw [zero_add] at hsum
      have hfreed : r.freedBlocks + r.engine.freeBlocks held = e.freeBlocks held :=
        hspec.freed.trans (zero_add _)
      have hstay : ∀ key, held key →
          r.engine.readCache.resident key = e.readCache.resident key := hspec.held_stay
      rw [reclaim, hr, bind_eq_bind, bind_some]
      split
      · next hend =>
        refine ⟨_, rfl, ?_, ?_, ⟨[r.batches], rfl, by simp, by simpa [hbatches] using hall⟩, ?_⟩
        all_goals
          rcases r.engine.tryAllocate_cases size node with
            ⟨alloc, engine, htry', hcache⟩ | ⟨hnone', htry'⟩
        all_goals rw [htry']
        · exact nofun
        · exact fun _ => hspec.exhausted hend.2
        · exact nofun
        · intro _
          rw [PinnedAllocator.shardsOf_of_allocate_eq_none hnone']
          exact PinnedAllocator.allocate_eq_none.mp hnone'
        · intro key hheld
          rw [hcache]
          exact hstay key hheld
        · exact hstay
      · next hgo =>
        rcases Nat.eq_zero_or_pos r.freedBlocks with hzero | hpos
        · -- nothing was evicted, so there is room, and the next attempt is the last
          have hroom : (size : ℕ) ≤ r.engine.allocator.largestFreeAllocationForNode node := by
            rw [← hspec.largest]
            exact not_lt.mp fun hlow => hgo ⟨hzero, hlow⟩
          obtain ⟨alloc, engine, htry', hcache⟩ := tryAllocate_of_le_largest hroom
          obtain ⟨fuel, rfl⟩ := Nat.exists_eq_succ_of_ne_zero (show fuel ≠ 0 by omega)
          rw [allocateLoop, htry']
          refine ⟨_, rfl, nofun, nofun,
            ⟨[r.batches], rfl, by simp, by simpa [hbatches] using hall⟩, ?_⟩
          intro key hheld
          rw [hcache]
          exact hstay key hheld
        · obtain ⟨out, hout, hrest⟩ := ih (rounds ++ [r.batches]) hspec.consistent (by omega)
          obtain ⟨new, hnew, hrounds, hnewBatches⟩ := hrest.rounds
          refine ⟨out, hout, hrest.evicted, hrest.shards, ⟨r.batches :: new, ?_, ?_, ?_⟩, ?_⟩
          · rw [hnew, append_assoc, singleton_append]
          · exact rounds_cons (by rw [hbatches, ← hsum]; exact hpos) hrounds
          · intro round hround
            rcases mem_cons.mp hround with rfl | hround
            · rw [hbatches]
              exact hall
            · exact hnewBatches round hround
          · exact fun key hheld => (hrest.held_stay key hheld).trans (hstay key hheld)

theorem allocateLoop_mono {fuel : ℕ} {rounds : List (List ℕ)} {e : StorageEngine A K}
    {out : Allocated A K} (h : allocateLoop held size node fuel rounds e = some out) :
    allocateLoop held size node (fuel + 1) rounds e = some out := by
  induction fuel generalizing rounds e with
  | zero => cases h
  | succ fuel ih =>
    rw [allocateLoop] at h ⊢
    rcases htry : e.tryAllocate size node with ⟨alloc, engine⟩
    rw [htry] at h
    cases alloc with
    | some alloc => exact h
    | none =>
      dsimp only at h ⊢
      obtain ⟨r, hr, h⟩ := bind_eq_some_iff.mp h
      rw [reclaim, reclaimLoop_mono hr, bind_eq_bind, bind_some]
      split at h
      · next hend => rwa [if_pos hend]
      · next hgo =>
        rw [if_neg hgo]
        exact ih h

/-- Fuel for the free blocks and two more rounds is enough, and more changes nothing. -/
theorem allocate_spec (held : K → Bool) (size : ℕ+) (node : Option ℕ) {e : StorageEngine A K}
    (he : e.Consistent) :
    ∃ out, (∀ fuel, e.freeBlocks held + 2 ≤ fuel → e.allocate fuel held size node = some out) ∧
      AllocateSpec held size node [] e out := by
  obtain ⟨out, hout, hspec⟩ := allocateLoop_spec held size node (e.freeBlocks held + 2) [] he
    (Nat.lt_succ_self _)
  refine ⟨out, fun fuel hfuel => ?_, hspec⟩
  obtain ⟨more, rfl⟩ := Nat.exists_eq_add_of_le hfuel
  induction more with
  | zero => exact hout
  | succ more ih => exact allocateLoop_mono (ih (Nat.le_add_right _ _))

end StorageEngine

/-! ### A first-fit allocator -/

/-- The first free region, given by offset and size, that is large enough. -/
def takeFirst (units : ℕ) : List (ℕ × ℕ) → Option ((ℕ × ℕ) × List (ℕ × ℕ))
  | [] => none
  | (offset, size) :: rest =>
    if units ≤ size then some ((offset, units), (offset + units, size - units) :: rest)
    else (takeFirst units rest).map fun (raw, rest) => (raw, (offset, size) :: rest)

theorem takeFirst_isSome {units : ℕ} {regions : List (ℕ × ℕ)} :
    (takeFirst units regions).isSome ↔ ∃ region ∈ regions, units ≤ region.2 := by
  induction regions with
  | nil => simp [takeFirst]
  | cons region rest ih =>
    rw [takeFirst]
    split
    · next h => exact iff_of_true rfl ⟨region, mem_cons_self, h⟩
    · next h =>
      rw [isSome_map, ih]
      constructor
      · rintro ⟨region', hmem, hle⟩
        exact ⟨region', mem_cons_of_mem _ hmem, hle⟩
      · rintro ⟨region', hmem, hle⟩
        rcases mem_cons.mp hmem with rfl | hmem
        · exact absurd hle h
        · exact ⟨region', hmem, hle⟩

/-- The size of the largest region, rounded down to its class. -/
def largestClass (regions : List (ℕ × ℕ)) : ℕ :=
  let largest := (regions.map Prod.snd).max?.getD 0
  if largest < 2 ^ 32 then roundDown sizeClassMantissaBits largest else 0

/-- Regions are taken from the first free one that is large enough, and are not merged when they
are freed. -/
def firstFit : OffsetAllocator where
  State := List (ℕ × ℕ)
  Raw := ℕ × ℕ
  allocate regions units := takeFirst units regions
  free regions raw := raw :: regions
  offset := Prod.fst
  allocationSize _ raw := raw.2
  totalFreeSpace regions := (regions.map Prod.snd).sum
  largestFreeRegion := largestClass
  freeRegions regions := regions.map Prod.snd
  largest_lt regions := by
    unfold largestClass
    dsimp only
    split
    · next h => exact (roundDown_le _ _).trans_lt h
    · exact Nat.two_pow_pos 32
  largest_isClass regions := by
    unfold largestClass
    dsimp only
    split
    · exact isClass_roundDown _ _
    · exact ⟨0, 0, Nat.two_pow_pos _, rfl⟩
  largest_le regions h := by
    unfold largestClass at h ⊢
    dsimp only at h ⊢
    split at h
    · next hlt =>
      rw [if_pos hlt]
      cases hmax : (regions.map Prod.snd).max? with
      | none =>
        rw [hmax] at h
        exact absurd rfl h
      | some largest => exact ⟨largest, max?_mem hmax, roundDown_le _ _⟩
    · exact absurd rfl h
  allocate_isSome regions units _ hclass := by
    rw [takeFirst_isSome]
    constructor
    · rintro ⟨region, hmem, hle⟩
      exact ⟨region.2, mem_map_of_mem hmem, le_roundDown hclass hle⟩
    · rintro ⟨_, hmem, hle⟩
      obtain ⟨region, hregion, rfl⟩ := mem_map.mp hmem
      exact ⟨region, hregion, hle.trans (roundDown_le _ _)⟩

/-! ### Allocation with reclaim -/

/-- **Allocation with reclaim.**  For every cache content, set of held blocks and state of the
shards, `allocate` ends.  It returns nothing only if all blocks that are left are held and no shard
of the node has room; if the report of the node is not below the request it succeeds; every round
but the last evicts a block, and so does every batch but the last of a round.  Held blocks stay. -/
theorem allocate_with_reclaim (freq : Option (TinyLfu K)) (ops : List (Op K (CachedBlock A)))
    (held : K → Bool) (allocator : PinnedAllocator A) (strong : ℕ → ℕ) (nextArc : ℕ) (size : ℕ+)
    (node : Option ℕ) :
    ∃ readCache, exec (step CachedBlock.memoryFootprint) (ReadCacheInner.new freq) ops =
        some readCache ∧
      ∃ out : StorageEngine.Allocated A K,
        (∀ fuel, (freeKeys held readCache).length + 2 ≤ fuel →
          StorageEngine.allocate fuel held size node { allocator, readCache, strong, nextArc } =
            some out) ∧
        (out.result = none →
          (∀ key, (out.engine.readCache.resident key).isSome = true → held key = true) ∧
          ∀ shard ∈ out.engine.allocator.shardsOf node, shard.allocateLocked size = none) ∧
        ((size : ℕ) ≤ allocator.largestFreeAllocationForNode node → out.result.isSome = true) ∧
        (∀ p : PinnedAllocator A, (size : ℕ) ≤ p.largestFreeAllocationForNode node →
          (p.allocate size node).1.isSome = true) ∧
        (∀ round ∈ out.rounds.dropLast, 0 < round.sum) ∧
        (∀ round ∈ out.rounds, ∀ batch ∈ round.dropLast, 0 < batch) ∧
        ∀ key, held key = true →
          out.engine.readCache.resident key = readCache.resident key := by
  obtain ⟨readCache, T, n, hrun, htracks, -⟩ :=
    (tracks_new freq).exec CachedBlock.memoryFootprint ops
  obtain ⟨out, hout, hspec⟩ := StorageEngine.allocate_spec held size node
    (e := { allocator, readCache, strong, nextArc }) ⟨T, n, htracks⟩
  obtain ⟨new, hnew, hrounds, hbatches⟩ := hspec.rounds
  refine ⟨readCache, hrun, out, hout, fun hnone => ⟨fun key hkey => ?_, hspec.shards hnone⟩,
    fun hroom => ?_, fun p => PinnedAllocator.allocate_of_le_largest, hnew ▸ hrounds,
    hnew ▸ hbatches, hspec.held_stay⟩
  · -- no free block is left
    have hempty := eq_nil_of_length_eq_zero (hspec.evicted hnone)
    rw [← Bool.not_eq_false]
    intro hfree
    have hmem := mem_freeKeys.mpr ⟨hkey, hfree⟩
    rw [hempty] at hmem
    cases hmem
  · obtain ⟨alloc, engine, htry, -⟩ := StorageEngine.tryAllocate_of_le_largest
      (e := { allocator, readCache, strong, nextArc }) hroom
    have hfirst := hout _ (Nat.le_refl _)
    rw [StorageEngine.allocate, StorageEngine.allocateLoop, htry] at hfirst
    rw [← Option.some.inj hfirst]
    rfl

/-- A pool of 4096 bytes without a free region. -/
def fullPool : PinnedAllocator firstFit :=
  .global
    { shards := [{ unitSize := 512, unitSize_pos := by decide, totalUnits := 8, inner := [] }]
      cursor := 0 }

/-- A block of four units of the pool. -/
def halfPool (arc offset : ℕ) : CachedBlock firstFit where
  memoryFootprint := 2048
  allocations := [⟨arc, none, 0, ⟨offset * 512, 2048, (offset, 4)⟩⟩]

/-- The two blocks that fill the pool. -/
def bothHalves : List (Op ℕ (CachedBlock firstFit)) :=
  [.batchInsert [(0, halfPool 0 0), (1, halfPool 1 4)] .retained]

/-- The first block is held.  The only round evicts the second one, whose memory is handed out. -/
theorem allocate_with_reclaim_bothHalves :
    ∃ readCache,
      exec (step CachedBlock.memoryFootprint) (ReadCacheInner.new none) bothHalves =
        some readCache ∧
      ∃ out, StorageEngine.allocate 3 (· == 0) 1024 none ⟨fullPool, readCache, fun _ => 1, 2⟩ =
          some out ∧
        out.rounds = [[1]] ∧
        out.result.map (fun alloc => alloc.allocation.offsetBytes) = some 2048 ∧
        out.engine.readCache.resident 0 = readCache.resident 0 := by
  obtain ⟨readCache, hrun, out, hout, -, -, -, -, -, hheld⟩ :=
    allocate_with_reclaim none bothHalves (· == 0) fullPool (fun _ => 1) 2 1024 none
  have hfree : ((exec (step CachedBlock.memoryFootprint) (ReadCacheInner.new none) bothHalves).map
      fun readCache => (freeKeys (· == 0) readCache).length) = some 1 := by
    decide +kernel
  have heval : ((exec (step CachedBlock.memoryFootprint) (ReadCacheInner.new none) bothHalves).bind
      fun readCache =>
        (StorageEngine.allocate 3 (· == 0) 1024 none ⟨fullPool, readCache, fun _ => 1, 2⟩).map
          fun out => (out.rounds, out.result.map fun alloc => alloc.allocation.offsetBytes)) =
      some ([[1]], some 2048) := by
    decide +kernel
  rw [hrun, map_some] at hfree
  have hthree := hout 3 (by rw [some.inj hfree])
  rw [hrun, bind_some, hthree, map_some, some.injEq, Prod.mk.injEq] at heval
  exact ⟨readCache, hrun, out, hthree, heval.1, heval.2, hheld 0 rfl⟩

end Pinned

end PegaFlow
