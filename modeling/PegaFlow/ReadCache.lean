/-
PegaFlow/ReadCache.lean

The resident blocks and their replacement classes (`read_cache.rs`, `cache.rs`).

A resident block is in three places: in the value map, in the LRU list of its class, which carries
its metadata, and in the byte counter of that class.  All of them change under one lock, so an
operation is a function of the state.  It is `none` where the source would panic: a byte counter
that underflows, an `expect`, or one of the debug assertions about the agreement of the lists.
-/
import PegaFlow.LruCache

namespace PegaFlow.Resident

variable {K V : Type} [DecidableEq K]

/-! ### Admission -/

/-- One row of the sketch: its counters and its hash function. -/
structure Row (K : Type) where
  counters : List ℕ
  hasher : K → ℕ
  counters_pos : 0 < counters.length

/-- The frequency sketch. -/
abbrev Estimator (K : Type) := List (Row K)

namespace Estimator

def index (row : Row K) (key : K) : ℕ := row.hasher key % row.counters.length

/-- `incr_no_overflow` on the counter of every row. -/
def incr (e : Estimator K) (key : K) : Estimator K :=
  e.map fun row =>
    { row with
      counters := row.counters.modify (index row key) fun c => if c = 255 then 255 else c + 1
      counters_pos := by rw [List.length_modify]; exact row.counters_pos }

/-- The estimated frequency of `key`. -/
def get (e : Estimator K) (key : K) : ℕ :=
  e.foldl (fun acc row =>
    min acc (row.counters.get ⟨index row key, Nat.mod_lt _ row.counters_pos⟩)) 255

/-- Right shift of all counters. -/
def age (e : Estimator K) (shift : ℕ) : Estimator K :=
  e.map fun row =>
    { row with
      counters := row.counters.map (· >>> shift)
      counters_pos := by rw [List.length_map]; exact row.counters_pos }

end Estimator

structure TinyLfu (K : Type) where
  estimator : Estimator K
  windowCounter : ℕ
  windowLimit : ℕ

def TinyLfu.incr (t : TinyLfu K) (key : K) : TinyLfu K :=
  if t.windowCounter = t.windowLimit ∨ t.windowCounter > t.windowLimit * 2 then
    { t with windowCounter := 0, estimator := (t.estimator.age 1).incr key }
  else { t with windowCounter := t.windowCounter + 1, estimator := t.estimator.incr key }

/-! ### The sketch never underestimates -/

inductive SketchOp (K : Type) where
  | incr (key : K)
  | age

def Estimator.apply (e : Estimator K) : SketchOp K → Estimator K
  | .incr key => e.incr key
  | .age => e.age 1

/-- What accesses do to the sketch. -/
def TinyLfu.trace : TinyLfu K → List K → List (SketchOp K)
  | _, [] => []
  | t, key :: keys =>
    if t.windowCounter = t.windowLimit ∨ t.windowCounter > t.windowLimit * 2 then
      .age :: .incr key :: (t.incr key).trace keys
    else .incr key :: (t.incr key).trace keys

omit [DecidableEq K] in
theorem TinyLfu.estimator_foldl_incr (t : TinyLfu K) (keys : List K) :
    (keys.foldl incr t).estimator = (t.trace keys).foldl Estimator.apply t.estimator := by
  induction keys generalizing t with
  | nil => rfl
  | cons key keys ih =>
    rw [List.foldl_cons, ih, trace]
    split <;> rename_i h
    · rw [incr, if_pos h]
      rfl
    · rw [incr, if_neg h]
      rfl

/-- The count that `key` alone would have. -/
def shadow (key : K) (count : ℕ) : SketchOp K → ℕ
  | .incr key' => if key' = key then min (count + 1) 255 else count
  | .age => count / 2

omit [DecidableEq K] in
theorem Estimator.le_get_iff {e : Estimator K} {key : K} {n : ℕ} :
    n ≤ e.get key ↔ n ≤ 255 ∧
      ∀ row ∈ e, n ≤ row.counters.get ⟨index row key, Nat.mod_lt _ row.counters_pos⟩ := by
  unfold get
  generalize 255 = acc
  induction e generalizing acc with
  | nil => simp
  | cons row e ih => simp only [List.foldl_cons, ih, Nat.le_min, List.forall_mem_cons, and_assoc]

/-- **Step lemma.**  A counter serves its keys together, so it is at least what each of them alone
would have. -/
theorem Estimator.shadow_le_get_apply {e : Estimator K} {key : K} {n : ℕ} (h : n ≤ e.get key)
    (op : SketchOp K) : shadow key n op ≤ (e.apply op).get key := by
  rw [le_get_iff] at h ⊢
  obtain ⟨hmax, hrows⟩ := h
  cases op with
  | incr key' =>
    refine ⟨by rw [shadow]; split <;> omega, fun row' hrow' => ?_⟩
    obtain ⟨row, hrow, rfl⟩ := List.mem_map.mp hrow'
    have hcount := hrows row hrow
    simp only [List.get_eq_getElem, index, List.length_modify, List.getElem_modify] at hcount ⊢
    rw [shadow]
    split_ifs with hkey hindex hindex <;> first | omega | exact absurd (by rw [hkey]) hindex
  | age =>
    refine ⟨by rw [shadow]; omega, fun row' hrow' => ?_⟩
    obtain ⟨row, hrow, rfl⟩ := List.mem_map.mp hrow'
    have hcount := hrows row hrow
    simp only [List.get_eq_getElem, index, List.length_map, List.getElem_map] at hcount ⊢
    exact Nat.div_le_div_right hcount

/-- **The estimate is not below the count of the key alone**, after every run of increments and
agings of the sketch, and so after every run of accesses. -/
theorem shadow_le_get (key : K) :
    (∀ (e : Estimator K) (ops : List (SketchOp K)),
      ops.foldl (shadow key) 0 ≤ (ops.foldl Estimator.apply e).get key) ∧
    ∀ (t : TinyLfu K) (keys : List K),
      (t.trace keys).foldl (shadow key) 0 ≤ (keys.foldl TinyLfu.incr t).estimator.get key := by
  have hrun : ∀ (ops : List (SketchOp K)) (e : Estimator K) n, n ≤ e.get key →
      ops.foldl (shadow key) n ≤ (ops.foldl Estimator.apply e).get key := by
    intro ops
    induction ops with
    | nil => exact fun _ _ h => h
    | cons op ops ih => exact fun e n h => ih _ _ (e.shadow_le_get_apply h op)
  refine ⟨fun e ops => hrun ops e 0 (Nat.zero_le _), fun t keys => ?_⟩
  rw [t.estimator_foldl_incr]
  exact hrun _ _ 0 (Nat.zero_le _)

/-- What an operation does to a counter of `key`: it counts every key that `index` sends to the
same place. -/
def rowCount (index : K → ℕ) (key : K) (count : ℕ) : SketchOp K → ℕ
  | .incr key' => if index key' = index key then if count = 255 then 255 else count + 1 else count
  | .age => count >>> 1

omit [DecidableEq K] in
/-- **The estimate in closed form.**  After every run of increments and agings it is the least of
the counts of the rows, each over all keys that share the counter. -/
theorem get_foldl_apply (e : Estimator K) (ops : List (SketchOp K)) (key : K) :
    (ops.foldl Estimator.apply e).get key = e.foldl (fun acc row => min acc
      (ops.foldl (rowCount (Estimator.index row) key)
        (row.counters.get ⟨Estimator.index row key, Nat.mod_lt _ row.counters_pos⟩))) 255 := by
  induction ops generalizing e with
  | nil => rfl
  | cons op ops ih =>
    rw [List.foldl_cons, ih]
    -- a row keeps its hash function and its width, so the keys that share a counter stay the same
    cases op with
    | incr key' =>
      rw [Estimator.apply, Estimator.incr, List.foldl_map]
      unfold Estimator.index
      simp only [List.foldl_cons, List.get_eq_getElem, List.length_modify, List.getElem_modify,
        rowCount]
    | age =>
      rw [Estimator.apply, Estimator.age, List.foldl_map]
      unfold Estimator.index
      simp only [List.foldl_cons, List.get_eq_getElem, List.length_map, List.getElem_map, rowCount]

inductive CacheInsertOutcome where
  | insertedNew
  | alreadyExists
  | rejected
  deriving DecidableEq

/-- LRU cache with TinyLFU-based admission. -/
structure TinyLfuCache (K V : Type) where
  lru : LruCache K V
  freq : Option (TinyLfu K)

namespace TinyLfuCache

variable (c : TinyLfuCache K V)

def get (key : K) : Option V × TinyLfuCache K V :=
  match c.lru.lookup key with
  | none => (none, c)
  | some v => (some v, { lru := c.lru.touch key, freq := c.freq.map (·.incr key) })

def containsKey (key : K) : Bool := (c.lru.lookup key).isSome

/-- `is_cache_owned_only`; `held` says which blocks have another strong owner. -/
def isCacheOwnedOnly (held : K → Bool) (key : K) : Bool :=
  c.containsKey key && !held key

/-- The candidate is colder than the victim. -/
def rejects (freq : Option (TinyLfu K)) (key : K) : Bool :=
  match freq, c.lru.lru with
  | some freq, some (victim, _) => freq.estimator.get key < freq.estimator.get victim
  | _, _ => false

def insert (c : TinyLfuCache K V) (key : K) (value : V) :
    CacheInsertOutcome × TinyLfuCache K V :=
  -- the access is recorded in any case
  let freq := c.freq.map (·.incr key)
  if c.containsKey key then (.alreadyExists, { c with freq := freq })
  else if c.rejects freq key then (.rejected, { c with freq := freq })
  else (.insertedNew, { lru := c.lru.insert key value, freq })

def remove (key : K) : TinyLfuCache K V :=
  { c with lru := c.lru.erase key }

def removeAll : List (K × V) × TinyLfuCache K V :=
  (c.lru.toList, { c with lru := ∅ })

end TinyLfuCache

/-! ### The state -/

inductive ResidentClass where
  | reclaimable
  | retained
  deriving DecidableEq

structure ResidentMetadata where
  generation : ℕ
  /-- Footprint at insertion, used for per-class byte accounting. -/
  bytes : ℕ
  deriving DecidableEq

/-- Resident bytes per replacement class. -/
structure ClassBytes where
  reclaimable : ℕ
  retained : ℕ
  deriving DecidableEq

structure ReadCacheInner (K V : Type) where
  cache : TinyLfuCache K V
  reclaimable : LruCache K ResidentMetadata
  retained : LruCache K ResidentMetadata
  nextGeneration : ℕ
  classBytes : ClassBytes
  pressured : Bool

namespace ReadCacheInner

/-- `ReadCache::new`, with the filter if admission is on. -/
def new (freq : Option (TinyLfu K)) : ReadCacheInner K V :=
  ⟨⟨∅, freq⟩, ∅, ∅, 0, ⟨0, 0⟩, false⟩

variable (s : ReadCacheInner K V)

def classLru : ResidentClass → LruCache K ResidentMetadata
  | .reclaimable => s.reclaimable
  | .retained => s.retained

variable (cls : ResidentClass)

def setClassLru (m : LruCache K ResidentMetadata) : ReadCacheInner K V :=
  match cls with
  | .reclaimable => { s with reclaimable := m }
  | .retained => { s with retained := m }

/-- The counter of a class (`class_bytes`). -/
def bytesOf : ResidentClass → ℕ
  | .reclaimable => s.classBytes.reclaimable
  | .retained => s.classBytes.retained

def setBytes (n : ℕ) : ReadCacheInner K V :=
  match cls with
  | .reclaimable => { s with classBytes := { s.classBytes with reclaimable := n } }
  | .retained => { s with classBytes := { s.classBytes with retained := n } }

def addBytes (n : ℕ) : ReadCacheInner K V :=
  s.setBytes cls (s.bytesOf cls + n)

/-- The `-=` of a counter: a panic when it underflows. -/
def subBytes (n : ℕ) : Option (ReadCacheInner K V) :=
  if n ≤ s.bytesOf cls then some (s.setBytes cls (s.bytesOf cls - n)) else none

/-- The metadata of a resident block, looked up as `resident_generations` does. -/
def metadata (key : K) : Option ResidentMetadata :=
  (s.reclaimable.lookup key).or (s.retained.lookup key)

/-! ### Operations on one key -/

def refreshRecency (key : K) : Option (ReadCacheInner K V) :=
  if (s.reclaimable.lookup key).isSome then some { s with reclaimable := s.reclaimable.touch key }
  else if (s.retained.lookup key).isSome then some { s with retained := s.retained.touch key }
  else if s.cache.containsKey key then none
  else some s

def insertBlock (fp : V → ℕ) (s : ReadCacheInner K V) (key : K) (block : V)
    (cls : ResidentClass) : Option (CacheInsertOutcome × ReadCacheInner K V) :=
  match s.cache.insert key block with
  | (.insertedNew, cache) =>
    let generation := (s.nextGeneration + 1) % 2 ^ 64
    let s := { s with cache := cache, nextGeneration := generation }
    let s := s.setClassLru cls ((s.classLru cls).insert key ⟨generation, fp block⟩)
    some (.insertedNew, s.addBytes cls (fp block))
  | (.alreadyExists, cache) =>
    (refreshRecency { s with cache := cache } key).map fun s => (.alreadyExists, s)
  | (.rejected, cache) => some (.rejected, { s with cache := cache })

/-- A hit refreshes the recency of the block in the cache and in its class. -/
def getBlock (key : K) : Option (Option V × ReadCacheInner K V) :=
  match s.cache.get key with
  | (none, cache) => some (none, { s with cache := cache })
  | (some block, cache) =>
    (refreshRecency { s with cache := cache } key).map fun s => (some block, s)

/-- The footprint moved, or nothing if the block stayed where it was. -/
def markReclaimableWithGeneration (key : K)
    (expectedGeneration : Option ℕ) : Option (Option ℕ × ReadCacheInner K V) :=
  if !s.cache.containsKey key then some (none, s)
  else if expectedGeneration.any fun g => !(s.retained.lookup key).any (·.generation = g) then
    some (none, s)
  else match s.retained.lookup key with
    | some md => (s.subBytes .retained md.bytes).map fun s =>
      let s := { s with retained := s.retained.erase key }
      let s := s.addBytes .reclaimable md.bytes
      (some md.bytes, { s with reclaimable := s.reclaimable.insert key md })
    | none => if (s.reclaimable.lookup key).isSome then some (none, s) else none

/-- `remove_lru`.  The fuel is the length of the list: every turn of the loop takes an entry. -/
def removeLru (cls : ResidentClass) :
    ℕ → ReadCacheInner K V → Option (Option (K × V) × ReadCacheInner K V)
  | 0, s => some (none, s)
  | fuel + 1, s =>
    match (s.classLru cls).lru with
    | none => some (none, s)
    | some (key, md) =>
      let s := s.setClassLru cls ((s.classLru cls).erase key)
      match s.cache.lru.lookup key with
      | none => removeLru cls fuel s
      | some block =>
        ({ s with cache := s.cache.remove key }.subBytes cls md.bytes).map fun s =>
          (some (key, block), s)

/-! ### Operations of the cache -/

/-- `batch_insert`, `batch_insert_refs`: the keys that are resident afterwards. -/
def batchInsert (fp : V → ℕ) (cls : ResidentClass) :
    List (K × V) → ReadCacheInner K V → Option (List K × ReadCacheInner K V)
  | [], s => some ([], s)
  | (key, block) :: blocks, s => do
    let (outcome, s) ← s.insertBlock fp key block cls
    let (residentKeys, s) ← batchInsert fp cls blocks s
    some (if outcome = .rejected then residentKeys else key :: residentKeys, s)

/-- Scan for a prefix of the keys, stopping at the first miss. -/
def getPrefixBlocks :
    List K → ReadCacheInner K V → Option (List V × ReadCacheInner K V)
  | [], s => some ([], s)
  | key :: keys, s => do
    match ← s.getBlock key with
    | (none, s) => some ([], s)
    | (some block, s) =>
      let (blocks, s) ← getPrefixBlocks keys s
      some (block :: blocks, s)

/-- Position-aligned membership, without stopping at a miss. -/
def getBlocksAligned :
    List K → ReadCacheInner K V → Option (List (Option V) × ReadCacheInner K V)
  | [], s => some ([], s)
  | key :: keys, s => do
    let (block, s) ← s.getBlock key
    let (blocks, s) ← getBlocksAligned keys s
    some (block :: blocks, s)

/-- The blocks that are there, with their keys. -/
def getBlocks (keys : List K) (s : ReadCacheInner K V) :
    Option (List (K × V) × ReadCacheInner K V) :=
  (getBlocksAligned keys s).map fun r =>
    ((keys.zip r.1).filterMap fun e => e.2.map fun block => (e.1, block), r.2)

def markReclaimable : List (K × Option ℕ) → ReadCacheInner K V → Option (ℕ × ReadCacheInner K V)
  | [], s => some (0, s)
  | (key, expected) :: hints, s => do
    let (moved, s) ← s.markReclaimableWithGeneration key expected
    let (count, s) ← markReclaimable hints s
    some (if moved.isSome then count + 1 else count, s)

/-- `mark_reclaimable_keys`: the number of blocks moved. -/
def markReclaimableKeys (keys : List K) (s : ReadCacheInner K V) :
    Option (ℕ × ReadCacheInner K V) :=
  markReclaimable (keys.map fun key => (key, none)) s

/-- `mark_reclaimable_hashes_if_generation`: hashes without a generation are skipped. -/
def markReclaimableIfGeneration (keys : List K) (generations : K → Option ℕ)
    (s : ReadCacheInner K V) : Option (ℕ × ReadCacheInner K V) :=
  markReclaimable (keys.filterMap fun key => (generations key).map fun g => (key, some g)) s

/-- The loop of `remove_lru_batch_from_class`; a block that is held elsewhere is used again. -/
def removeLruBatchFromClass (cls : ResidentClass) (batchSize : ℕ) (held : K → Bool) :
    ℕ → List (K × V) → ReadCacheInner K V → Option (List (K × V) × ReadCacheInner K V)
  | 0, removed, s => some (removed, s)
  | candidates + 1, removed, s =>
    if removed.length = batchSize then some (removed, s)
    else match (s.classLru cls).lru with
      | none => some (removed, s)
      | some (key, _) =>
        if s.cache.isCacheOwnedOnly held key then do
          match ← s.removeLru cls (s.classLru cls).entries.length with
          | (none, _) => none
          | (some block, s) =>
            removeLruBatchFromClass cls batchSize held candidates (removed ++ [block]) s
        else
          removeLruBatchFromClass cls batchSize held candidates removed
            (s.setClassLru cls ((s.classLru cls).touch key))

/-- All candidates of a class, once. -/
def evictClass (batchSize : ℕ) (held : K → Bool) (removed : List (K × V))
    (s : ReadCacheInner K V) : Option (List (K × V) × ReadCacheInner K V) :=
  removeLruBatchFromClass cls batchSize held (s.classLru cls).entries.length removed s

/-- Retained blocks, if the reclaimable ones were not enough. -/
def evictRest (batchSize : ℕ) (held : K → Bool) (removed : List (K × V))
    (s : ReadCacheInner K V) : Option (List (K × V) × ReadCacheInner K V) :=
  if removed.length < batchSize then evictClass .retained batchSize held removed s
  else some (removed, s)

/-- Pressure eviction: reclaimable blocks first. -/
def removeLruBatch (batchSize : ℕ) (held : K → Bool) (s : ReadCacheInner K V) :
    Option (List (K × V) × ReadCacheInner K V) := do
  let (removed, s) ← evictClass .reclaimable batchSize held [] s
  let (removed, s) ← evictRest batchSize held removed s
  some (removed, { s with pressured := s.pressured || !removed.isEmpty })

/-- Full cleanup.  The assertions say that every block has its metadata, that there are as many of
them as entries in the class lists, and that no entry is left over. -/
def removeAll (s : ReadCacheInner K V) : Option (List (K × V) × ReadCacheInner K V) :=
  let removed := s.cache.removeAll.1
  if (∀ e ∈ removed, (s.metadata e.1).isSome) ∧
      removed.length = s.reclaimable.entries.length + s.retained.entries.length ∧
      ∀ key ∈ s.reclaimable.keys ++ s.retained.keys, s.cache.containsKey key then
    some (removed,
      { s with
        cache := s.cache.removeAll.2
        reclaimable := ∅
        retained := ∅
        classBytes := ⟨0, 0⟩
        pressured := false })
  else none

end ReadCacheInner

/-- The operations on the read cache, each with what its environment decides. -/
inductive Op (K V : Type) where
  | batchInsert (blocks : List (K × V)) (cls : ResidentClass)
  | getPrefixBlocks (keys : List K)
  | getBlocks (keys : List K)
  | getBlocksAligned (keys : List K)
  | removeLruBatch (batchSize : ℕ) (held : K → Bool)
  | removeAll
  | markReclaimableKeys (keys : List K)
  | markReclaimableIfGeneration (keys : List K) (generations : K → Option ℕ)

/-- How many blocks an operation offers for insertion. -/
def Op.inserts : Op K V → ℕ
  | .batchInsert blocks _ => blocks.length
  | _ => 0

/-- The state after an operation, `none` where the source panics. -/
def step (fp : V → ℕ) (s : ReadCacheInner K V) : Op K V → Option (ReadCacheInner K V)
  | .batchInsert blocks cls => (s.batchInsert fp cls blocks).map Prod.snd
  | .getPrefixBlocks keys => (s.getPrefixBlocks keys).map Prod.snd
  | .getBlocks keys => (s.getBlocks keys).map Prod.snd
  | .getBlocksAligned keys => (s.getBlocksAligned keys).map Prod.snd
  | .removeLruBatch batchSize held => (s.removeLruBatch batchSize held).map Prod.snd
  | .removeAll => s.removeAll.map Prod.snd
  | .markReclaimableKeys keys => (s.markReclaimableKeys keys).map Prod.snd
  | .markReclaimableIfGeneration keys generations =>
    (s.markReclaimableIfGeneration keys generations).map Prod.snd

end PegaFlow.Resident
