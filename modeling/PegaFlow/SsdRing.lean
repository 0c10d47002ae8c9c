/-
PegaFlow/SsdRing.lean

`SsdRingBuffer`: space allocation on the shard files of the SSD cache together with
the index of what is stored there (`pegaflow-core/src/backing/ssd_cache.rs`).

The definitions follow the source call by call: `get`, `allocateContiguous`,
`advanceTail` (with its pruning loop), `commit`, and `prepareBatch` (filter once,
then allocate block after block).  The shard vector is a function on `Fin n`, so a
shard id is always in range; the hash map is a partial function on keys; logical offsets
are natural numbers (the source's `u64` never gets near its bound: a head counts the
bytes ever written to a shard).
-/
import Mathlib.Data.Fin.Basic
import Mathlib.Data.List.Pairwise
import PegaFlow.Block
import PegaFlow.RingSpace

namespace PegaFlow

open List Function

/-- Metadata for a block stored in the SSD cache. -/
structure SsdIndexEntry (n : ℕ) where
  shardId : Fin n
  begin : ℕ
  len : ℕ
  fileOffset : ℕ
  slots : List SlotMeta
deriving DecidableEq, Repr

/-- State of an index entry: only `committed` entries are readable. -/
inductive SsdEntryState (n : ℕ) where
  | writing (e : SsdIndexEntry n)
  | committed (e : SsdIndexEntry n)
deriving DecidableEq, Repr

def SsdEntryState.entry {n : ℕ} : SsdEntryState n → SsdIndexEntry n
  | .writing e | .committed e => e

/-- The keys of `order` are in allocation order, oldest first. -/
structure SsdShardRing where
  capacity : ℕ
  head : ℕ
  tail : ℕ
  order : List BlockKey
deriving DecidableEq, Repr

structure SsdRingBuffer (n : ℕ) where
  shards : Fin n → SsdShardRing
  nextShard : Fin n
  entries : BlockKey → Option (SsdEntryState n)

/-- A block with the allocation its bytes are to be written to. -/
structure WriteTask (n : ℕ) where
  key : BlockKey
  block : SealedBlock
  entry : SsdIndexEntry n
deriving DecidableEq, Repr

/-- Keys and blocks for runs on concrete inputs: one-byte hashes, one-byte blocks. -/
def byteKey (id : UInt8) : BlockKey where
  ns := "m"
  hash := [id]

def byteBlock (byte : UInt8) : SealedBlock :=
  .fromSlots [({ segments := [[byte]] }, { id := 0 })]

variable {n : ℕ}

/-- Two entries name the same allocation. -/
def SsdIndexEntry.SameAlloc (e f : SsdIndexEntry n) : Prop :=
  e.shardId = f.shardId ∧ e.begin = f.begin

instance (e f : SsdIndexEntry n) : Decidable (e.SameAlloc f) :=
  inferInstanceAs (Decidable (_ ∧ _))

namespace SsdRingBuffer

/-! ### Lookup -/

variable {key : BlockKey} {r : SsdRingBuffer n} {e : SsdIndexEntry n}

def newSharded [NeZero n] (shardCapacities : Fin n → ℕ) : SsdRingBuffer n where
  shards i := { capacity := shardCapacities i, head := 0, tail := 0, order := [] }
  nextShard := 0
  entries _ := none

/-- The logical offset has not been overwritten yet. -/
def IsOffsetValid (r : SsdRingBuffer n) (e : SsdIndexEntry n) : Prop :=
  (r.shards e.shardId).tail ≤ e.begin

instance (r : SsdRingBuffer n) (e : SsdIndexEntry n) : Decidable (r.IsOffsetValid e) :=
  inferInstanceAs (Decidable (_ ≤ _))

/-- Look up a committed entry; `none` if it is being written or has expired. -/
def get (r : SsdRingBuffer n) (key : BlockKey) : Option (SsdIndexEntry n) :=
  match r.entries key with
  | some (.committed e) => if r.IsOffsetValid e then some e else none
  | _ => none

theorem get_eq_some :
    r.get key = some e ↔ r.entries key = some (.committed e) ∧ r.IsOffsetValid e := by
  unfold get
  split
  · next e' he =>
    rw [he]
    split
    · next hv => simp only [Option.some.injEq, SsdEntryState.committed.injEq]; grind
    · next hv => simp only [reduceCtorEq, Option.some.injEq, SsdEntryState.committed.injEq]; grind
  · next hne =>
    simp only [reduceCtorEq, false_iff, not_and]
    intro he
    exact absurd he (hne e)

/-! ### Allocation -/

/-- The loop of `advance_tail`: drop keys from the front of the order while their entry
is missing or begins before the new tail. -/
def pruneOrder (newTail : ℕ) :
    List BlockKey → (BlockKey → Option (SsdEntryState n)) →
      List BlockKey × (BlockKey → Option (SsdEntryState n))
  | [], entries => ([], entries)
  | key :: order, entries =>
      match entries key with
      | some state =>
          if newTail ≤ state.entry.begin then (key :: order, entries)
          else pruneOrder newTail order (update entries key none)
      | none => pruneOrder newTail order (update entries key none)

/-- Advance the tail of one shard and prune what has expired. -/
def advanceTail (r : SsdRingBuffer n) (shardId : Fin n) (newTail : ℕ) : SsdRingBuffer n :=
  let shard := r.shards shardId
  if newTail ≤ shard.tail then r
  else
    let pruned := pruneOrder newTail shard.order r.entries
    { r with
      shards := update r.shards shardId { shard with tail := newTail, order := pruned.1 }
      entries := pruned.2 }

/-- Reserve contiguous space on a shard.  Returns `(begin, file_offset)`. -/
def allocateContiguous (r : SsdRingBuffer n) (shardId : Fin n) (size : ℕ) :
    Option ((ℕ × ℕ) × SsdRingBuffer n) :=
  let shard := r.shards shardId
  if size > shard.capacity then none
  else
    let begin := fitStart shard.capacity shard.head size
    let head := begin + size
    let r' := { r with shards := update r.shards shardId { shard with head := head } }
    some ((begin, begin % shard.capacity), r'.advanceTail shardId (head - shard.capacity))

/-! ### Prepare and commit -/

/-- One iteration of the prepare loop.  A block larger than the shard is dropped and the
round-robin cursor stays where it is. -/
def prepareWrite [NeZero n] (r : SsdRingBuffer n) (key : BlockKey) (block : SealedBlock) :
    Option (WriteTask n) × SsdRingBuffer n :=
  let size := block.memoryFootprint
  let shardId := r.nextShard
  match r.allocateContiguous shardId size with
  | none => (none, r)
  | some ((begin, fileOffset), r') =>
      let entry := { shardId, begin, len := size, fileOffset, slots := block.slotMetas }
      let shard := r'.shards shardId
      (some { key, block, entry },
        { shards := update r'.shards shardId { shard with order := shard.order ++ [key] }
          nextShard := r'.nextShard + 1
          entries := update r'.entries key (some (.writing entry)) })

def prepareWrites [NeZero n] (r : SsdRingBuffer n) :
    List (BlockKey × SealedBlock) → List (WriteTask n) × SsdRingBuffer n
  | [] => ([], r)
  | (key, block) :: rest =>
      let one := r.prepareWrite key block
      let more := prepareWrites one.2 rest
      (one.1.toList ++ more.1, more.2)

/-- Filter out the keys the index already has, then allocate the others in order.  The
filter runs once, before the first allocation. -/
def prepareBatch [NeZero n] (r : SsdRingBuffer n) (candidates : List (BlockKey × SealedBlock)) :
    List (WriteTask n) × SsdRingBuffer n :=
  r.prepareWrites (candidates.filter fun c => (r.entries c.1).isNone)

/-- Deliver the result of a write to the index, by key. -/
def commit (r : SsdRingBuffer n) (key : BlockKey) (success : Bool) : Bool × SsdRingBuffer n :=
  match r.entries key with
  | none => (false, r)
  | some (.committed _) => (true, r)
  | some (.writing e) =>
      if ¬ r.IsOffsetValid e then
        (false, { r with entries := update r.entries key none })
      else if success then
        (true, { r with entries := update r.entries key (some (.committed e)) })
      else
        (false, { r with entries := update r.entries key none })

/-! ### What the allocation does to the ring -/

variable {r' : SsdRingBuffer n} {block : SealedBlock} {t : WriteTask n} {state : SsdEntryState n}
  {shardId : Fin n} {newTail : ℕ}

theorem pruneOrder_entries {order : List BlockKey} {entries : BlockKey → Option (SsdEntryState n)}
    (h : (pruneOrder newTail order entries).2 key = some state) : entries key = some state := by
  induction order generalizing entries with
  | nil => exact h
  | cons front order ih =>
    -- a pruned front key maps to nothing afterwards
    have hdrop : update entries front none key = some state →
        entries key = some state := by
      rw [update_apply]
      split
      · intro hne; cases hne
      · exact id
    rw [pruneOrder] at h
    split at h
    · split at h
      · exact h
      · exact hdrop (ih h)
    · exact hdrop (ih h)

theorem advanceTail_entries (h : (r.advanceTail shardId newTail).entries key = some state) :
    r.entries key = some state := by
  unfold advanceTail at h
  dsimp only at h
  split at h
  · exact h
  · exact pruneOrder_entries h

/-- Advancing the tail touches one shard, and there only the tail, which never moves
back, and the order. -/
theorem advanceTail_shards (r : SsdRingBuffer n) (shardId : Fin n) (newTail : ℕ) :
    ∃ order, (r.advanceTail shardId newTail).shards = update r.shards shardId
      { r.shards shardId with tail := max (r.shards shardId).tail newTail, order } := by
  unfold advanceTail
  dsimp only
  split
  · next h =>
    refine ⟨(r.shards shardId).order, ?_⟩
    rw [max_eq_left h]
    exact (update_eq_self shardId r.shards).symm
  · next h =>
    refine ⟨(pruneOrder newTail (r.shards shardId).order r.entries).1, ?_⟩
    rw [max_eq_right (by omega)]

/-- What a successful allocation returns and changes. -/
theorem allocateContiguous_spec {size begin fileOffset : ℕ}
    (h : r.allocateContiguous shardId size = some ((begin, fileOffset), r')) :
    size ≤ (r.shards shardId).capacity ∧
    begin = fitStart (r.shards shardId).capacity (r.shards shardId).head size ∧
    fileOffset = begin % (r.shards shardId).capacity ∧
    (∃ order, r'.shards = update r.shards shardId
      { capacity := (r.shards shardId).capacity
        head := begin + size
        tail := max (r.shards shardId).tail (begin + size - (r.shards shardId).capacity)
        order }) ∧
    ∀ k state, r'.entries k = some state → r.entries k = some state := by
  unfold allocateContiguous at h
  dsimp only at h
  split at h
  · cases h
  · next hsize =>
    cases h
    refine ⟨not_lt.mp hsize, rfl, rfl, ?_, ?_⟩
    · obtain ⟨order, hshards⟩ := advanceTail_shards
        { r with shards := update r.shards shardId
                  { r.shards shardId with
                    head :=
                      fitStart (r.shards shardId).capacity (r.shards shardId).head size + size } }
        shardId
        (fitStart (r.shards shardId).capacity (r.shards shardId).head size + size -
          (r.shards shardId).capacity)
      refine ⟨order, ?_⟩
      rw [hshards]
      simp only [update_self, update_idem]
    · intro k state hst
      have := advanceTail_entries hst
      exact this

/-- What a successful iteration of the prepare loop leaves behind: a task whose
allocation starts at or after the old head, and a ring that differs from the old one in
that shard's pointers, in the new `writing` entry, and in entries that were pruned. -/
structure Prepared (r : SsdRingBuffer n) (key : BlockKey) (block : SealedBlock)
    (t : WriteTask n) (r' : SsdRingBuffer n) : Prop where
  key_eq : t.key = key
  block_eq : t.block = block
  len_eq : t.entry.len = block.memoryFootprint
  len_le : t.entry.len ≤ (r.shards t.entry.shardId).capacity
  begin_ge : (r.shards t.entry.shardId).head ≤ t.entry.begin
  offset_eq : t.entry.fileOffset = t.entry.begin % (r.shards t.entry.shardId).capacity
  fits : 0 < t.entry.len →
    t.entry.fileOffset + t.entry.len ≤ (r.shards t.entry.shardId).capacity
  capacity_eq : ∀ i, (r'.shards i).capacity = (r.shards i).capacity
  head_eq : (r'.shards t.entry.shardId).head = t.entry.begin + t.entry.len
  tail_eq : (r'.shards t.entry.shardId).tail =
    max (r.shards t.entry.shardId).tail
      (t.entry.begin + t.entry.len - (r.shards t.entry.shardId).capacity)
  shards_ne : ∀ i, i ≠ t.entry.shardId → r'.shards i = r.shards i
  entries_self : r'.entries key = some (.writing t.entry)
  entries_ne : ∀ k state, k ≠ key → r'.entries k = some state → r.entries k = some state

/-- **Inversion of one prepare iteration.**  Either the block exceeds the shard and
nothing changes, or its allocation is as `Prepared` says. -/
theorem prepareWrite_cases [NeZero n] (r : SsdRingBuffer n) (key : BlockKey) (block : SealedBlock) :
    r.prepareWrite key block = (none, r) ∨
      ∃ t r', r.prepareWrite key block = (some t, r') ∧ r.Prepared key block t r' := by
  unfold prepareWrite
  dsimp only
  rcases halloc : r.allocateContiguous r.nextShard block.memoryFootprint with
    - | ⟨⟨begin, fileOffset⟩, r₁⟩
  · left; rfl
  right
  refine ⟨_, _, rfl, ?_⟩
  obtain ⟨hle, hbegin, hoff, ⟨order, hshards⟩, hentries⟩ := allocateContiguous_spec halloc
  refine
    { key_eq := rfl, block_eq := rfl, len_eq := rfl, len_le := hle,
      begin_ge := by rw [hbegin]; exact le_fitStart, offset_eq := hoff,
      fits := ?_, capacity_eq := ?_, head_eq := ?_, tail_eq := ?_, shards_ne := ?_,
      entries_self := update_self _ _ _, entries_ne := ?_ }
  · intro hpos
    rw [hoff, hbegin]
    exact fitStart_fits (lt_of_lt_of_le hpos hle) hle
  · intro i
    by_cases hi : i = r.nextShard
    · subst hi
      simp only [hshards, update_self]
    · simp only [hshards, update_of_ne hi]
  · simp only [hshards, update_self]
  · simp only [hshards, update_self]
  · intro i hi
    simp only [hshards, update_of_ne hi]
  · intro k state hk hst
    have : r₁.entries k = some state := by simpa [update_of_ne hk] using hst
    exact hentries k state this

/-- **Induction over the prepare loop.**  A relation between the tasks produced so far
and the ring that survives every successful iteration holds at the end of the loop. -/
theorem prepareWrites_induct [NeZero n] {I : List (WriteTask n) → SsdRingBuffer n → Prop}
    {candidates : List (BlockKey × SealedBlock)}
    (hstep : ∀ key block ts r t r', (key, block) ∈ candidates → I ts r →
      r.Prepared key block t r' → I (ts ++ [t]) r') (ts : List (WriteTask n)) (h : I ts r) :
    I (ts ++ (r.prepareWrites candidates).1) (r.prepareWrites candidates).2 := by
  induction candidates generalizing ts r with
  | nil => simpa [prepareWrites] using h
  | cons c rest ih =>
    obtain ⟨key, block⟩ := c
    have hrest := fun key block ts r t r' hmem =>
      hstep key block ts r t r' (mem_cons_of_mem _ hmem)
    rcases prepareWrite_cases r key block with hnone | ⟨t, r', hsome, hprep⟩
    · simpa [prepareWrites, hnone] using ih hrest ts h
    · have := ih hrest (ts ++ [t]) (hstep key block ts r t r' mem_cons_self h hprep)
      simpa [prepareWrites, hsome] using this

theorem prepareWrites_sublist [NeZero n] (r : SsdRingBuffer n)
    (candidates : List (BlockKey × SealedBlock)) :
    ((r.prepareWrites candidates).1.map fun t => (t.key, t.block)).Sublist candidates := by
  induction candidates generalizing r with
  | nil => exact .slnil
  | cons c rest ih =>
    obtain ⟨key, block⟩ := c
    rcases prepareWrite_cases r key block with hnone | ⟨t, r', hsome, hprep⟩
    · simpa [prepareWrites, hnone] using (ih r).cons (key, block)
    · have := (ih r').cons_cons (key, block)
      simpa [prepareWrites, hsome, hprep.key_eq, hprep.block_eq] using this

theorem prepareBatch_sublist [NeZero n] (r : SsdRingBuffer n)
    (candidates : List (BlockKey × SealedBlock)) :
    ((r.prepareBatch candidates).1.map fun t => (t.key, t.block)).Sublist candidates :=
  (prepareWrites_sublist r _).trans filter_sublist

theorem Prepared.tail_mono (h : r.Prepared key block t r') (i : Fin n) :
    (r.shards i).tail ≤ (r'.shards i).tail := by
  by_cases hi : i = t.entry.shardId
  · subst hi
    rw [h.tail_eq]
    exact le_max_left _ _
  · rw [h.shards_ne i hi]

theorem prepareBatch_tail_mono [NeZero n] (r : SsdRingBuffer n)
    (candidates : List (BlockKey × SealedBlock)) (i : Fin n) :
    (r.shards i).tail ≤ ((r.prepareBatch candidates).2.shards i).tail := by
  refine prepareWrites_induct (I := fun _ r' => (r.shards i).tail ≤ (r'.shards i).tail)
    ?_ [] le_rfl
  intro key block ts r₁ t r₂ _ hle hp
  exact hle.trans (hp.tail_mono i)

/-! ### What a completion does to the index -/

/-- **Inversion of `commit`.**  The ring keeps its shards and every entry under another
key.  Under the key itself a valid `writing` entry becomes `committed` on success; in
every other case nothing that was not already readable becomes readable. -/
theorem commit_cases (r : SsdRingBuffer n) (key : BlockKey) (success : Bool) :
    (r.commit key success).2 = r ∧ (∀ e, r.entries key ≠ some (.writing e)) ∨
    (r.commit key success).2 = { r with entries := update r.entries key none } ∨
    ∃ e, r.entries key = some (.writing e) ∧ r.IsOffsetValid e ∧ success ∧
      (r.commit key success).2 =
        { r with entries := update r.entries key (some (.committed e)) } := by
  unfold commit
  rcases hk : r.entries key with - | ⟨e⟩ | e
  · exact .inl ⟨rfl, by simp⟩
  · by_cases hv : r.IsOffsetValid e
    · cases success with
      | false => right; left; simp [hv]
      | true => right; right; exact ⟨e, rfl, hv, rfl, by simp [hv]⟩
    · right; left; simp [hv]
  · exact .inl ⟨rfl, by simp⟩

theorem commit_shards (r : SsdRingBuffer n) (key : BlockKey) (success : Bool) :
    (r.commit key success).2.shards = r.shards := by
  rcases r.commit_cases key success with ⟨h, -⟩ | h | ⟨e, -, -, -, h⟩ <;> rw [h]

/-- A success that meets a valid `writing` entry makes it readable. -/
theorem get_commit_of_writing (he : r.entries key = some (.writing e))
    (hvalid : r.IsOffsetValid e) : (r.commit key true).2.get key = some e := by
  have hcommit : (r.commit key true).2 =
      { r with entries := update r.entries key (some (.committed e)) } := by
    simp [commit, he, hvalid]
  rw [hcommit, get_eq_some]
  exact ⟨update_self _ _ _, hvalid⟩

/-! ### The log of allocations

Everything ever allocated, oldest first.  The index forgets allocations, the device does
not: a write stays on its way to the file after its entry has expired.  So the geometry
of the ring is stated for the whole log. -/

variable {log : List (WriteTask n)}

/-- An allocation ends below the head, its offset is the cell of its position, and it does not
cross the end of the file. -/
structure Lies (shard : SsdShardRing) (e : SsdIndexEntry n) : Prop where
  le_head : e.begin + e.len ≤ shard.head
  offset_eq : e.fileOffset = e.begin % shard.capacity
  fits : 0 < e.len → e.fileOffset + e.len ≤ shard.capacity

theorem Prepared.head_mono (h : r.Prepared key block t r') (i : Fin n) :
    (r.shards i).head ≤ (r'.shards i).head := by
  by_cases hi : i = t.entry.shardId
  · subst hi
    have := h.begin_ge
    rw [h.head_eq]
    omega
  · rw [h.shards_ne i hi]

theorem Prepared.lies (hp : r.Prepared key block t r') :
    Lies (r'.shards t.entry.shardId) t.entry := by
  refine ⟨hp.head_eq.ge, ?_, ?_⟩
  · rw [hp.capacity_eq]
    exact hp.offset_eq
  · rw [hp.capacity_eq]
    exact hp.fits

theorem Lies.prepared (h : Lies (r.shards e.shardId) e) (hp : r.Prepared key block t r') :
    Lies (r'.shards e.shardId) e := by
  refine ⟨h.le_head.trans (hp.head_mono _), ?_, ?_⟩
  · rw [hp.capacity_eq]
    exact h.offset_eq
  · rw [hp.capacity_eq]
    exact h.fits

/-- What was allocated on the shard before lies before the new allocation. -/
theorem Lies.before_prepared (h : Lies (r.shards e.shardId) e) (hp : r.Prepared key block t r')
    (hshard : e.shardId = t.entry.shardId) : e.begin + e.len ≤ t.entry.begin := by
  have hle := h.le_head
  rw [hshard] at hle
  exact hle.trans hp.begin_ge

structure AllocLog (r : SsdRingBuffer n) (log : List (WriteTask n)) : Prop where
  /-- Within a shard, allocations follow each other without overlap. -/
  ordered : log.Pairwise fun a b =>
    a.entry.shardId = b.entry.shardId → a.entry.begin + a.entry.len ≤ b.entry.begin
  len_eq : ∀ t ∈ log, t.entry.len = t.block.memoryFootprint
  lies : ∀ t ∈ log, Lies (r.shards t.entry.shardId) t.entry
  tail_le_head : ∀ i, (r.shards i).tail ≤ (r.shards i).head
  window : ∀ i, (r.shards i).head ≤ (r.shards i).tail + (r.shards i).capacity

theorem allocLog_newSharded [NeZero n] (shardCapacities : Fin n → ℕ) :
    AllocLog (newSharded shardCapacities) [] where
  ordered := .nil
  len_eq := by simp
  lies := by simp
  tail_le_head _ := le_rfl
  window _ := Nat.zero_le _

section

variable (h : AllocLog r log)
include h

theorem AllocLog.congr (hshards : r'.shards = r.shards) : AllocLog r' log where
  ordered := h.ordered
  len_eq := h.len_eq
  lies := by rw [hshards]; exact h.lies
  tail_le_head := by rw [hshards]; exact h.tail_le_head
  window := by rw [hshards]; exact h.window

theorem AllocLog.prepared (hp : r.Prepared key block t r') : AllocLog r' (log ++ [t]) := by
  -- every clause is the old one for old tasks and a field of `Prepared` for the new one
  have hall : ∀ {P : WriteTask n → Prop}, (∀ u ∈ log, P u) → P t → ∀ u ∈ log ++ [t], P u := by
    intro P hold hnew u hu
    rcases mem_append.mp hu with hu | hu
    · exact hold u hu
    · rw [mem_singleton.mp hu]; exact hnew
  refine ⟨?_, ?_, ?_, ?_, ?_⟩
  · refine pairwise_append.mpr ⟨h.ordered, pairwise_singleton _ _, ?_⟩
    intro a ha b hb hshard
    rw [mem_singleton.mp hb] at hshard ⊢
    exact (h.lies a ha).before_prepared hp hshard
  · exact hall h.len_eq (by rw [hp.len_eq, hp.block_eq])
  · exact hall (fun u hu => (h.lies u hu).prepared hp) hp.lies
  · intro i
    by_cases hi : i = t.entry.shardId
    · subst hi
      have := h.tail_le_head t.entry.shardId
      have := hp.begin_ge
      rw [hp.tail_eq, hp.head_eq]
      exact max_le (by omega) (Nat.sub_le _ _)
    · rw [hp.shards_ne i hi]
      exact h.tail_le_head i
  · intro i
    by_cases hi : i = t.entry.shardId
    · subst hi
      rw [hp.head_eq, hp.tail_eq, hp.capacity_eq]
      omega
    · rw [hp.shards_ne i hi]
      exact h.window i

/-- Of two tasks in one shard, one lies before the other. -/
theorem AllocLog.before_or_after {u : WriteTask n} (ht : t ∈ log) (hu : u ∈ log) (hne : t ≠ u)
    (hshard : t.entry.shardId = u.entry.shardId) :
    t.entry.begin + t.entry.len ≤ u.entry.begin ∨
      u.entry.begin + u.entry.len ≤ t.entry.begin := by
  let R : WriteTask n → WriteTask n → Prop := fun a b =>
    a.entry.shardId = b.entry.shardId →
      a.entry.begin + a.entry.len ≤ b.entry.begin ∨ b.entry.begin + b.entry.len ≤ a.entry.begin
  have hsymm : Std.Symm R := ⟨fun _ _ hab hba => (hab hba.symm).symm⟩
  have hpair : log.Pairwise R := h.ordered.imp fun hab hshard => .inl (hab hshard)
  exact hpair.forall ht hu hne hshard

theorem AllocLog.pairwise_not_sameAlloc (hpos : ∀ t ∈ log, 0 < t.entry.len) :
    log.Pairwise fun a b => ¬ a.entry.SameAlloc b.entry := by
  refine List.Pairwise.imp_of_mem ?_ h.ordered
  intro a b ha hb hord hsame
  have hlen := hpos a ha
  have := hord hsame.1
  have := hsame.2
  omega

end

end SsdRingBuffer

end PegaFlow
