/-
PegaFlow/SsdRingInvariant.lean

The invariant of the SSD ring over whole runs of `prepare_batch` and `commit`.

Every entry of the index belongs to an allocation in the log (`Logged`): pruning, overwriting and
committing never move an entry.  Two entries that are both still valid lie in one window of at
most `capacity` logical positions, and there distinct positions have distinct cells
(`cell_ne_of_window`).
-/
import Mathlib.Order.Interval.Finset.Nat
import PegaFlow.GpuLayout
import PegaFlow.Run
import PegaFlow.SsdRing

namespace PegaFlow

open List Function

open Gpu (ssdAlignment)

variable {n : ℕ}

/-- The bytes of the shard's file that an entry occupies. -/
def SsdIndexEntry.cells (e : SsdIndexEntry n) : Finset ℕ :=
  Finset.Ico e.fileOffset (e.fileOffset + e.len)

/-- Split the cache's capacity evenly over the shards, rounded down to the alignment.  The
caller has at least one shard. -/
def alignedShardCapacity (capacityBytes shardCount : ℕ) : Except String ℕ :=
  let raw := capacityBytes / shardCount
  let capacity := raw / ssdAlignment * ssdAlignment
  if capacity = 0 then
    .error "SSD cache capacity is too small for the requested shard count"
  else .ok capacity

namespace SsdRingBuffer

/-! ### What the ring promises -/

/-- Where a valid entry of a shard lies. -/
structure Placed (shard : SsdShardRing) (e : SsdIndexEntry n) : Prop where
  tail_le : shard.tail ≤ e.begin
  le_head : e.begin + e.len ≤ shard.head
  offset_eq : e.fileOffset = e.begin % shard.capacity
  fits : e.fileOffset + e.len ≤ shard.capacity

variable (r : SsdRingBuffer n)

/-- The ring invariant: the window of each shard is no longer than its file, a valid entry is
placed inside it, and two valid entries of one shard share no byte of the file. -/
structure Sound : Prop where
  tail_le_head : ∀ i, (r.shards i).tail ≤ (r.shards i).head
  window : ∀ i, (r.shards i).head - (r.shards i).tail ≤ (r.shards i).capacity
  placed : ∀ key state, r.entries key = some state → r.IsOffsetValid state.entry →
    Placed (r.shards state.entry.shardId) state.entry
  disjoint : ∀ key key' state state', key ≠ key' →
    r.entries key = some state → r.entries key' = some state' →
    r.IsOffsetValid state.entry → r.IsOffsetValid state'.entry →
    state.entry.shardId = state'.entry.shardId →
    Disjoint state.entry.cells state'.entry.cells

/-! ### What one operation keeps -/

variable {e : SsdIndexEntry n} {shard : SsdShardRing} {key : BlockKey} {block : SealedBlock}
  {t : WriteTask n}

/-- **Two allocations inside one window share no byte.**  The second one starts where the first
ends or later, and ends at most one turn after the first begins. -/
theorem Lies.disjoint_of_before {e' : SsdIndexEntry n} (he : Lies shard e) (he' : Lies shard e')
    (hwindow : shard.head ≤ shard.tail + shard.capacity) (hvalid : shard.tail ≤ e.begin)
    (hbefore : e.begin + e.len ≤ e'.begin) : Disjoint e.cells e'.cells := by
  have hturn : e'.begin + e'.len ≤ e.begin + shard.capacity := by
    have := he'.le_head
    omega
  rw [Finset.disjoint_left]
  intro cell hcell hcell'
  rw [SsdIndexEntry.cells, Finset.mem_Ico] at hcell hcell'
  have hfits := he.fits (by omega)
  have hfits' := he'.fits (by omega)
  rw [he.offset_eq] at hcell hfits
  rw [he'.offset_eq] at hcell' hfits'
  obtain ⟨i, rfl⟩ := Nat.exists_eq_add_of_le hcell.1
  obtain ⟨j, hj⟩ := Nat.exists_eq_add_of_le hcell'.1
  exact cell_ne_of_window hfits hfits' hbefore hturn (by omega) (by omega) hj

/-- The log of all allocations, and every entry belongs to an allocation of its key. -/
structure Logged (r : SsdRingBuffer n) (log : List (WriteTask n)) : Prop extends
    AllocLog r log where
  indexed : ∀ key state, r.entries key = some state →
    ∃ t ∈ log, t.key = key ∧ t.entry = state.entry

variable {r r' : SsdRingBuffer n} {log : List (WriteTask n)}

theorem logged_newSharded [NeZero n] (shardCapacities : Fin n → ℕ) :
    (newSharded shardCapacities).Logged [] :=
  ⟨allocLog_newSharded shardCapacities, fun _ _ h => nomatch h⟩

theorem commit_entries {success : Bool} {k : BlockKey} {state' : SsdEntryState n}
    (h : (r.commit key success).2.entries k = some state') :
    ∃ state, r.entries k = some state ∧ state.entry = state'.entry := by
  rcases r.commit_cases key success with ⟨heq, -⟩ | heq | ⟨e, he, -, -, heq⟩ <;> rw [heq] at h
  · exact ⟨state', h, rfl⟩
  · rcases eq_or_ne k key with rfl | hk
    · simp only [update_self, reduceCtorEq] at h
    · exact ⟨state', by simpa only [update_of_ne hk] using h, rfl⟩
  · rcases eq_or_ne k key with rfl | hk
    · simp only [update_self, Option.some.injEq] at h
      exact ⟨_, he, by rw [← h]; rfl⟩
    · exact ⟨state', by simpa only [update_of_ne hk] using h, rfl⟩

theorem Logged.commit (h : r.Logged log) (key : BlockKey) (success : Bool) :
    (r.commit key success).2.Logged log := by
  refine ⟨h.congr (commit_shards r key success), ?_⟩
  intro k state' hst'
  obtain ⟨state, hst, heq⟩ := commit_entries hst'
  rw [← heq]
  exact h.indexed k state hst

theorem Logged.prepared (h : r.Logged log) (hp : r.Prepared key block t r') :
    r'.Logged (log ++ [t]) := by
  refine ⟨h.toAllocLog.prepared hp, ?_⟩
  intro k state hst
  rcases eq_or_ne k key with rfl | hk
  · rw [hp.entries_self] at hst
    cases hst
    exact ⟨t, mem_append_right _ mem_cons_self, hp.key_eq, rfl⟩
  · obtain ⟨u, hu, hown⟩ := h.indexed k state (hp.entries_ne k state hk hst)
    exact ⟨u, mem_append_left _ hu, hown⟩

theorem Logged.lies_entry (h : r.Logged log) {state : SsdEntryState n}
    (hst : r.entries key = some state) : Lies (r.shards state.entry.shardId) state.entry := by
  obtain ⟨u, hu, -, hentry⟩ := h.indexed key state hst
  exact hentry ▸ h.lies u hu

/-- An empty block fits because the cell of its position is inside the file. -/
theorem Lies.fits_of_pos (h : Lies shard e) (hpos : 0 < shard.capacity) :
    e.fileOffset + e.len ≤ shard.capacity := by
  rcases Nat.eq_zero_or_pos e.len with hlen | hlen
  · rw [hlen, h.offset_eq]
    exact (Nat.mod_lt _ hpos).le
  · exact h.fits hlen

theorem Logged.sound (h : r.Logged log) (hpos : ∀ i, 0 < (r.shards i).capacity) : r.Sound where
  tail_le_head := h.tail_le_head
  window i := by
    have := h.window i
    omega
  placed key state hst hvalid := by
    have hlies := h.lies_entry hst
    exact ⟨hvalid, hlies.le_head, hlies.offset_eq, hlies.fits_of_pos (hpos _)⟩
  disjoint key key' state state' hne hst hst' hvalid hvalid' hshard := by
    have hlies := h.lies_entry hst
    have hlies' := h.lies_entry hst'
    obtain ⟨u, hu, hkey, hentry⟩ := h.indexed key state hst
    obtain ⟨u', hu', hkey', hentry'⟩ := h.indexed key' state' hst'
    have huu' : u ≠ u' := fun heq => hne (by rw [← hkey, ← hkey', heq])
    have hvalid' : (r.shards state'.entry.shardId).tail ≤ state'.entry.begin := hvalid'
    rw [← hshard] at hlies' hvalid'
    have horder := h.before_or_after hu hu' huu' (by rw [hentry, hentry', hshard])
    rw [hentry, hentry'] at horder
    rcases horder with hbefore | hafter
    · exact hlies.disjoint_of_before hlies' (h.window _) hvalid hbefore
    · exact (hlies'.disjoint_of_before hlies (h.window _) hvalid' hafter).symm

/-! ### Alignment -/

/-- Capacities and heads are multiples of the alignment, and so is every offset indexed. -/
structure Aligned : Prop where
  capacity : ∀ i, ssdAlignment ∣ (r.shards i).capacity
  head : ∀ i, ssdAlignment ∣ (r.shards i).head
  offset : ∀ key state, r.entries key = some state → ssdAlignment ∣ state.entry.fileOffset

theorem Aligned.commit (h : r.Aligned) (key : BlockKey) (success : Bool) :
    (r.commit key success).2.Aligned := by
  have hshards := commit_shards r key success
  refine ⟨by rw [hshards]; exact h.capacity, by rw [hshards]; exact h.head, ?_⟩
  intro k state' hst'
  obtain ⟨state, hst, heq⟩ := commit_entries hst'
  rw [← heq]
  exact h.offset k state hst

variable [NeZero n]

/-- A prepared block is queued in its shard and indexed, on top of its allocation. -/
theorem prepareWrite_eq_some (h : r.prepareWrite key block = (some t, r')) :
    ∃ fileOffset r₁, r.allocateContiguous r.nextShard t.entry.len =
        some ((t.entry.begin, fileOffset), r₁) ∧
      t.entry.shardId = r.nextShard ∧
      r'.shards = update r₁.shards r.nextShard
        { r₁.shards r.nextShard with order := (r₁.shards r.nextShard).order ++ [key] } ∧
      r'.entries = update r₁.entries key (some (.writing t.entry)) := by
  unfold prepareWrite at h
  dsimp only at h
  rcases halloc : r.allocateContiguous r.nextShard block.memoryFootprint with
    - | ⟨⟨begin, fileOffset⟩, r₁⟩
  · rw [halloc] at h
    cases h
  · rw [halloc] at h
    cases h
    exact ⟨fileOffset, r₁, halloc, rfl, rfl, rfl⟩

theorem prepareWrite_begin (h : r.prepareWrite key block = (some t, r')) :
    t.entry.begin = fitStart (r.shards t.entry.shardId).capacity (r.shards t.entry.shardId).head
      t.entry.len := by
  obtain ⟨fileOffset, r₁, halloc, hshard, -, -⟩ := prepareWrite_eq_some h
  rw [hshard]
  exact (allocateContiguous_spec halloc).2.1

/-- A block of aligned size goes to an aligned offset and leaves an aligned head. -/
theorem Aligned.prepareWrite (h : r.Aligned) (hsize : ssdAlignment ∣ block.memoryFootprint)
    (heq : r.prepareWrite key block = (some t, r')) (hp : r.Prepared key block t r') :
    ssdAlignment ∣ t.entry.fileOffset ∧ r'.Aligned := by
  have hbegin : ssdAlignment ∣ t.entry.begin := by
    rw [prepareWrite_begin heq]
    exact dvd_fitStart (h.capacity _) (h.head _)
  have hoffset : ssdAlignment ∣ t.entry.fileOffset := by
    rw [hp.offset_eq]
    exact (Nat.dvd_mod_iff (h.capacity _)).mpr hbegin
  refine ⟨hoffset, ⟨fun i => by rw [hp.capacity_eq]; exact h.capacity i, ?_, ?_⟩⟩
  · intro i
    rcases eq_or_ne i t.entry.shardId with rfl | hi
    · rw [hp.head_eq, hp.len_eq]
      exact Nat.dvd_add hbegin hsize
    · rw [hp.shards_ne i hi]
      exact h.head i
  · intro k state hst
    rcases eq_or_ne k key with rfl | hk
    · rw [hp.entries_self] at hst
      cases hst
      exact hoffset
    · exact h.offset k state (hp.entries_ne k state hk hst)

theorem Aligned.prepareWrites {candidates : List (BlockKey × SealedBlock)}
    (hsize : ∀ c ∈ candidates, ssdAlignment ∣ c.2.memoryFootprint) (h : r.Aligned) :
    (∀ t ∈ (r.prepareWrites candidates).1, ssdAlignment ∣ t.entry.fileOffset) ∧
      (r.prepareWrites candidates).2.Aligned := by
  induction candidates generalizing r with
  | nil => exact ⟨fun _ ht => absurd ht not_mem_nil, h⟩
  | cons c rest ih =>
    obtain ⟨key, block⟩ := c
    have hrest := fun c hc => hsize c (mem_cons_of_mem _ hc)
    rcases prepareWrite_cases r key block with hnone | ⟨t, r', hsome, hprep⟩
    · simpa [SsdRingBuffer.prepareWrites, hnone] using ih hrest h
    · obtain ⟨hoffset, h'⟩ := h.prepareWrite (hsize _ mem_cons_self) hsome hprep
      simpa [SsdRingBuffer.prepareWrites, hsome, hoffset] using ih hrest h'

/-! ### Runs -/

/-- The calls the backing store makes on its ring. -/
inductive Action where
  | prepareBatch (candidates : List (BlockKey × SealedBlock))
  | commit (key : BlockKey) (success : Bool)
deriving DecidableEq, Repr

/-- All block sizes of a call are multiples of the alignment. -/
def Action.AlignedSizes : Action → Prop
  | .prepareBatch candidates => ∀ c ∈ candidates, ssdAlignment ∣ c.2.memoryFootprint
  | .commit _ _ => True

instance : DecidablePred Action.AlignedSizes
  | .prepareBatch candidates =>
      inferInstanceAs (Decidable (∀ c ∈ candidates, ssdAlignment ∣ c.2.memoryFootprint))
  | .commit _ _ => inferInstanceAs (Decidable True)

/-- The ring, and every write that was handed out. -/
structure State (n : ℕ) where
  ring : SsdRingBuffer n
  writes : List (WriteTask n)

namespace State

def init (shardCapacities : Fin n → ℕ) : State n where
  ring := newSharded shardCapacities
  writes := []

def step (s : State n) : Action → Option (State n)
  | .prepareBatch candidates =>
      let prepared := s.ring.prepareBatch candidates
      some { ring := prepared.2, writes := s.writes ++ prepared.1 }
  | .commit key success => some { s with ring := (s.ring.commit key success).2 }

/-- Every file offset, indexed or handed out, is a multiple of the alignment. -/
structure OffsetsAligned (s : State n) : Prop where
  entries : ∀ key state, s.ring.entries key = some state → ssdAlignment ∣ state.entry.fileOffset
  writes : ∀ t ∈ s.writes, ssdAlignment ∣ t.entry.fileOffset

variable {a : Action} {s s' : State n} {actions : List Action}

theorem logged_step (h : s.ring.Logged s.writes) (hstep : step s a = some s') :
    s'.ring.Logged s'.writes := by
  cases a with
  | prepareBatch candidates =>
    cases hstep
    exact prepareWrites_induct (I := fun ts r => r.Logged ts)
      (fun _ _ _ _ _ _ _ hr hp => hr.prepared hp) _ h
  | commit key success =>
    cases hstep
    exact h.commit key success

theorem logged_run (h : s.ring.Logged s.writes) (hrun : exec step s actions = some s') :
    s'.ring.Logged s'.writes :=
  (always_of_step (I := fun s : State n => s.ring.Logged s.writes)
    (fun _ _ _ h hstep => logged_step h hstep) h).exec hrun

theorem capacity_step (hstep : step s a = some s') (i : Fin n) :
    (s'.ring.shards i).capacity = (s.ring.shards i).capacity := by
  cases a with
  | prepareBatch candidates =>
    cases hstep
    refine prepareWrites_induct
      (I := fun _ r => (r.shards i).capacity = (s.ring.shards i).capacity) ?_ [] rfl
    intro key block ts r t r' _ hr hp
    exact (hp.capacity_eq i).trans hr
  | commit key success =>
    cases hstep
    exact congrArg SsdShardRing.capacity (congrFun (commit_shards s.ring key success) i)

theorem aligned_step (h : s.ring.Aligned ∧ ∀ t ∈ s.writes, ssdAlignment ∣ t.entry.fileOffset)
    (ha : a.AlignedSizes) (hstep : step s a = some s') :
    s'.ring.Aligned ∧ ∀ t ∈ s'.writes, ssdAlignment ∣ t.entry.fileOffset := by
  obtain ⟨hring, hwrites⟩ := h
  cases a with
  | prepareBatch candidates =>
    cases hstep
    have hsize : ∀ c ∈ candidates.filter fun c => (s.ring.entries c.1).isNone,
        ssdAlignment ∣ c.2.memoryFootprint := fun c hc => ha c (mem_of_mem_filter hc)
    obtain ⟨hnew, hring'⟩ := hring.prepareWrites hsize
    refine ⟨hring', ?_⟩
    intro t ht
    rcases mem_append.mp ht with hold | hmem
    · exact hwrites t hold
    · exact hnew t hmem
  | commit key success =>
    cases hstep
    exact ⟨hring.commit key success, hwrites⟩

/-- **The SSD ring invariant.**  With positive capacities, after every sequence of prepares and
commits the window of each shard is at most its capacity, every valid entry is placed inside the
window and inside the file, and valid entries of one shard share no byte.  If moreover the
capacities and all block sizes are multiples of the alignment, then so are all file offsets. -/
theorem ssd_ring_invariant (shardCapacities : Fin n → ℕ) (hpos : ∀ i, 0 < shardCapacities i)
    (actions : List Action) :
    Always step (fun s => s.ring.Sound) (init shardCapacities) actions ∧
      ((∀ i, ssdAlignment ∣ shardCapacities i) →
        (∀ a ∈ actions, a.AlignedSizes) →
        Always step OffsetsAligned (init shardCapacities) actions) := by
  constructor
  · refine (always_of_step
      (I := fun s : State n => s.ring.Logged s.writes ∧ ∀ i, 0 < (s.ring.shards i).capacity) ?_
      ⟨logged_newSharded shardCapacities, hpos⟩).mono fun _ h => h.1.sound h.2
    intro s a s' h hstep
    refine ⟨logged_step h.1 hstep, fun i => ?_⟩
    rw [capacity_step hstep i]
    exact h.2 i
  · intro hcap hsizes
    have haligned : (init shardCapacities).ring.Aligned ∧
        ∀ t ∈ (init shardCapacities).writes, ssdAlignment ∣ t.entry.fileOffset :=
      ⟨⟨hcap, fun _ => Nat.dvd_zero _, fun _ _ h => nomatch h⟩,
        fun _ ht => absurd ht not_mem_nil⟩
    refine (always_of_along (C := fun _ a => a.AlignedSizes)
      (fun _ _ _ h ha hstep => aligned_step h ha hstep) haligned
      (along_of_forall hsizes)).mono ?_
    intro s hs
    exact ⟨hs.1.offset, hs.2⟩

/-- A block of `sectors` alignment units. -/
def sectorBlock (sectors : ℕ) : SealedBlock :=
  .fromSlots [({ segments := [replicate (sectors * ssdAlignment) 0] }, { id := 0 })]

/-- Two shards of two units each.  The last block does not fit behind the third one, skips to
the next turn and expires the first. -/
def sectorRun : List Action :=
  [.prepareBatch [(⟨"ns", [1]⟩, sectorBlock 1), (⟨"ns", [2]⟩, sectorBlock 1),
      (⟨"ns", [3]⟩, sectorBlock 0)],
    .commit ⟨"ns", [1]⟩ true, .commit ⟨"ns", [2]⟩ false,
    .prepareBatch [(⟨"ns", [4]⟩, sectorBlock 1), (⟨"ns", [5]⟩, sectorBlock 2)]]

theorem ssd_ring_invariant_two_shards :
    alignedShardCapacity 2500 2 = .ok 1024 ∧
      (exec step (init fun _ : Fin 2 => 1024) sectorRun).map
        (fun s => ((s.ring.shards 0).head, (s.ring.shards 0).tail)) = some (2048, 1024) ∧
      Always step (fun s => s.ring.Sound) (init fun _ : Fin 2 => 1024) sectorRun ∧
      Always step OffsetsAligned (init fun _ : Fin 2 => 1024) sectorRun := by
  have h := ssd_ring_invariant (fun _ : Fin 2 => 1024) (by decide) sectorRun
  exact ⟨rfl, by decide +kernel, h.1, h.2 (by decide) (by decide +kernel)⟩

/-! ### Between two moments -/

/-- Writes that were handed out stay on record. -/
theorem writes_step (hstep : step s a = some s') : s.writes <+: s'.writes := by
  cases a with
  | prepareBatch candidates =>
    cases hstep
    exact prefix_append _ _
  | commit key success =>
    cases hstep
    exact prefix_refl _

/-- The writes handed out on the way from `s` to `s'`. -/
def writesSince (s s' : State n) : List (WriteTask n) :=
  s'.writes.drop s.writes.length

theorem writes_run (hrun : exec step s actions = some s') :
    s'.writes = s.writes ++ writesSince s s' := by
  have hprefix : s.writes <+: s'.writes := (always_of_step
    (I := fun t : State n => s.writes <+: t.writes)
    (fun _ _ _ h hstep => h.trans (writes_step hstep)) (prefix_refl _)).exec hrun
  exact (prefix_iff_eq_append.mp hprefix).symm

/-- **A read that is still valid afterwards was not overwritten.**  If a lookup returned `e` and
`e` is valid at a later moment, no allocation made in between overlaps the bytes of `e`. -/
theorem valid_after_read_not_overwritten (shardCapacities : Fin n → ℕ)
    (before between : List Action) (s s' : State n)
    (hbefore : exec step (init shardCapacities) before = some s)
    (hbetween : exec step s between = some s') (key : BlockKey) (e : SsdIndexEntry n)
    (hget : s.ring.get key = some e) (hvalid : s'.ring.IsOffsetValid e) :
    ∀ t ∈ writesSince s s', t.entry.shardId = e.shardId → Disjoint e.cells t.entry.cells := by
  intro t ht hshard
  have hstart : (init shardCapacities).ring.Logged (init shardCapacities).writes :=
    logged_newSharded shardCapacities
  have hlogged : s.ring.Logged s.writes := logged_run hstart hbefore
  have hlogged' : s'.ring.Logged s'.writes := logged_run hlogged hbetween
  have hwrites := writes_run hbetween
  -- `e` belongs to a write handed out before, and those precede the later ones
  obtain ⟨u, hu, -, hentry⟩ := hlogged.indexed key _ (get_eq_some.mp hget).1
  have hentry : u.entry = e := hentry
  have hordered := hlogged'.ordered
  rw [hwrites] at hordered
  have hbefore := (pairwise_append.mp hordered).2.2 u hu t ht (by rw [hentry, hshard])
  have hu' := hlogged'.lies u (hwrites ▸ mem_append_left _ hu)
  have ht' := hlogged'.lies t (hwrites ▸ mem_append_right _ ht)
  rw [hentry] at hbefore hu'
  rw [hshard] at ht'
  exact hu'.disjoint_of_before ht' (hlogged'.window _) hvalid hbefore

/-- A file of two bytes: one block is read, the other one is allocated before the read is
checked. -/
theorem valid_after_read_not_overwritten_two_bytes :
    ∃ (s s' : State 1) (e : SsdIndexEntry 1),
      exec step (init fun _ : Fin 1 => 2)
        [.prepareBatch [(byteKey 1, byteBlock 7)], .commit (byteKey 1) true] = some s ∧
      exec step s [.prepareBatch [(byteKey 2, byteBlock 7)]] = some s' ∧
      s.ring.get (byteKey 1) = some e ∧ s'.ring.IsOffsetValid e ∧
      (writesSince s s').length = 1 ∧
      ∀ t ∈ writesSince s s', t.entry.shardId = e.shardId → Disjoint e.cells t.entry.cells :=
  ⟨_, _, _, rfl, rfl, rfl, by decide, rfl,
    valid_after_read_not_overwritten (fun _ : Fin 1 => 2)
      [.prepareBatch [(byteKey 1, byteBlock 7)], .commit (byteKey 1) true]
      [.prepareBatch [(byteKey 2, byteBlock 7)]] _ _ rfl rfl (byteKey 1) _ rfl (by decide)⟩

end State

end SsdRingBuffer

end PegaFlow
