/-
PegaFlow/SsdRingPruning.lean

What `advance_tail` removes from the SSD index.

Each shard has a queue of the keys allocated on it, oldest first, and the index is shared by all
shards.  Pruning walks the queue of one shard and looks its keys up in the shared index.  That is
exact as long as every queue item speaks about the entry it was queued for (`Queued`): the items
then come in the order of their positions, so the walk stops at the first valid one and everything
behind it is valid too.
-/
import PegaFlow.SsdRingInvariant

namespace PegaFlow.SsdRingBuffer

open List Function

variable {n : ℕ}

/-! ### What exact pruning means -/

variable (r : SsdRingBuffer n)

/-- No entry begins before the tail of its own shard. -/
def NoneExpired : Prop :=
  ∀ key state, r.entries key = some state → r.IsOffsetValid state.entry

variable (candidates : List (BlockKey × SealedBlock))

/-- The candidates `prepare_batch` goes on with. -/
def toWrite : List (BlockKey × SealedBlock) :=
  candidates.filter fun c => (r.entries c.1).isNone

/-- Every allocation of the batch, and the advance of the tail it makes, keeps the entries that
are still valid after it. -/
def AdvanceKeepsValid [NeZero n] (r : SsdRingBuffer n)
    (candidates : List (BlockKey × SealedBlock)) : Prop :=
  ∀ done key block rest, r.toWrite candidates = done ++ (key, block) :: rest →
    ∀ place r', (r.prepareWrites done).2.allocateContiguous (r.prepareWrites done).2.nextShard
      block.memoryFootprint = some (place, r') →
    ∀ k state, (r.prepareWrites done).2.entries k = some state →
      r'.IsOffsetValid state.entry → r'.entries k = some state

/-- The batch prepares a key once, and only if no queue still lists it. -/
structure FreshKeys : Prop where
  nodup : ((r.toWrite candidates).map Prod.fst).Nodup
  notMem : ∀ key ∈ (r.toWrite candidates).map Prod.fst, ∀ i, key ∉ (r.shards i).order

/-! ### The walk -/

variable {k : BlockKey} {state : SsdEntryState n}
  {entries entries' : BlockKey → Option (SsdEntryState n)} {order dropped order' : List BlockKey}
  {newTail : ℕ}

/-- What the walk over a queue does.  It drops a front part of the queue with the entries of its
keys, each of which began before the new tail, and stops at an entry that did not. -/
structure Pruned (newTail : ℕ) (order : List BlockKey)
    (entries : BlockKey → Option (SsdEntryState n)) (dropped order' : List BlockKey)
    (entries' : BlockKey → Option (SsdEntryState n)) : Prop where
  order_eq : order = dropped ++ order'
  gone : ∀ k ∈ dropped, entries' k = none
  kept : ∀ k, k ∉ dropped → entries' k = entries k
  expired : ∀ k ∈ dropped, ∀ state, entries k = some state → state.entry.begin < newTail
  front : ∀ k rest, order' = k :: rest → ∃ state, entries' k = some state ∧
    newTail ≤ state.entry.begin

theorem Pruned.cons {key : BlockKey}
    (hbegin : ∀ state, entries key = some state → state.entry.begin < newTail)
    (h : Pruned newTail order (update entries key none) dropped order' entries') :
    Pruned newTail (key :: order) entries (key :: dropped) order' entries' := by
  refine ⟨congrArg (key :: ·) h.order_eq, ?_, ?_, ?_, h.front⟩
  · intro k hk
    rcases mem_cons.mp hk with rfl | hk
    · by_cases hmem : k ∈ dropped
      · exact h.gone k hmem
      · rw [h.kept k hmem, update_self]
    · exact h.gone k hk
  · intro k hk
    rw [mem_cons, not_or] at hk
    obtain ⟨hne, hk⟩ := hk
    rw [h.kept k hk, update_of_ne hne]
  · intro k hk state hst
    rcases eq_or_ne k key with rfl | hne
    · exact hbegin state hst
    · have hk : k ∈ dropped := (mem_cons.mp hk).resolve_left hne
      exact h.expired k hk state (by rwa [update_of_ne hne])

theorem exists_pruned (newTail : ℕ) (order : List BlockKey)
    (entries : BlockKey → Option (SsdEntryState n)) :
    ∃ dropped, Pruned newTail order entries dropped (pruneOrder newTail order entries).1
      (pruneOrder newTail order entries).2 := by
  induction order generalizing entries with
  | nil =>
    exact ⟨[], rfl, fun _ hk => absurd hk not_mem_nil, fun _ _ => rfl,
      fun _ hk => absurd hk not_mem_nil, fun _ _ h => absurd h (cons_ne_nil _ _).symm⟩
  | cons key order ih =>
    obtain ⟨dropped, hrest⟩ := ih (update entries key none)
    by_cases hstop : ∃ state, entries key = some state ∧ newTail ≤ state.entry.begin
    · -- the walk stops here
      obtain ⟨state, hkey, hge⟩ := hstop
      have hstop : pruneOrder newTail (key :: order) entries = (key :: order, entries) := by
        rw [pruneOrder, hkey]
        exact if_pos hge
      rw [hstop]
      refine ⟨[], rfl, fun _ hk => absurd hk not_mem_nil, fun _ _ => rfl,
        fun _ hk => absurd hk not_mem_nil, ?_⟩
      intro k rest heq
      obtain ⟨rfl, -⟩ := cons.inj heq
      exact ⟨state, hkey, hge⟩
    · have hlt : ∀ state, entries key = some state → state.entry.begin < newTail :=
        fun state hst => not_le.mp fun hge => hstop ⟨state, hst, hge⟩
      have hstep : pruneOrder newTail (key :: order) entries =
          pruneOrder newTail order (update entries key none) := by
        rw [pruneOrder]
        split
        · next state hst => exact if_neg (not_le.mpr (hlt state hst))
        · rfl
      rw [hstep]
      exact ⟨key :: dropped, hrest.cons hlt⟩

theorem Pruned.of_some (h : Pruned newTail order entries dropped order' entries')
    (hst : entries' k = some state) : k ∉ dropped ∧ entries k = some state := by
  have hk : k ∉ dropped := by
    intro hk
    rw [h.gone k hk] at hst
    cases hst
  exact ⟨hk, (h.kept k hk).symm.trans hst⟩

/-! ### Queues that speak about their own entries -/

variable {j : Fin n}

/-- Every entry is queued in its own shard, every queue lists entries of its own shard only, each
once, in the order of their positions. -/
structure Queued (r : SsdRingBuffer n) : Prop where
  listed : ∀ key state, r.entries key = some state →
    key ∈ (r.shards state.entry.shardId).order
  own : ∀ i, ∀ key ∈ (r.shards i).order, ∀ state, r.entries key = some state →
    state.entry.shardId = i
  sorted : ∀ i, (r.shards i).order.Pairwise fun k k' => ∀ state state',
    r.entries k = some state → r.entries k' = some state' → state.entry.begin ≤ state'.entry.begin

theorem queued_newSharded [NeZero n] (shardCapacities : Fin n → ℕ) :
    (newSharded shardCapacities).Queued where
  listed _ _ h := nomatch h
  own _ _ h := absurd h not_mem_nil
  sorted _ := List.Pairwise.nil

/-- Fewer entries and shorter queues, with every entry that is left still listed. -/
theorem Queued.of_sub {r r' : SsdRingBuffer n} (h : r.Queued)
    (hentries : ∀ {k state'}, r'.entries k = some state' →
      ∃ state, r.entries k = some state ∧ state.entry = state'.entry)
    (horder : ∀ j, (r'.shards j).order.Sublist (r.shards j).order)
    (hlisted : ∀ k state, r'.entries k = some state → k ∈ (r'.shards state.entry.shardId).order) :
    r'.Queued := by
  refine ⟨hlisted, ?_, ?_⟩
  · intro j k hk state' hst'
    obtain ⟨state, hst, heq⟩ := hentries hst'
    exact heq ▸ h.own j k ((horder j).subset hk) state hst
  · intro j
    refine ((h.sorted j).sublist (horder j)).imp ?_
    intro k k' hle s s' hs hs'
    obtain ⟨state, hst, heq⟩ := hentries hs
    obtain ⟨state', hst', heq'⟩ := hentries hs'
    rw [← heq, ← heq']
    exact hle state state' hst hst'

section Advance

variable {r : SsdRingBuffer n} {i : Fin n} {newTail : ℕ}

/-- An advance leaves the ring as it is, or moves the tail and prunes. -/
theorem advanceTail_rule {P : SsdRingBuffer n → Prop} (hsame : P r)
    (hmoved : ∀ dropped order' entries',
      Pruned newTail (r.shards i).order r.entries dropped order' entries' →
      P { r with
          shards := update r.shards i { r.shards i with tail := newTail, order := order' }
          entries := entries' }) : P (r.advanceTail i newTail) := by
  obtain ⟨dropped, hpruned⟩ := exists_pruned newTail (r.shards i).order r.entries
  unfold advanceTail
  dsimp only
  split
  · exact hsame
  · exact hmoved dropped _ _ hpruned

theorem order_advance (j : Fin n) :
    ((r.advanceTail i newTail).shards j).order.Sublist (r.shards j).order := by
  refine advanceTail_rule (P := fun r' => (r'.shards j).order.Sublist _) (Sublist.refl _) ?_
  intro dropped order' entries' hpruned
  rcases eq_or_ne j i with rfl | hj
  · simp only [update_self]
    rw [hpruned.order_eq]
    exact sublist_append_right _ _
  · simp only [update_of_ne hj, Sublist.refl]

/-- **Advancing the tail removes nothing that is still valid.** -/
theorem Queued.advance_keeps (h : r.Queued) (hst : r.entries k = some state) :
    (r.advanceTail i newTail).IsOffsetValid state.entry →
      (r.advanceTail i newTail).entries k = some state := by
  refine advanceTail_rule (P := fun r' => r'.IsOffsetValid _ → r'.entries k = _)
    (fun _ => hst) ?_
  intro dropped order' entries' hpruned hvalid
  by_cases hk : k ∈ dropped
  · -- a dropped key has its entry in this shard, before the new tail
    have hmem : k ∈ (r.shards i).order := by
      rw [hpruned.order_eq]
      exact mem_append_left _ hk
    obtain rfl := h.own i k hmem state hst
    unfold IsOffsetValid at hvalid
    simp only [update_self] at hvalid
    exact absurd (hpruned.expired k hk state hst) (not_lt.mpr hvalid)
  · exact (hpruned.kept k hk).trans hst

/-- **Advancing the tail leaves no expired entry.** -/
theorem Queued.advance_noneExpired (h : r.Queued) (hnone : r.NoneExpired) :
    (r.advanceTail i newTail).NoneExpired := by
  refine advanceTail_rule hnone ?_
  intro dropped order' entries' hpruned k state hst
  obtain ⟨hk, hold⟩ := hpruned.of_some hst
  unfold IsOffsetValid
  rcases eq_or_ne state.entry.shardId i with hi | hi
  · -- the entry is queued at or behind the one the walk stopped at
    have hmem := h.listed k state hold
    have hsorted := h.sorted i
    rw [hi, hpruned.order_eq] at hmem
    rw [hpruned.order_eq] at hsorted
    have hrest := (mem_append.mp hmem).resolve_left hk
    simp only [hi, update_self]
    rcases order' with - | ⟨k', rest⟩
    · exact absurd hrest not_mem_nil
    · obtain ⟨state', hst', hge'⟩ := hpruned.front k' rest rfl
      rcases mem_cons.mp hrest with rfl | hrest
      · obtain rfl := Option.some.inj (hst.symm.trans hst')
        exact hge'
      · have hpair := (pairwise_append.mp hsorted).2.1
        exact hge'.trans ((pairwise_cons.mp hpair).1 k hrest state' state
          (hpruned.of_some hst').2 hold)
  · simp only [update_of_ne hi]
    exact hnone k state hold

theorem Queued.advance (h : r.Queued) : (r.advanceTail i newTail).Queued := by
  refine h.of_sub ?_ order_advance ?_
  · intro k state
    refine advanceTail_rule (P := fun r' => r'.entries k = _ → _) (fun hst => ⟨_, hst, rfl⟩) ?_
    exact fun _ _ _ hpruned hst => ⟨_, (hpruned.of_some hst).2, rfl⟩
  · refine advanceTail_rule (P := fun r' => ∀ k state, r'.entries k = some state →
      k ∈ (r'.shards state.entry.shardId).order) h.listed ?_
    intro dropped order' entries' hpruned k state hst
    obtain ⟨hk, hst⟩ := hpruned.of_some hst
    have hmem := h.listed k state hst
    rcases eq_or_ne state.entry.shardId i with hi | hi
    · rw [hi, hpruned.order_eq] at hmem
      simp only [hi, update_self]
      exact (mem_append.mp hmem).resolve_left hk
    · simp only [update_of_ne hi]
      exact hmem

end Advance

/-! ### One allocation -/

/-- What pruning relies on, and what it keeps. -/
structure Exact : Prop where
  logged : ∃ log, r.Logged log
  queued : r.Queued
  noneExpired : r.NoneExpired

section Allocate

variable {r r' : SsdRingBuffer n} {i : Fin n}

/-- The ring with the head of one shard moved. -/
def withHead (r : SsdRingBuffer n) (i : Fin n) (head : ℕ) : SsdRingBuffer n :=
  { r with shards := update r.shards i { r.shards i with head := head } }

theorem withHead_frame (head : ℕ) (j : Fin n) :
    ((r.withHead i head).shards j).order = (r.shards j).order ∧
      ((r.withHead i head).shards j).tail = (r.shards j).tail := by
  unfold withHead
  rcases eq_or_ne j i with rfl | hj
  · simp only [update_self, and_self]
  · simp only [update_of_ne hj, and_self]

theorem Queued.withHead (h : r.Queued) (head : ℕ) : (r.withHead i head).Queued := by
  refine h.of_sub (fun hst => ⟨_, hst, rfl⟩) (fun j => by rw [(withHead_frame head j).1]) ?_
  intro key state hst
  rw [(withHead_frame head _).1]
  exact h.listed key state hst

theorem NoneExpired.withHead (h : r.NoneExpired) (head : ℕ) : (r.withHead i head).NoneExpired := by
  intro key state hst
  unfold IsOffsetValid
  rw [(withHead_frame head _).2]
  exact h key state hst

variable {place : ℕ × ℕ} {size : ℕ}

/-- An allocation moves the head and advances the tail. -/
theorem allocateContiguous_eq (h : r.allocateContiguous i size = some (place, r')) :
    ∃ head newTail, r' = (r.withHead i head).advanceTail i newTail := by
  unfold allocateContiguous at h
  dsimp only at h
  split at h
  · cases h
  · cases h
    exact ⟨_, _, rfl⟩

/-- **An allocation removes nothing that is still valid.** -/
theorem Queued.allocate_keeps (h : r.Queued)
    (halloc : r.allocateContiguous i size = some (place, r')) (hst : r.entries k = some state)
    (hvalid : r'.IsOffsetValid state.entry) : r'.entries k = some state := by
  obtain ⟨head, newTail, rfl⟩ := allocateContiguous_eq halloc
  exact (h.withHead head).advance_keeps hst hvalid

/-- An allocation only shortens queues. -/
theorem mem_order_of_allocate (halloc : r.allocateContiguous i size = some (place, r'))
    (hk : k ∈ (r'.shards j).order) : k ∈ (r.shards j).order := by
  obtain ⟨head, newTail, rfl⟩ := allocateContiguous_eq halloc
  rw [← (withHead_frame head j).1]
  exact (order_advance j).subset hk

end Allocate

section Prepare

variable [NeZero n] {r r' : SsdRingBuffer n} {key : BlockKey} {block : SealedBlock}
  {t : WriteTask n}

omit [NeZero n] in
/-- The new entry is valid: the tail stays at or below its begin. -/
theorem Prepared.valid {log : List (WriteTask n)} (hp : r.Prepared key block t r')
    (h : r.AllocLog log) : r'.IsOffsetValid t.entry := by
  have htail := h.tail_le_head t.entry.shardId
  have hbegin := hp.begin_ge
  have hlen := hp.len_le
  unfold IsOffsetValid
  rw [hp.tail_eq]
  exact max_le (by omega) (by omega)

/-- **One round of the prepare loop.** -/
theorem Exact.prepareWrite (h : r.Exact) (hfresh : ∀ i, key ∉ (r.shards i).order)
    (heq : r.prepareWrite key block = (some t, r')) (hp : r.Prepared key block t r') :
    r'.Exact := by
  obtain ⟨place, r₁, halloc, hshard, hshards, hentries⟩ := prepareWrite_eq_some heq
  have hqueued : r₁.Queued := by
    obtain ⟨head, newTail, rfl⟩ := allocateContiguous_eq halloc
    exact (h.queued.withHead head).advance
  have hnone : r₁.NoneExpired := by
    obtain ⟨head, newTail, rfl⟩ := allocateContiguous_eq halloc
    exact (h.queued.withHead head).advance_noneExpired (h.noneExpired.withHead head)
  have hfresh₁ : ∀ i, key ∉ (r₁.shards i).order := fun i hmem =>
    hfresh i (mem_order_of_allocate halloc hmem)
  -- the entries of the ring: the new one, or one of `r₁`
  have hself : r'.entries key = some (.writing t.entry) := by
    rw [hentries, update_self]
  have hother : ∀ k, k ≠ key → r'.entries k = r₁.entries k := fun k hk => by
    rw [hentries, update_of_ne hk]
  have horder : ∀ j, (r'.shards j).order =
      if j = r.nextShard then (r₁.shards j).order ++ [key] else (r₁.shards j).order := by
    intro j
    rw [hshards]
    rcases eq_or_ne j r.nextShard with rfl | hj
    · rw [update_self, if_pos rfl]
    · rw [update_of_ne hj, if_neg hj]
  have hne : ∀ {j : Fin n} {k : BlockKey}, k ∈ (r₁.shards j).order → k ≠ key := fun hk heq =>
    hfresh₁ _ (heq ▸ hk)
  obtain ⟨log, hlog⟩ := h.logged
  refine ⟨⟨_, hlog.prepared hp⟩, ⟨?_, ?_, ?_⟩, ?_⟩
  · intro k state hst
    rw [horder]
    rcases eq_or_ne k key with rfl | hk
    · obtain rfl := Option.some.inj (hself.symm.trans hst)
      rw [if_pos (show (SsdEntryState.writing t.entry).entry.shardId = _ from hshard)]
      exact mem_append_right _ mem_cons_self
    · rw [hother k hk] at hst
      have hmem := hqueued.listed k state hst
      split
      · exact mem_append_left _ hmem
      · exact hmem
  · intro j k hk state hst
    rw [horder] at hk
    rcases eq_or_ne k key with rfl | hkey
    · obtain rfl := Option.some.inj (hself.symm.trans hst)
      split at hk
      · next hj => exact hshard.trans hj.symm
      · exact absurd hk (hfresh₁ j)
    · rw [hother k hkey] at hst
      refine hqueued.own j k ?_ state hst
      split at hk
      · exact (mem_append.mp hk).resolve_right fun hmem => hkey (mem_singleton.mp hmem)
      · exact hk
  · intro j
    have hold : (r₁.shards j).order.Pairwise fun k k' => ∀ state state',
        r'.entries k = some state → r'.entries k' = some state' →
        state.entry.begin ≤ state'.entry.begin := by
      refine (hqueued.sorted j).imp_of_mem ?_
      intro k k' hk hk' hle state state' hst hst'
      rw [hother k (hne hk)] at hst
      rw [hother k' (hne hk')] at hst'
      exact hle state state' hst hst'
    rw [horder]
    split
    · next hj =>
      refine pairwise_append.mpr ⟨hold, pairwise_singleton _ _, ?_⟩
      intro k hk k' hk' state state' hst hst'
      obtain rfl := mem_singleton.mp hk'
      obtain rfl := Option.some.inj (hself.symm.trans hst')
      -- what was queued lies below the old head
      have hst₁ := hst
      rw [hother k (hne hk)] at hst₁
      have howner : state.entry.shardId = t.entry.shardId := by
        rw [hqueued.own j k hk state hst₁, hshard, hj]
      have hlies := hlog.lies_entry (hp.entries_ne k state (hne hk) hst)
      have hbefore := hlies.before_prepared hp howner
      show state.entry.begin ≤ t.entry.begin
      omega
    · exact hold
  · intro k state hst
    rcases eq_or_ne k key with rfl | hk
    · obtain rfl := Option.some.inj (hself.symm.trans hst)
      exact hp.valid hlog.toAllocLog
    · rw [hother k hk] at hst
      have hvalid := hnone k state hst
      unfold IsOffsetValid at hvalid ⊢
      rw [hshards]
      rcases eq_or_ne state.entry.shardId r.nextShard with hi | hi
      · simp only [hi, update_self] at hvalid ⊢
        exact hvalid
      · simpa only [update_of_ne hi] using hvalid

/-- A round queues its own key only. -/
theorem mem_order_of_prepareWrite (h : r.prepareWrite key block = (some t, r'))
    (hk : k ∈ (r'.shards j).order) : k ∈ (r.shards j).order ∨ k = key := by
  obtain ⟨place, r₁, halloc, -, hshards, -⟩ := prepareWrite_eq_some h
  rw [hshards] at hk
  rcases eq_or_ne j r.nextShard with rfl | hj
  · rw [update_self] at hk
    rcases mem_append.mp hk with hold | hnew
    · exact .inl (mem_order_of_allocate halloc hold)
    · exact .inr (mem_singleton.mp hnew)
  · rw [update_of_ne hj] at hk
    exact .inl (mem_order_of_allocate halloc hk)

variable {candidates : List (BlockKey × SealedBlock)}

/-- **The prepare loop**, over keys that are distinct and in no queue. -/
theorem Exact.prepareWrites (hnodup : (candidates.map Prod.fst).Nodup) {r : SsdRingBuffer n}
    (h : r.Exact) (hfresh : ∀ key ∈ candidates.map Prod.fst, ∀ i, key ∉ (r.shards i).order) :
    (r.prepareWrites candidates).2.Exact := by
  induction candidates generalizing r with
  | nil => exact h
  | cons c rest ih =>
    obtain ⟨key, block⟩ := c
    rw [map_cons, nodup_cons] at hnodup
    rcases prepareWrite_cases r key block with hnone | ⟨t, r', hsome, hp⟩
    · rw [SsdRingBuffer.prepareWrites, hnone]
      exact ih hnodup.2 h fun k hk => hfresh k (mem_cons_of_mem _ hk)
    · rw [SsdRingBuffer.prepareWrites, hsome]
      refine ih hnodup.2 (h.prepareWrite (hfresh key mem_cons_self) hsome hp) ?_
      intro k hk i hmem
      rcases mem_order_of_prepareWrite hsome hmem with hold | rfl
      · exact hfresh k (mem_cons_of_mem _ hk) i hold
      · exact hnodup.1 hk

theorem Exact.prepareBatch (h : r.Exact) (hfresh : r.FreshKeys candidates) :
    (r.prepareBatch candidates).2.Exact :=
  h.prepareWrites hfresh.nodup hfresh.notMem

theorem Exact.advanceKeepsValid (h : r.Exact) (hfresh : r.FreshKeys candidates) :
    r.AdvanceKeepsValid candidates := by
  intro done key block rest hsplit place r' halloc k state hst hvalid
  have hsub : (done.map Prod.fst).Sublist ((r.toWrite candidates).map Prod.fst) := by
    rw [hsplit]
    exact (sublist_append_left _ _).map _
  have hdone := h.prepareWrites (hfresh.nodup.sublist hsub)
    fun k hk => hfresh.notMem k (hsub.subset hk)
  exact hdone.queued.allocate_keeps halloc hst hvalid

end Prepare

theorem Exact.commit {r : SsdRingBuffer n} (h : r.Exact) (key : BlockKey) (success : Bool) :
    (r.commit key success).2.Exact := by
  have hshards := commit_shards r key success
  refine ⟨h.logged.imp fun _ hlog => hlog.commit key success,
    h.queued.of_sub commit_entries (fun j => by rw [hshards]) ?_, ?_⟩
  · intro k state' hst'
    obtain ⟨state, hst, heq⟩ := commit_entries hst'
    rw [hshards, ← heq]
    exact h.queued.listed k state hst
  · intro k state' hst'
    obtain ⟨state, hst, heq⟩ := commit_entries hst'
    have hvalid := h.noneExpired k state hst
    unfold IsOffsetValid at hvalid ⊢
    rw [hshards, ← heq]
    exact hvalid

/-! ### Runs -/

/-- The call prepares fresh keys only. -/
def Action.Fresh : Action → Prop
  | .prepareBatch candidates => r.FreshKeys candidates
  | .commit _ _ => True

/-- The call removes no valid entry when it advances a tail. -/
def Action.KeepsValid [NeZero n] (r : SsdRingBuffer n) : Action → Prop
  | .prepareBatch candidates => r.AdvanceKeepsValid candidates
  | .commit _ _ => True

instance : Decidable (r.FreshKeys candidates) :=
  decidable_of_iff
    (((r.toWrite candidates).map Prod.fst).Nodup ∧
      ∀ key ∈ (r.toWrite candidates).map Prod.fst, ∀ i, key ∉ (r.shards i).order)
    ⟨fun h => ⟨h.1, h.2⟩, fun h => ⟨h.nodup, h.notMem⟩⟩

instance : DecidablePred (Action.Fresh r)
  | .prepareBatch candidates => inferInstanceAs (Decidable (r.FreshKeys candidates))
  | .commit _ _ => inferInstanceAs (Decidable True)

namespace State

/-- **Pruning is exact** if no key is prepared while a queue still lists it: after every call no
entry is expired, and no advance of a tail removes a valid entry of any shard. -/
theorem pruning_exact [NeZero n] (shardCapacities : Fin n → ℕ) (actions : List Action)
    (hfresh : Along step (fun s a => a.Fresh s.ring) (init shardCapacities) actions) :
    Always step (fun s => s.ring.NoneExpired) (init shardCapacities) actions ∧
      Along step (fun s a => a.KeepsValid s.ring) (init shardCapacities) actions := by
  have hinit : (init shardCapacities).ring.Exact :=
    ⟨⟨_, logged_newSharded shardCapacities⟩, queued_newSharded shardCapacities,
      fun _ _ h => nomatch h⟩
  have hkeep : ∀ (s : State n) a s', s.ring.Exact → a.Fresh s.ring → step s a = some s' →
      s'.ring.Exact := by
    intro s a s' h ha hstep
    cases a with
    | prepareBatch candidates =>
      cases hstep
      exact h.prepareBatch ha
    | commit key success =>
      cases hstep
      exact h.commit key success
  constructor
  · exact (always_of_along hkeep hinit hfresh).mono fun _ h => h.noneExpired
  · refine along_of_along hkeep ?_ hinit hfresh
    intro s a h ha
    cases a with
    | prepareBatch candidates => exact h.advanceKeepsValid ha
    | commit key success => trivial

/-- Prepare one block of one byte. -/
def prepareByte (b : UInt8) : Action := .prepareBatch [(byteKey b, byteBlock 7)]

/-- A file of two bytes.  The write of the first block fails; its key is prepared again after the
third block has pushed the item out of the queue. -/
theorem pruning_exact_retry :
    (exec step (init fun _ : Fin 1 => 2) [prepareByte 1, .commit (byteKey 1) false, prepareByte 2,
        prepareByte 3, prepareByte 1]).map
      (fun s => ((s.ring.shards 0).tail, (s.ring.shards 0).order,
        (s.ring.entries (byteKey 2)).isSome)) = some (2, [byteKey 3, byteKey 1], false) ∧
    Always step (fun s => s.ring.NoneExpired) (init fun _ : Fin 1 => 2)
      [prepareByte 1, .commit (byteKey 1) false, prepareByte 2, prepareByte 3, prepareByte 1] ∧
    Along step (fun s a => a.KeepsValid s.ring) (init fun _ : Fin 1 => 2)
      [prepareByte 1, .commit (byteKey 1) false, prepareByte 2, prepareByte 3, prepareByte 1] :=
  ⟨by decide +kernel, pruning_exact (fun _ : Fin 1 => 2) _ (by decide +kernel)⟩

/-- Both halves fail after a failed write.  On one shard of three bytes, the key of the failed
write is prepared again behind block 2; its first queue item then speaks for the second life and
keeps the walk from block 2, which has expired.  On two shards of one byte, the key is prepared
again on the other shard, and the next advance of the first shard removes it from the index. -/
theorem expired_kept_and_valid_removed :
    (∃ actions, ¬ Always step (fun s => s.ring.NoneExpired) (init fun _ : Fin 1 => 3) actions) ∧
      ∃ actions, ¬ Along step (fun s a => a.KeepsValid s.ring) (init fun _ : Fin 2 => 1)
        actions := by
  constructor
  · exact ⟨[prepareByte 1, .commit (byteKey 1) false, prepareByte 2, prepareByte 1,
      prepareByte 3, prepareByte 4], not_always (fun s => ∀ state ∈ s.ring.entries (byteKey 2),
        s.ring.IsOffsetValid state.entry) (fun _ h => h (byteKey 2)) (by decide +kernel)⟩
  · refine ⟨[prepareByte 1, .commit (byteKey 1) false, prepareByte 1] ++ [prepareByte 2],
      fun h => ?_⟩
    have hkeeps := h.last rfl rfl
    have hkept := hkeeps [] (byteKey 2) (byteBlock 7) [] rfl _ _ rfl (byteKey 1) _ rfl (by decide)
    exact absurd hkept (by decide)

end State

end PegaFlow.SsdRingBuffer
