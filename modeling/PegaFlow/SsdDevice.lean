/-
PegaFlow/SsdDevice.lean

The writer loop together with the device under it.

Every shard file is a byte map.  A submitted write is applied by the device at some
moment between submission and completion, in any order relative to other writes, and
possibly only a prefix of it; its completion reports the number of bytes applied, or an
error.  The loop looks at success only (`write_block_to_ssd` drops the byte count).
-/
import PegaFlow.ByteMap
import PegaFlow.SsdWriter

namespace PegaFlow

open List Function SsdWriter

inductive SsdEvent (n : ℕ) where
  | submit
  | recv (cmd : Option SsdWriteCommand)
  /-- The device puts the first `count` bytes of a submitted write on its file. -/
  | apply (t : WriteTask n) (count : ℕ)
  /-- The oldest submitted write ends: the bytes written, or `none` for an I/O error. -/
  | complete (result : Option ℕ)

structure SsdDevice (n : ℕ) where
  writer : SsdWriter n
  files : Fin n → ℕ → UInt8
  /-- How many bytes of a write have reached the file, once it has been applied. -/
  applied : WriteTask n → Option ℕ

variable {n : ℕ} {ev : SsdEvent n}

/-- `write_block_to_ssd` followed by `is_ok`: the byte count is not looked at. -/
def executeWrite (result : Option ℕ) : Bool :=
  (result.map fun _ => ()).isSome

/-- The part of an event the writer loop sees. -/
def SsdEvent.toWriter : SsdEvent n → Option WriterEvent
  | .submit => some .submit
  | .recv cmd => some (.recv cmd)
  | .apply _ _ => none
  | .complete result => some (.complete (executeWrite result))

/-- The blocks an event brings to the writer. -/
def SsdEvent.candidates (ev : SsdEvent n) : List (BlockKey × SealedBlock) :=
  ev.toWriter.elim [] WriterEvent.candidates

/-- The physical ranges of two entries of one file share a byte. -/
def SsdIndexEntry.Overlaps (e f : SsdIndexEntry n) : Prop :=
  e.shardId = f.shardId ∧ e.fileOffset < f.fileOffset + f.len ∧ f.fileOffset < e.fileOffset + e.len

instance (e f : SsdIndexEntry n) : Decidable (e.Overlaps f) :=
  inferInstanceAs (Decidable (_ ∧ _ ∧ _))

namespace SsdDevice

def new [NeZero n] (shardCapacities : Fin n → ℕ) (files : Fin n → ℕ → UInt8) : SsdDevice n where
  writer := .new shardCapacities
  files
  applied _ := none

def applyWrite (d : SsdDevice n) (t : WriteTask n) (count : ℕ) : SsdDevice n where
  writer := d.writer
  files := update d.files t.entry.shardId
    (writeAt (d.files t.entry.shardId) t.entry.fileOffset (t.block.bytes.take count))
  applied := update d.applied t (some count)

/-- One step of loop or device.  A write completes with `some count` only after that many
of its bytes have been applied. -/
def step [NeZero n] (writeInflight : ℕ) (d : SsdDevice n) (ev : SsdEvent n) :
    Option (SsdDevice n) :=
  match ev with
  | .submit => (d.writer.step writeInflight .submit).map fun w => { d with writer := w }
  | .recv cmd => (d.writer.step writeInflight (.recv cmd)).map fun w => { d with writer := w }
  | .apply t count =>
      if t ∈ d.writer.inflight ∧ d.applied t = none ∧ count ≤ t.block.memoryFootprint then
        some (d.applyWrite t count)
      else none
  | .complete result =>
      if ∀ count ∈ result, ∀ t ∈ d.writer.inflight.head?, d.applied t = some count then
        (d.writer.step writeInflight (.complete (executeWrite result))).map
          fun w => { d with writer := w }
      else none

variable {writeInflight : ℕ}

/-- **Inversion.**  A step is a turn of the writer loop that leaves the files alone, or
the application of one submitted write. -/
theorem step_cases [NeZero n] {d d' : SsdDevice n} (h : d.step writeInflight ev = some d') :
    (∃ wev w, ev.toWriter = some wev ∧ d.writer.step writeInflight wev = some w ∧
      d' = { d with writer := w } ∧
      ∀ count, ev = .complete (some count) →
        ∀ t ∈ d.writer.inflight.head?, d.applied t = some count) ∨
    (∃ t count, ev = .apply t count ∧ t ∈ d.writer.inflight ∧ d.applied t = none ∧
      count ≤ t.block.memoryFootprint ∧ d' = d.applyWrite t count) := by
  cases ev with
  | submit =>
    obtain ⟨w, hw, rfl⟩ := Option.map_eq_some_iff.mp h
    exact .inl ⟨_, w, rfl, hw, rfl, by simp⟩
  | recv cmd =>
    obtain ⟨w, hw, rfl⟩ := Option.map_eq_some_iff.mp h
    exact .inl ⟨_, w, rfl, hw, rfl, by simp⟩
  | apply t count =>
    simp only [step] at h
    split at h
    · next hguard =>
      cases h
      exact .inr ⟨t, count, rfl, hguard.1, hguard.2.1, hguard.2.2, rfl⟩
    · cases h
  | complete result =>
    simp only [step] at h
    split at h
    · next hguard =>
      obtain ⟨w, hw, rfl⟩ := Option.map_eq_some_iff.mp h
      refine .inl ⟨_, w, rfl, hw, rfl, ?_⟩
      intro count hcount t ht
      cases hcount
      exact hguard count rfl t ht
    · cases h

/-! ### Files and log -/

/-- The device behaves on this step: a completion reports all bytes of the block, and a
write is not applied over a younger one. -/
def FaithfulIo (d : SsdDevice n) : SsdEvent n → Prop
  | .apply t _ =>
      ∀ u ∈ d.writer.inflight, (d.applied u).isSome → t.entry.begin < u.entry.begin →
        ¬ t.entry.Overlaps u.entry
  | .complete (some count) =>
      ∀ t ∈ d.writer.inflight.head?, count = t.block.memoryFootprint
  | _ => True

instance (d : SsdDevice n) : ∀ ev, Decidable (d.FaithfulIo ev)
  | .apply _ _ => inferInstanceAs (Decidable (∀ u ∈ d.writer.inflight, _))
  | .complete (some _) => inferInstanceAs (Decidable (∀ t ∈ d.writer.inflight.head?, _))
  | .complete none => .isTrue trivial
  | .submit => .isTrue trivial
  | .recv _ => .isTrue trivial

/-- The invariant after the events `past`: every write comes from a block received, and
what has been applied and is still valid is on the file. -/
structure Inv (past : List (SsdEvent n)) (d : SsdDevice n) : Prop where
  sources : (d.writer.log.map fun t => (t.key, t.block)).Sublist
    (past.flatMap SsdEvent.candidates)
  writer : d.writer.Inv
  submitted : ∀ t, d.applied t ≠ none → t ∈ d.writer.submitted
  stored : ∀ t count, d.applied t = some count → d.writer.ring.IsOffsetValid t.entry →
    ∀ i (hi : i < t.block.bytes.length), i < count →
      d.files t.entry.shardId (t.entry.fileOffset + i) = t.block.bytes[i]
  full : ∀ t, (t, true) ∈ d.writer.completed → d.applied t = some t.block.memoryFootprint

/-- The keys received are pairwise distinct. -/
def DistinctKeys (evs : List (SsdEvent n)) : Prop :=
  ((evs.flatMap SsdEvent.candidates).map Prod.fst).Nodup

instance (evs : List (SsdEvent n)) : Decidable (DistinctKeys evs) :=
  inferInstanceAs (Decidable (List.Nodup _))

theorem inv_new [NeZero n] (shardCapacities : Fin n → ℕ) (files : Fin n → ℕ → UInt8) :
    Inv [] (new shardCapacities files) where
  sources := .slnil
  writer := SsdWriter.inv_new shardCapacities
  submitted := by intro t ht; exact absurd rfl ht
  stored := by intro t count ht; cases ht
  full := by intro t ht; cases ht

variable {past : List (SsdEvent n)} {d : SsdDevice n}

theorem Inv.log_keys_nodup (h : Inv past d) (hkeys : DistinctKeys past) :
    (d.writer.log.map WriteTask.key).Nodup := by
  have := (h.sources.map Prod.fst).nodup hkeys
  simpa [comp_def] using this

/-- **Where two writes can meet on a file.**  A write that has been applied and is still
valid shares no byte with another write in flight, as long as no write is applied over a
younger one. -/
theorem Inv.cell_ne (h : Inv past d) {t u : WriteTask n} {count c i j : ℕ}
    (hio : d.FaithfulIo (.apply u c)) (hu : u ∈ d.writer.inflight) (ht : d.applied t = some count)
    (hne : t ≠ u) (hvalid : d.writer.ring.IsOffsetValid t.entry)
    (hshard : t.entry.shardId = u.entry.shardId) (hi : i < t.entry.len) (hj : j < u.entry.len) :
    t.entry.fileOffset + i ≠ u.entry.fileOffset + j := by
  have hlog := h.writer.log
  have htsub : t ∈ d.writer.submitted := h.submitted t (by rw [ht]; simp)
  have hulog : u ∈ d.writer.log := mem_append_right _ (mem_append_left _ hu)
  have htlog : t ∈ d.writer.log := by
    rw [log, ← append_assoc]
    exact mem_append_left _ htsub
  -- one of the two allocations lies before the other in the shard
  rcases hlog.before_or_after htlog hulog hne hshard with hord | hord
  · -- `t` is older: it is still valid, so `u` ends within one turn of it
    have hlt := hlog.lies t htlog
    have hlu := hlog.lies u hulog
    have hub := hlu.le_head
    have hwin := hlog.window u.entry.shardId
    have hv : (d.writer.ring.shards t.entry.shardId).tail ≤ t.entry.begin := hvalid
    have hft := hlt.fits (by omega)
    have hfu := hlu.fits (by omega)
    rw [hlt.offset_eq] at hft ⊢
    rw [hlu.offset_eq] at hfu ⊢
    rw [hshard] at hv hft ⊢
    exact cell_ne_of_window hft hfu hord (by omega) hi hj
  · -- `t` is younger, hence still in flight, and the device did not apply it before `u`
    have htinfl : t ∈ d.writer.inflight := by
      rcases mem_append.mp htsub with hdone | hinfl
      · have hbefore := (pairwise_append.mp hlog.ordered).2.2 t hdone u
          (mem_append_left _ hu) hshard
        omega
      · exact hinfl
    have hdisj := hio t htinfl (by rw [ht]; rfl) (by omega)
    intro heq
    exact hdisj ⟨hshard.symm, by omega, by omega⟩

theorem Inv.applyWrite (h : Inv past d) {u : WriteTask n} {c : ℕ} (hio : d.FaithfulIo (.apply u c))
    (hu : u ∈ d.writer.inflight) (hnew : d.applied u = none) (hc : c ≤ u.block.memoryFootprint) :
    Inv (past ++ [.apply u c]) (d.applyWrite u c) where
  sources := by
    show (d.writer.log.map fun t => (t.key, t.block)).Sublist _
    simpa [SsdEvent.candidates, SsdEvent.toWriter] using h.sources
  writer := h.writer
  submitted := by
    intro t ht
    by_cases htu : t = u
    · subst htu
      exact mem_append_right _ hu
    · exact h.submitted t (by simpa [SsdDevice.applyWrite, update_of_ne htu] using ht)
  stored := by
    intro t count ht hvalid i hi hcount
    have hulen : (u.block.bytes.take c).length = c := by
      rw [length_take, u.block.length_bytes]; omega
    by_cases htu : t = u
    · -- the bytes just written
      subst htu
      have : c = count := by simpa [SsdDevice.applyWrite] using ht
      simp only [SsdDevice.applyWrite, update_self]
      rw [writeAt_inside _ _ (by omega), getElem_take]
    · -- bytes written before: on another file, or out of the way
      have ht' : d.applied t = some count := by
        simpa [SsdDevice.applyWrite, update_of_ne htu] using ht
      have hold := h.stored t count ht' hvalid i hi hcount
      have htlen : t.entry.len = t.block.bytes.length := by
        have := h.submitted t (by rw [ht']; simp)
        rw [t.block.length_bytes]
        refine h.writer.log.len_eq t ?_
        rw [← append_assoc]
        exact mem_append_left _ this
      by_cases hshard : t.entry.shardId = u.entry.shardId
      · have hulen' : u.entry.len = u.block.memoryFootprint :=
          h.writer.log.len_eq u (mem_append_right _ (mem_append_left _ hu))
        simp only [SsdDevice.applyWrite, hshard, update_self]
        rw [writeAt_outside, ← hshard]
        · exact hold
        · intro j hj
          exact h.cell_ne hio hu ht' htu hvalid hshard (by omega) (by omega)
      · simpa [SsdDevice.applyWrite, update_of_ne hshard] using hold
  full := by
    intro t ht
    have hfull := h.full t ht
    have htu : t ≠ u := by rintro rfl; rw [hnew] at hfull; cases hfull
    simpa [SsdDevice.applyWrite, update_of_ne htu] using hfull

theorem Inv.writerStep [NeZero n] (h : Inv past d) (hkeys : DistinctKeys past)
    (hio : d.FaithfulIo ev) {wev : WriterEvent} {w : SsdWriter n} (hev : ev.toWriter = some wev)
    (hstep : d.writer.step writeInflight wev = some w)
    (hcount : ∀ count, ev = .complete (some count) →
      ∀ t ∈ d.writer.inflight.head?, d.applied t = some count) :
    Inv (past ++ [ev]) { d with writer := w } where
  sources := by
    obtain ⟨new, hlog, hnew⟩ := log_step hstep
    rw [hlog, map_append, flatMap_append]
    refine h.sources.append ?_
    simpa [SsdEvent.candidates, hev] using hnew
  writer := inv_step _ _ _ h.writer
    (ownAllocation_of_nodup h.writer (h.log_keys_nodup hkeys) wev) hstep
  submitted := fun t ht => submitted_step hstep (h.submitted t ht)
  stored := fun t count ht hvalid =>
    h.stored t count ht (isOffsetValid_of_step hstep hvalid)
  full := by
    intro t ht
    cases turn_of_step hstep with
    | submit | prepare | idle => exact h.full t ht
    | complete hq =>
      rcases mem_append.mp ht with ht | ht
      · exact h.full t ht
      · -- the write that just ended reported all its bytes
        obtain ⟨rfl, rfl⟩ := Prod.mk.inj (mem_singleton.mp ht)
        cases ev with
        | submit | recv cmd | apply u c => cases hev
        | complete result =>
          rcases result with - | count
          · cases hev
          · have hhead : t ∈ d.writer.inflight.head? := by rw [hq]; rfl
            have happ := hcount count rfl t hhead
            rw [hio t hhead] at happ
            exact happ

theorem inv_step [NeZero n] (past : List (SsdEvent n)) (d : SsdDevice n) (ev : SsdEvent n)
    (d' : SsdDevice n) (h : DistinctKeys past → Inv past d) (hio : d.FaithfulIo ev)
    (hstep : d.step writeInflight ev = some d') (hkeys : DistinctKeys (past ++ [ev])) :
    Inv (past ++ [ev]) d' := by
  have hpast : DistinctKeys past := by
    refine List.Nodup.sublist ?_ hkeys
    rw [flatMap_append, map_append]
    exact sublist_append_left _ _
  rcases step_cases hstep with ⟨wev, w, hev, hw, rfl, hcount⟩ | ⟨t, c, rfl, ht, hnew, hc, rfl⟩
  · exact (h hpast).writerStep hpast hio hev hw hcount
  · exact (h hpast).applyWrite hio ht hnew hc

/-! ### Contents of committed blocks -/

/-- The bytes under every entry `get` returns are the bytes of the block received under
that key. -/
def HoldsBlocks (evs : List (SsdEvent n)) (d : SsdDevice n) : Prop :=
  ∀ key e, d.writer.ring.get key = some e →
    ∃ block, (key, block) ∈ evs.flatMap SsdEvent.candidates ∧
      readAt (d.files e.shardId) e.fileOffset e.len = block.bytes

/-- **The files hold the committed blocks.**  After every run over pairwise distinct keys in which
the device reports full writes and applies no write over a younger one, everything `get`
returns is on the file. -/
theorem holdsBlocks_of_faithfulIo [NeZero n] (writeInflight : ℕ) (shardCapacities : Fin n → ℕ)
    (files : Fin n → ℕ → UInt8) (evs : List (SsdEvent n)) (d : SsdDevice n)
    (hkeys : DistinctKeys evs)
    (hio : Along (step writeInflight) FaithfulIo (new shardCapacities files) evs)
    (hrun : exec (step writeInflight) (new shardCapacities files) evs = some d) :
    HoldsBlocks evs d := by
  have hinv : Inv evs d := by
    have := exec_history (I := fun past d => DistinctKeys past → Inv past d) inv_step
      [] (fun _ => inv_new shardCapacities files) hio hrun
    exact this hkeys
  intro key e hget
  obtain ⟨hcommitted, hvalid⟩ := SsdRingBuffer.get_eq_some.mp hget
  obtain ⟨t, ht, rfl, rfl⟩ := hinv.writer.committed key e hcommitted
  have htlog : t ∈ d.writer.log :=
    mem_append_left _ (mem_map_of_mem (f := Prod.fst) ht)
  refine ⟨t.block, hinv.sources.subset (mem_map_of_mem htlog), ?_⟩
  rw [hinv.writer.log.len_eq t htlog, ← t.block.length_bytes]
  refine readAt_eq fun i hi => ?_
  exact hinv.stored t _ (hinv.full t ht) hvalid i hi (by rw [← t.block.length_bytes]; exact hi)

/-- The write of a one-byte block to the only shard. -/
def byteTask (id byte : UInt8) (begin fileOffset : ℕ) : WriteTask 1 where
  key := byteKey id
  block := byteBlock byte
  entry :=
    { shardId := 0, begin, len := 1, fileOffset, slots := (byteBlock byte).slotMetas }

/-- Three blocks on a ring of two bytes, all in flight at once; the third reuses the byte
of the first, and the device applies them in order of submission. -/
def wrapInOrder : List (SsdEvent 1) :=
  [.recv (some (.write (byteBatch [(1, 7), (2, 8), (3, 9)]))), .submit, .submit, .submit,
   .apply (byteTask 1 7 0 0) 1, .apply (byteTask 2 8 1 1) 1, .apply (byteTask 3 9 2 0) 1,
   .complete (some 1), .complete (some 1), .complete (some 1)]

theorem holdsBlocks_wrapInOrder :
    ∃ d, exec (step 3) (new (fun _ => 2) fun _ _ => 0) wrapInOrder = some d ∧
      d.writer.ring.get (byteKey 3) = some (byteTask 3 9 2 0).entry ∧
      HoldsBlocks wrapInOrder d :=
  ⟨_, rfl, rfl, holdsBlocks_of_faithfulIo 3 (fun _ => 2) (fun _ _ => 0) wrapInOrder _
    (by decide) (by decide) rfl⟩

/-- Two ways to lose a block.  A write that reports zero bytes is committed as a
success.  And with the first and third write of `wrapInOrder` applied in the other order,
the third block is committed while the file holds the byte of the first. -/
theorem not_holdsBlocks_short_or_reordered :
    (∃ evs d, DistinctKeys evs ∧ exec (step 1) (new (fun _ : Fin 1 => 8) fun _ _ => 0) evs =
      some d ∧ ¬ HoldsBlocks evs d) ∧
    (∃ evs d, DistinctKeys evs ∧ exec (step 3) (new (fun _ : Fin 1 => 2) fun _ _ => 0) evs =
      some d ∧ ¬ HoldsBlocks evs d) := by
  constructor
  · refine ⟨[.recv (some (.write (byteBatch [(1, 7)]))), .submit, .apply (byteTask 1 7 0 0) 0,
      .complete (some 0)], _, by decide, rfl, ?_⟩
    intro h
    obtain ⟨block, hmem, hread⟩ := h (byteKey 1) _ rfl
    cases mem_singleton.mp hmem
    exact absurd hread (by decide)
  · refine ⟨[.recv (some (.write (byteBatch [(1, 7), (2, 8), (3, 9)]))), .submit, .submit,
      .submit, .apply (byteTask 3 9 2 0) 1, .apply (byteTask 2 8 1 1) 1,
      .apply (byteTask 1 7 0 0) 1, .complete (some 1), .complete (some 1), .complete (some 1)],
      _, by decide, rfl, ?_⟩
    intro h
    obtain ⟨block, hmem, hread⟩ := h (byteKey 3) _ rfl
    have hmem : (byteKey 3, block) ∈
        [(byteKey 1, byteBlock 7), (byteKey 2, byteBlock 8), (byteKey 3, byteBlock 9)] := hmem
    simp only [mem_cons, Prod.mk.injEq, not_mem_nil, or_false,
      show byteKey 3 ≠ byteKey 1 by decide, show byteKey 3 ≠ byteKey 2 by decide,
      false_and, false_or, true_and] at hmem
    subst hmem
    exact absurd hread (by decide)

end SsdDevice

end PegaFlow
