/-
PegaFlow/SsdWriter.lean

`ssd_writer_loop`: the task that owns the write side of the SSD cache.

The loop keeps a queue of prepared writes (`pending`), the submitted ones in
submission order (`inflight`, a `FuturesOrdered`: completions are delivered in that
order), and the waiting flushes.  One turn of the loop takes one branch of its `select!`;
which branch is ready, and how a write ended, is the environment's choice and therefore
part of the event.  The store outlives the loop here, so `commit_write` always reaches
the ring.
-/
import Mathlib.Data.List.Nodup
import PegaFlow.Run
import PegaFlow.SsdRing

namespace PegaFlow

open List Function SsdRingBuffer

/-- Batch of sealed blocks to write.  The references are weak: `none` is a block that is
gone when the writer gets to it.  Batches come from the save path, whose blocks have at
least one slot of at least one byte. -/
structure SsdWriteBatch where
  blocks : List (BlockKey × Option SealedBlock)
  footprint_pos : ∀ key block, (key, some block) ∈ blocks → 0 < block.memoryFootprint

/-- The blocks that can still be upgraded. -/
def SsdWriteBatch.candidates (b : SsdWriteBatch) : List (BlockKey × SealedBlock) :=
  b.blocks.filterMap fun p => p.2.map fun block => (p.1, block)

theorem SsdWriteBatch.candidates_pos {b : SsdWriteBatch} {key : BlockKey} {block : SealedBlock}
    (h : (key, block) ∈ b.candidates) : 0 < block.memoryFootprint := by
  obtain ⟨⟨k, w⟩, hmem, hw⟩ := mem_filterMap.mp h
  rcases w with - | block'
  · cases hw
  · cases hw
    exact b.footprint_pos k block hmem

/-- A batch of one-byte blocks, for runs on concrete inputs. -/
def byteBatch (blocks : List (UInt8 × UInt8)) : SsdWriteBatch where
  blocks := blocks.map fun p => (byteKey p.1, some (byteBlock p.2))
  footprint_pos := by
    intro key block h
    obtain ⟨p, -, hp⟩ := mem_map.mp h
    cases hp
    exact one_pos

inductive SsdWriteCommand where
  | write (batch : SsdWriteBatch)
  | flush

/-- What makes the loop take a turn: the oldest submitted write ends, there is room to
submit, or the channel yields a command (`none` once it is closed). -/
inductive WriterEvent where
  | complete (success : Bool)
  | submit
  | recv (cmd : Option SsdWriteCommand)

/-- The candidates an event brings from the channel. -/
def WriterEvent.candidates : WriterEvent → List (BlockKey × SealedBlock)
  | .recv (some (.write batch)) => batch.candidates
  | _ => []

structure SsdWriter (n : ℕ) where
  ring : SsdRingBuffer n
  pending : List (WriteTask n)
  inflight : List (WriteTask n)
  flushWaiters : ℕ
  running : Bool
  /-- Completions delivered so far, oldest first. -/
  completed : List (WriteTask n × Bool)

variable {n : ℕ}

variable {ev : WriterEvent} {w w' : SsdWriter n} {writeInflight : ℕ}

namespace SsdWriter

/-- The loop starts on a fresh ring, with nothing queued. -/
def new [NeZero n] (shardCapacities : Fin n → ℕ) : SsdWriter n where
  ring := .newSharded shardCapacities
  pending := []
  inflight := []
  flushWaiters := 0
  running := true
  completed := []

/-- Top of the loop: if a flush is pending and all work is drained, fire it. -/
def fireFlush (w : SsdWriter n) : SsdWriter n :=
  if w.flushWaiters ≠ 0 ∧ w.pending = [] ∧ w.inflight = [] then { w with flushWaiters := 0 } else w

/-- The branches of the `select!`.  After the channel closed only the drain of the
submitted writes goes on. -/
def select [NeZero n] (writeInflight : ℕ) (w : SsdWriter n) : WriterEvent → Option (SsdWriter n)
  | .complete success =>
      match w.inflight with
      | [] => none
      | t :: rest =>
          some { w with
            ring := (w.ring.commit t.key success).2
            inflight := rest
            completed := w.completed ++ [(t, success)] }
  | .submit =>
      match w.pending with
      | [] => none
      | t :: rest =>
          if w.running ∧ w.inflight.length < max writeInflight 1 then
            some { w with pending := rest, inflight := w.inflight ++ [t] }
          else none
  | .recv cmd =>
      if w.running ∧ w.pending = [] ∧ w.flushWaiters = 0 then
        match cmd with
        | some (.write batch) =>
            let prepared := w.ring.prepareBatch batch.candidates
            some { w with ring := prepared.2, pending := prepared.1 }
        | some .flush => some { w with flushWaiters := w.flushWaiters + 1 }
        | none => some { w with running := false }
      else none

/-- One turn of the loop. -/
def step [NeZero n] (writeInflight : ℕ) (w : SsdWriter n) (ev : WriterEvent) :
    Option (SsdWriter n) :=
  w.fireFlush.select writeInflight ev

theorem fireFlush_eq (w : SsdWriter n) : ∃ k, w.fireFlush = { w with flushWaiters := k } := by
  unfold fireFlush
  split
  · exact ⟨0, rfl⟩
  · exact ⟨w.flushWaiters, rfl⟩

/-- What one turn does: it delivers the oldest completion, submits the oldest pending write,
prepares a batch, or leaves ring and queues alone. -/
inductive Turn [NeZero n] (w : SsdWriter n) : WriterEvent → SsdWriter n → Prop
  | complete {success : Bool} {t : WriteTask n} {rest : List (WriteTask n)} {flushWaiters : ℕ}
      (hq : w.inflight = t :: rest) : Turn w (.complete success)
        { w with ring := (w.ring.commit t.key success).2, inflight := rest
                 completed := w.completed ++ [(t, success)], flushWaiters }
  | submit {t : WriteTask n} {rest : List (WriteTask n)} {flushWaiters : ℕ}
      (hp : w.pending = t :: rest) : Turn w .submit
        { w with pending := rest, inflight := w.inflight ++ [t], flushWaiters }
  | prepare {batch : SsdWriteBatch} {flushWaiters : ℕ} (hp : w.pending = []) :
      Turn w (.recv (some (.write batch)))
        { w with ring := (w.ring.prepareBatch batch.candidates).2
                 pending := (w.ring.prepareBatch batch.candidates).1, flushWaiters }
  | idle {cmd : Option SsdWriteCommand} {flushWaiters : ℕ} {running : Bool}
      (hcmd : ∀ batch, cmd ≠ some (.write batch)) :
      Turn w (.recv cmd) { w with flushWaiters, running }

/-- **Inversion of one turn.** -/
theorem turn_of_step [NeZero n] (h : w.step writeInflight ev = some w') : Turn w ev w' := by
  unfold step at h
  obtain ⟨k, hk⟩ := w.fireFlush_eq
  rw [hk] at h
  cases ev with
  | complete success =>
    rcases hq : w.inflight with - | ⟨t, rest⟩
    · simp [select, hq] at h
    · simp only [select, hq, Option.some.injEq] at h
      subst h
      exact .complete hq
  | submit =>
    rcases hp : w.pending with - | ⟨t, rest⟩
    · simp [select, hp] at h
    · simp only [select, hp] at h
      split at h
      · cases h
        exact .submit hp
      · cases h
  | recv cmd =>
    simp only [select] at h
    split at h
    · next hguard =>
      rcases cmd with - | ⟨batch⟩ | -
      · cases h
        exact .idle (by simp)
      · cases h
        exact .prepare hguard.2.1
      · cases h
        exact .idle (by simp)
    · cases h

/-! ### Index entries and their writes -/

end SsdWriter

/-- The index against the writes behind it: `done` are the delivered completions, `out`
the tasks still outstanding, both oldest first, so that together they are the log of all
allocations.  A `writing` entry belongs to an outstanding write of its key, a `committed`
entry to a write of its key that has ended with success. -/
structure IndexInv (r : SsdRingBuffer n) (done : List (WriteTask n × Bool))
    (out : List (WriteTask n)) : Prop where
  log : r.AllocLog (done.map Prod.fst ++ out)
  len_pos : ∀ t ∈ done.map Prod.fst ++ out, 0 < t.entry.len
  writing : ∀ key e, r.entries key = some (.writing e) → ∃ t ∈ out, t.key = key ∧ t.entry = e
  committed : ∀ key e, r.entries key = some (.committed e) →
    ∃ t, (t, true) ∈ done ∧ t.key = key ∧ t.entry = e

namespace IndexInv

variable {r r' : SsdRingBuffer n} {done : List (WriteTask n × Bool)} {out : List (WriteTask n)}
  {t : WriteTask n} {key : BlockKey} {block : SealedBlock} {success : Bool} {u : WriteTask n}

theorem prepared (h : IndexInv r done out) (hp : r.Prepared key block t r')
    (hpos : 0 < block.memoryFootprint) : IndexInv r' done (out ++ [t]) where
  log := by
    rw [← append_assoc]
    exact h.log.prepared hp
  len_pos := by
    intro u hu
    rw [← append_assoc, mem_append] at hu
    rcases hu with hu | hu
    · exact h.len_pos u hu
    · rw [mem_singleton.mp hu, hp.len_eq]
      exact hpos
  writing := by
    intro k e he
    by_cases hk : k = key
    · subst hk
      rw [hp.entries_self] at he
      cases he
      exact ⟨t, by simp, hp.key_eq, rfl⟩
    · obtain ⟨u, hu, hkey, hentry⟩ := h.writing k e (hp.entries_ne k _ hk he)
      exact ⟨u, mem_append_left _ hu, hkey, hentry⟩
  committed := by
    intro k e he
    by_cases hk : k = key
    · subst hk
      rw [hp.entries_self] at he
      cases he
    · exact h.committed k e (hp.entries_ne k _ hk he)

theorem prepareBatch [NeZero n] {batch : SsdWriteBatch} (h : IndexInv r done out) :
    IndexInv (r.prepareBatch batch.candidates).2 done
      (out ++ (r.prepareBatch batch.candidates).1) := by
  refine prepareWrites_induct (I := fun ts r => IndexInv r done ts) ?_ out h
  intro key block ts r t r' hmem hinv hp
  exact hinv.prepared hp (SsdWriteBatch.candidates_pos (mem_of_mem_filter hmem))

theorem pairwise_not_sameAlloc (h : IndexInv r done out) :
    (done.map Prod.fst ++ out).Pairwise fun a b => ¬ a.entry.SameAlloc b.entry :=
  h.log.pairwise_not_sameAlloc h.len_pos

theorem not_sameAlloc_of_mem (h : IndexInv r done (t :: out)) (hu : u ∈ out) :
    ¬ t.entry.SameAlloc u.entry := by
  have hpair := (pairwise_append.mp h.pairwise_not_sameAlloc).2.1
  exact (pairwise_cons.mp hpair).1 u hu

theorem done_not_sameAlloc (h : IndexInv r done out) {p : WriteTask n × Bool} (hp : p ∈ done)
    (hu : u ∈ out) : ¬ p.1.entry.SameAlloc u.entry :=
  (pairwise_append.mp h.pairwise_not_sameAlloc).2.2 p.1 (mem_map_of_mem hp) u hu

/-- Two different deliveries are of different allocations. -/
theorem done_pairwise (h : IndexInv r done out) {p q : WriteTask n × Bool} (hp : p ∈ done)
    (hq : q ∈ done) (hne : p ≠ q) : ¬ p.1.entry.SameAlloc q.1.entry := by
  have hpair := pairwise_map.mp (pairwise_append.mp h.pairwise_not_sameAlloc).1
  have : Std.Symm fun a b : WriteTask n × Bool => ¬ a.1.entry.SameAlloc b.1.entry :=
    ⟨fun _ _ hab hba => hab ⟨hba.1.symm, hba.2.symm⟩⟩
  exact hpair.forall hp hq hne

/-- Delivering the oldest completion keeps the invariant, provided a success that meets a
valid `writing` entry meets the entry of its own allocation. -/
theorem commit (h : IndexInv r done (t :: out))
    (hown : success → ∀ e, r.entries t.key = some (.writing e) → r.IsOffsetValid e →
      e.SameAlloc t.entry) : IndexInv (r.commit t.key success).2 (done ++ [(t, success)]) out := by
  have hlog : r.AllocLog ((done ++ [(t, success)]).map Prod.fst ++ out) := by
    simpa using h.log
  have hpos : ∀ u ∈ (done ++ [(t, success)]).map Prod.fst ++ out, 0 < u.entry.len := by
    simpa using h.len_pos
  -- an entry under another key, or a committed one, does not belong to `t`
  have hwriting : ∀ k e, k ≠ t.key → r.entries k = some (.writing e) →
      ∃ u ∈ out, u.key = k ∧ u.entry = e := by
    intro k e hk he
    obtain ⟨u, hu, hkey, hentry⟩ := h.writing k e he
    rcases mem_cons.mp hu with rfl | hu
    · exact absurd hkey.symm hk
    · exact ⟨u, hu, hkey, hentry⟩
  have hcommitted : ∀ k e, r.entries k = some (.committed e) →
      ∃ u, (u, true) ∈ done ++ [(t, success)] ∧ u.key = k ∧ u.entry = e := by
    intro k e he
    obtain ⟨u, hu, hkey, hentry⟩ := h.committed k e he
    exact ⟨u, mem_append_left _ hu, hkey, hentry⟩
  rcases r.commit_cases t.key success with ⟨heq, hnw⟩ | heq | ⟨e₀, he₀, hvalid, rfl, heq⟩
  · -- the index is unchanged and holds no `writing` entry under the key
    rw [heq]
    refine ⟨hlog, hpos, ?_, hcommitted⟩
    intro k e he
    by_cases hk : k = t.key
    · subst hk; exact absurd he (hnw e)
    · exact hwriting k e hk he
  · -- the entry under the key is dropped
    rw [heq]
    refine ⟨hlog.congr rfl, hpos, ?_, ?_⟩
    · intro k e he
      have hk : k ≠ t.key := by rintro rfl; simp at he
      exact hwriting k e hk (by simpa [update_of_ne hk] using he)
    · intro k e he
      have hk : k ≠ t.key := by rintro rfl; simp at he
      exact hcommitted k e (by simpa [update_of_ne hk] using he)
  · -- the entry becomes readable; by `hown` it is the entry of `t`
    have hentry : t.entry = e₀ := by
      obtain ⟨u, hu, -, hue⟩ := h.writing t.key e₀ he₀
      rcases mem_cons.mp hu with rfl | hu
      · exact hue
      · have hsame := hown rfl e₀ he₀ hvalid
        rw [← hue] at hsame
        exact absurd ⟨hsame.1.symm, hsame.2.symm⟩ (h.not_sameAlloc_of_mem hu)
    rw [heq]
    refine ⟨hlog.congr rfl, hpos, ?_, ?_⟩
    · intro k e he
      have hk : k ≠ t.key := by rintro rfl; simp at he
      exact hwriting k e hk (by simpa [update_of_ne hk] using he)
    · intro k e he
      by_cases hk : k = t.key
      · subst hk
        have : e₀ = e := by simpa using he
        exact ⟨t, by simp, rfl, hentry.trans this⟩
      · exact hcommitted k e (by simpa [update_of_ne hk] using he)

end IndexInv

namespace SsdWriter

/-- The invariant of the loop. -/
def Inv (w : SsdWriter n) : Prop :=
  IndexInv w.ring w.completed (w.inflight ++ w.pending)

theorem inv_new [NeZero n] (shardCapacities : Fin n → ℕ) : (new shardCapacities).Inv where
  log := allocLog_newSharded shardCapacities
  len_pos := by simp [new]
  writing := by intro key e he; cases he
  committed := by intro key e he; cases he

/-- The completion about to be delivered is a success and the index has a valid `writing`
entry under its key: then that entry is the allocation this write was prepared for. -/
def OwnAllocation (w : SsdWriter n) : WriterEvent → Prop
  | .complete true =>
      ∀ t ∈ w.inflight.head?, ∀ state ∈ w.ring.entries t.key, state = .writing state.entry →
        w.ring.IsOffsetValid state.entry → state.entry.SameAlloc t.entry
  | _ => True

instance (w : SsdWriter n) : ∀ ev, Decidable (w.OwnAllocation ev)
  | .complete true => inferInstanceAs (Decidable (∀ t ∈ w.inflight.head?, _))
  | .complete false => .isTrue trivial
  | .submit => .isTrue trivial
  | .recv _ => .isTrue trivial

theorem inv_step [NeZero n] (w : SsdWriter n) (ev : WriterEvent) (w' : SsdWriter n) (h : w.Inv)
    (hown : w.OwnAllocation ev) (hstep : w.step writeInflight ev = some w') : w'.Inv := by
  unfold Inv at h ⊢
  cases turn_of_step hstep with
  | complete hq =>
    rw [hq] at h
    refine h.commit ?_
    rintro rfl e he hvalid
    exact hown _ (by simp [hq]) _ he rfl hvalid
  | submit hp =>
    rw [hp] at h
    simpa using h
  | prepare hp =>
    rw [hp, append_nil] at h
    exact h.prepareBatch
  | idle => exact h

/-! ### What a turn does to the log -/

/-- All writes prepared so far, oldest first. -/
def log (w : SsdWriter n) : List (WriteTask n) :=
  w.completed.map Prod.fst ++ (w.inflight ++ w.pending)

/-- The writes the device has been given so far. -/
def submitted (w : SsdWriter n) : List (WriteTask n) :=
  w.completed.map Prod.fst ++ w.inflight

section

variable [NeZero n] (h : w.step writeInflight ev = some w')
include h

theorem log_step :
    ∃ new, w'.log = w.log ++ new ∧
      (new.map fun t => (t.key, t.block)).Sublist ev.candidates := by
  unfold log
  cases turn_of_step h with
  | complete hq => exact ⟨[], by simp [hq], nil_sublist _⟩
  | submit hp => exact ⟨[], by simp [hp], nil_sublist _⟩
  | @prepare batch _ hp =>
    refine ⟨(w.ring.prepareBatch batch.candidates).1, ?_, ?_⟩
    · simp [hp]
    · exact prepareBatch_sublist _ _
  | idle => exact ⟨[], by simp, nil_sublist _⟩

theorem submitted_step :
    w.submitted ⊆ w'.submitted := by
  unfold submitted
  cases turn_of_step h with
  | complete hq =>
    rw [hq]
    intro u hu
    simpa using hu
  | submit =>
    rw [← append_assoc]
    exact subset_append_left _ _
  | prepare | idle => exact fun _ hu => hu

/-- An allocation that is valid after a turn was valid before it. -/
theorem isOffsetValid_of_step {e : SsdIndexEntry n} (hvalid : w'.ring.IsOffsetValid e) :
    w.ring.IsOffsetValid e := by
  unfold SsdRingBuffer.IsOffsetValid at hvalid ⊢
  cases turn_of_step h with
  | complete => rwa [commit_shards] at hvalid
  | prepare => exact (prepareBatch_tail_mono _ _ _).trans hvalid
  | submit | idle => exact hvalid

end

/-- With one write per key, a completion can only meet its own entry. -/
theorem ownAllocation_of_nodup (h : w.Inv) (hkeys : (w.log.map WriteTask.key).Nodup)
    (ev : WriterEvent) : w.OwnAllocation ev := by
  match ev with
  | .submit | .recv _ | .complete false => trivial
  | .complete true =>
    intro t ht state hstate hw hvalid
    rw [hw] at hstate
    obtain ⟨u, hu, hkey, hentry⟩ := h.writing t.key _ hstate
    have ht' : t ∈ w.log :=
      mem_append_right _ (mem_append_left _ (mem_of_mem_head? ht))
    have : u = t :=
      inj_on_of_nodup_map hkeys (mem_append_right _ hu) ht' hkey
    subst this
    rw [← hentry]
    exact ⟨rfl, rfl⟩

/-! ### Two-phase commit -/

/-- What `get` returns has been written: a write of exactly that allocation has ended
with success, and none has ended with failure. -/
def TwoPhaseCommit (w : SsdWriter n) : Prop :=
  ∀ key e, w.ring.get key = some e →
    (∃ t, (t, true) ∈ w.completed ∧ t.entry.SameAlloc e) ∧
    ∀ t, (t, false) ∈ w.completed → ¬ t.entry.SameAlloc e

theorem twoPhaseCommit_of_inv (w : SsdWriter n) (h : w.Inv) : w.TwoPhaseCommit := by
  intro key e hget
  obtain ⟨t, ht, -, rfl⟩ := h.committed key e (get_eq_some.mp hget).1
  refine ⟨⟨t, ht, rfl, rfl⟩, ?_⟩
  intro u hu
  exact h.done_pairwise hu ht (by simp)

/-- A success delivered to another write's entry makes that entry readable while its own
write is still outstanding. -/
theorem not_twoPhaseCommit_of_step [NeZero n] (w : SsdWriter n) (ev : WriterEvent)
    (w' : SsdWriter n) (h : w.Inv) (hown : ¬ w.OwnAllocation ev)
    (hstep : w.step writeInflight ev = some w') : ¬ w'.TwoPhaseCommit := by
  cases turn_of_step hstep with
  | submit | prepare | idle => exact absurd trivial hown
  | @complete success t rest _ hq =>
    cases success with
    | false => exact absurd trivial hown
    | true =>
      -- the entry found under the key is not the allocation of `t`
      simp only [OwnAllocation, hq, head?_cons, Option.mem_def, Option.some.injEq] at hown
      push Not at hown
      obtain ⟨t', rfl, state, hstate, hw, hvalid, hother⟩ := hown
      rw [hw] at hstate
      rw [Inv, hq] at h
      obtain ⟨u, hu, -, hue⟩ := h.writing t.key _ hstate
      -- so it belongs to a younger write, and becomes readable before that one ends
      have hu : u ∈ rest ++ w.pending := by
        rcases mem_cons.mp hu with rfl | hu
        · exact absurd ⟨by rw [hue], by rw [hue]⟩ hother
        · exact hu
      have hget : (w.ring.commit t.key true).2.get t.key = some u.entry := by
        rw [hue]
        exact get_commit_of_writing hstate hvalid
      intro hsafe
      obtain ⟨⟨v, hv, hsame⟩, -⟩ := hsafe _ _ hget
      rcases mem_append.mp hv with hv | hv
      · exact h.done_not_sameAlloc hv (mem_cons_of_mem _ hu) hsame
      · cases mem_singleton.mp hv
        exact h.not_sameAlloc_of_mem hu hsame

/-- **Two-phase commit, exactly.**  In every run of the writer loop, over any batches and
any outcomes of the writes, `get` returns only what has been written, in every state of
the run, if and only if every delivered success that meets a valid `writing` entry meets
the entry of the allocation that was written. -/
theorem twoPhaseCommit_iff [NeZero n] (writeInflight : ℕ) (shardCapacities : Fin n → ℕ)
    (evs : List WriterEvent) :
    Always (step writeInflight) TwoPhaseCommit (new shardCapacities) evs ↔
      Along (step writeInflight) OwnAllocation (new shardCapacities) evs :=
  always_iff_along twoPhaseCommit_of_inv inv_step not_twoPhaseCommit_of_step
    (inv_new shardCapacities)

/-- Two keys, the second write failing: every completion meets its own entry. -/
theorem twoPhaseCommit_twoKeys :
    Always (step 2) TwoPhaseCommit (new fun _ : Fin 1 => 8)
      [.recv (some (.write (byteBatch [(1, 7), (2, 8)]))), .submit, .submit, .complete true,
        .complete false] :=
  (twoPhaseCommit_iff 2 (fun _ => 8) _).mpr (by decide)

/-- The filter of `prepare_batch` runs before the first insertion, so both copies are
allocated, the second over the first in the index.  The first write ends with success:
`get` now returns the second allocation, whose write is still outstanding. -/
theorem duplicateKey_not_twoPhaseCommit :
    ¬ Always (step 2) TwoPhaseCommit (new fun _ : Fin 1 => 8)
      [.recv (some (.write (byteBatch [(1, 7), (1, 7)]))), .submit, .submit, .complete true] := by
  intro h
  have hlast := h.exec rfl
  obtain ⟨⟨t, ht, hsame⟩, -⟩ := hlast (byteKey 1) _ rfl
  cases mem_singleton.mp ht
  exact absurd hsame (by decide)

/-! ### Flushes -/

theorem select_grows [NeZero n] (h : w.select writeInflight ev = some w') :
    w.flushWaiters ≤ w'.flushWaiters ∧ w.completed ⊆ w'.completed := by
  cases ev with
  | complete success =>
    rcases hq : w.inflight with - | ⟨t, rest⟩ <;> simp only [select, hq] at h
    · cases h
    · cases h
      exact ⟨le_rfl, subset_append_left _ _⟩
  | submit =>
    rcases hp : w.pending with - | ⟨t, rest⟩ <;> simp only [select, hp] at h
    · cases h
    · cases (Option.ite_none_right_eq_some.mp h).2
      exact ⟨le_rfl, fun _ ht => ht⟩
  | recv cmd =>
    replace h := (Option.ite_none_right_eq_some.mp h).2
    rcases cmd with - | ⟨batch⟩ | - <;> cases h
    · exact ⟨le_rfl, fun _ ht => ht⟩
    · exact ⟨le_rfl, fun _ ht => ht⟩
    · exact ⟨Nat.le_succ _, fun _ ht => ht⟩

/-- A flush that came after the writes `before` is waiting, or these have ended. -/
structure Drained (before : List (WriteTask n)) (w : SsdWriter n) : Prop where
  logged : before ⊆ w.log
  ended : w.flushWaiters = 0 → before ⊆ w.completed.map Prod.fst

variable {before : List (WriteTask n)}

theorem Drained.reply (h : Drained before w) (hreply : w.fireFlush.flushWaiters = 0) :
    before ⊆ w.completed.map Prod.fst := by
  unfold fireFlush at hreply
  split at hreply
  · next hidle =>
    have hlog := h.logged
    rwa [log, hidle.2.1, hidle.2.2, append_nil, append_nil] at hlog
  · exact h.ended hreply

theorem Drained.step [NeZero n] (w : SsdWriter n) (ev : WriterEvent) (w' : SsdWriter n)
    (h : Drained before w) (hstep : w.step writeInflight ev = some w') : Drained before w' := by
  obtain ⟨new, hlog, -⟩ := log_step hstep
  obtain ⟨hwaiters, hcompleted⟩ := select_grows hstep
  obtain ⟨k, hfire⟩ := w.fireFlush_eq
  refine ⟨fun t ht => ?_, fun hzero => ?_⟩
  · rw [hlog]
    exact mem_append_left _ (h.logged ht)
  · rw [hfire] at hcompleted
    exact Subset.trans (h.reply (Nat.le_zero.mp (hzero ▸ hwaiters))) (map_subset _ hcompleted)

/-- **A flush waits for what came before it.**  When the loop answers a flush, every write prepared
before the flush was received has ended, whatever else happened in between. -/
theorem flush_drains [NeZero n] {w₁ : SsdWriter n} {evs : List WriterEvent}
    (hflush : w.step writeInflight (.recv (some .flush)) = some w₁)
    (hrun : exec (step writeInflight) w₁ evs = some w') (hreply : w'.fireFlush.flushWaiters = 0) :
    w.log ⊆ w'.completed.map Prod.fst := by
  obtain ⟨new, hlog, -⟩ := log_step hflush
  have hstart : Drained w.log w₁ := by
    refine ⟨hlog ▸ subset_append_left _ _, fun hzero => ?_⟩
    cases (Option.ite_none_right_eq_some.mp hflush).2
    exact absurd hzero (Nat.succ_ne_zero _)
  exact ((always_of_step Drained.step hstart).exec hrun).reply hreply

/-- A flush behind one write, which fails. -/
theorem flush_drains_failed_write :
    ∃ w w₁ w' : SsdWriter 1,
      exec (step 1) (new fun _ => 8) [.recv (some (.write (byteBatch [(1, 7)]))), .submit] =
        some w ∧ w.step 1 (.recv (some .flush)) = some w₁ ∧
      exec (step 1) w₁ [.complete false] = some w' ∧ w.log ⊆ w'.completed.map Prod.fst :=
  ⟨_, _, _, rfl, rfl, rfl, flush_drains rfl (rfl : exec (step 1) _ [.complete false] = _) rfl⟩

end SsdWriter

end PegaFlow
