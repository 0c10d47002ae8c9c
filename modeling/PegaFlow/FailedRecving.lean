/-
PegaFlow/FailedRecving.lean

How the decode scheduler learns of a failed receive.

All ranks of the decode engine wait for a request, each on its own.  In every engine step vLLM
calls `get_finished` on each rank and then `build_connector_worker_meta`: the first returns the
requests whose wait has ended, the second those that failed, and each of them drains sets of its
own.  vLLM merges the metadata of the step, and it reports a request in the step in which the last
rank has returned it.  `update_connector_output` looks the request up in the metadata of that step.
-/
import Mathlib.Data.List.MinMax
import PegaFlow.DecodeWait

namespace PegaFlow

open DecodeWorker

variable {R : Type*} [DecidableEq R]

/-! ### One rank -/

namespace DecodeWorker

/-- `r` is in one of the sets that `get_finished` drains. -/
def noted (s : DecodeWorker R) (r : R) : Bool :=
  s.finishedRecving r || s.finishedRdmaWaits r || s.finishedAbortedRecving r || s.failedRecving r

/-- A whole call of `get_finished`: the requests it returns, and the worker after it. -/
def drain (s : DecodeWorker R) : (R → Bool) × DecodeWorker R :=
  let s := s.getFinished.getFinished.getFinished.getFinished
  (fun r => s.collected r || s.collectedFailed r, s.getFinished)

omit [DecidableEq R] in
theorem drain_spec {s : DecodeWorker R} (h : s.phase = .idle) (r : R) :
    s.drain.1 r = s.noted r ∧ s.drain.2.phase = .idle ∧ s.drain.2.noted r = false ∧
      s.drain.2.failedRecvingForMeta = s.failedRecvingForMeta ∧
      s.drain.2.waitReqs r = if s.noted r then none else s.waitReqs r := by
  simp [drain, getFinished, finishRecving, noted, h]

end DecodeWorker

/-- How the wait of a rank ends, and when this is noted: in an engine step before `get_finished`
or, if `late`, between `get_finished` and `build_connector_worker_meta`. -/
structure WaitOutcome where
  failed : Bool
  step : ℕ
  late : Bool

/-- What vLLM gets from a rank in a step; no metadata is the same as metadata of no request. -/
structure RankOutput (R : Type*) where
  finishedRecving : R → Bool
  failedRecving : R → Bool

namespace WaitOutcome

variable (o : WaitOutcome) (r : R) (n : ℕ) (s : DecodeWorker R)

/-- The outcome is noted, if it is time. -/
def note (now : Bool) : DecodeWorker R :=
  if now then if o.failed then s.markPrefillFailed r else s.recordRdmaDone r else s

/-- Step `n` of a rank. -/
def engineStep : RankOutput R × DecodeWorker R :=
  let s := o.note r s (o.step = n && !o.late)
  let (finishedRecving, s) := s.drain
  let s := o.note r s (o.step = n && o.late)
  ({ finishedRecving, failedRecving := s.failedRecvingForMeta },
    { s with failedRecvingForMeta := fun _ => false })

/-- The step in which the rank returns the request. -/
def reportStep : ℕ := if o.late then o.step + 1 else o.step

/-- A rank before step `n`. -/
structure Before : Prop where
  idle : s.phase = .idle
  waits : n ≤ o.step → (s.waitReqs r).isSome
  noted : s.noted r = (o.late && decide (n = o.step + 1))
  unmarked : s.failedRecvingForMeta r = false

variable {o r n s}

theorem note_spec (now : Bool) (hwaits : now → (s.waitReqs r).isSome) :
    (o.note r s now).phase = s.phase ∧ (o.note r s now).noted r = (now || s.noted r) ∧
      (o.note r s now).failedRecvingForMeta r =
        (now && o.failed || s.failedRecvingForMeta r) := by
  cases now with
  | false => exact ⟨rfl, rfl, rfl⟩
  | true =>
    obtain ⟨w, hw⟩ := Option.isSome_iff_exists.mp (hwaits rfl)
    cases hfailed : o.failed <;>
      simp [note, hfailed, hw, markPrefillFailed, markFailed,
        recordRdmaDone, noted]

/-- **Step lemma** of a rank. -/
theorem Before.engineStep (h : o.Before r n s) :
    (o.engineStep r n s).1.finishedRecving r = decide (n = o.reportStep) ∧
      (o.engineStep r n s).1.failedRecving r = (o.failed && decide (o.step = n)) ∧
      o.Before r (n + 1) (o.engineStep r n s).2 := by
  have hearly := note_spec (o := o) (o.step = n && !o.late) fun hnow =>
    h.waits (of_decide_eq_true (Bool.and_eq_true_iff.mp hnow).1).ge
  have hdrain := drain_spec (hearly.1.trans h.idle) r
  -- the request is waited for until the outcome is noted
  have hwaits : (o.step = n → o.late) → n ≤ o.step →
      ((o.note r s (o.step = n && !o.late)).drain.2.waitReqs r).isSome := by
    intro hlate hle
    have hnow : (decide (o.step = n) && !o.late) = false := by simpa using hlate
    have hquiet : s.noted r = false := by
      rw [h.noted, decide_eq_false (by omega), Bool.and_false]
    rw [hdrain.2.2.2.2, hearly.2.1, hnow, hquiet]
    exact h.waits hle
  have hlate := note_spec (o := o) (o.step = n && o.late) fun hnow => by
    obtain ⟨hstep, hlate⟩ := Bool.and_eq_true_iff.mp hnow
    exact hwaits (fun _ => hlate) (of_decide_eq_true hstep).ge
  refine ⟨hdrain.1.trans ?_, hlate.2.2.trans ?_, hlate.1.trans hdrain.2.1, fun hle => ?_,
    hlate.2.1.trans ?_, rfl⟩
  · rw [hearly.2.1, h.noted, reportStep]
    cases o.late <;> simp [eq_comm]
  · rw [hdrain.2.2.2.1, hearly.2.2, h.unmarked]
    cases o.late <;> simp [Bool.and_comm]
  · have hnow : (decide (o.step = n) && o.late) = false := by
      rw [decide_eq_false (by omega), Bool.false_and]
    show ((o.note r _ (decide (o.step = n) && o.late)).waitReqs r).isSome
    rw [hnow]
    exact hwaits (by omega) (by omega)
  · rw [hdrain.2.2.1]
    simp [eq_comm, Bool.and_comm]

end WaitOutcome

/-- A rank that waits for `r` with nothing noted of it. -/
structure DecodeRank (r : R) where
  worker : DecodeWorker R
  outcome : WaitOutcome
  start : outcome.Before r 0 worker

namespace DecodeRank

variable {r : R}

def workerAt (k : DecodeRank r) : ℕ → DecodeWorker R
  | 0 => k.worker
  | n + 1 => (k.outcome.engineStep r n (k.workerAt n)).2

def output (k : DecodeRank r) (n : ℕ) : RankOutput R :=
  (k.outcome.engineStep r n (k.workerAt n)).1

/-- **Run lemma** of a rank. -/
theorem before (k : DecodeRank r) (n : ℕ) : k.outcome.Before r n (k.workerAt n) := by
  induction n with
  | zero => exact k.start
  | succ n ih => exact ih.engineStep.2.2

end DecodeRank

/-! ### The scheduler -/

/-- The waits of `PdDecodeSchedulerConnector`. -/
structure DecodeScheduler (R : Type*) where
  activeWaits : R → Bool
  completedWaits : R → Bool

/-- `update_connector_output` -/
def DecodeScheduler.updateConnectorOutput (s : DecodeScheduler R)
    (finishedRecving failedRecving : R → Bool) : DecodeScheduler R where
  activeWaits q := !finishedRecving q && s.activeWaits q
  completedWaits q := if finishedRecving q then !failedRecving q else s.completedWaits q

section Engine

variable {r : R} (ranks : List (DecodeRank r)) (n : ℕ)

/-- vLLM reports a request in the step in which the last rank has returned it. -/
def reported (q : R) : Bool :=
  (ranks.any fun k => (k.output n).finishedRecving q) &&
    ranks.all fun k => (List.range (n + 1)).any fun m => (k.output m).finishedRecving q

/-- `PdWorkerMetadata.aggregate`, over all ranks. -/
def mergedMeta (q : R) : Bool := ranks.any fun k => (k.output n).failedRecving q

/-- The scheduler after the first steps. -/
def schedulerAt (s : DecodeScheduler R) : ℕ → DecodeScheduler R
  | 0 => s
  | n + 1 => (schedulerAt s n).updateConnectorOutput (reported ranks n) (mergedMeta ranks n)

variable {ranks n}

theorem reported_iff : reported ranks n r ↔
    (∃ k ∈ ranks, n = k.outcome.reportStep) ∧ ∀ k ∈ ranks, k.outcome.reportStep ≤ n := by
  have hout : ∀ (k : DecodeRank r) m,
      (k.output m).finishedRecving r = decide (m = k.outcome.reportStep) :=
    fun k m => (k.before m).engineStep.1
  simp only [reported, hout, Bool.and_eq_true, List.any_eq_true, List.all_eq_true,
    decide_eq_true_eq, List.mem_range, exists_eq_right, Nat.lt_succ_iff]

theorem mergedMeta_iff : mergedMeta ranks n r ↔
    ∃ k ∈ ranks, k.outcome.failed ∧ k.outcome.step = n := by
  have hout : ∀ k : DecodeRank r,
      (k.output n).failedRecving r = (k.outcome.failed && decide (k.outcome.step = n)) :=
    fun k => (k.before n).engineStep.2.1
  simp [mergedMeta, hout]

/-- **When a failure is seen.**  There is one step in which the request is reported.  From then on
the request is in the completed set exactly if no rank failed, just when some failed rank, if there
is one, has delivered its mark in that step. -/
theorem completedWaits_iff (ranks : List (DecodeRank r)) (hne : ranks ≠ [])
    (s : DecodeScheduler R) :
    ∃ last, (∀ n, reported ranks n r = true ↔ n = last) ∧ ∀ n > last,
      (((schedulerAt ranks s n).completedWaits r = true ↔
          ∀ k ∈ ranks, k.outcome.failed = false) ↔
        ((∃ k ∈ ranks, k.outcome.failed = true) →
          ∃ k ∈ ranks, k.outcome.failed = true ∧ k.outcome.step = last)) := by
  obtain ⟨k, hk⟩ : ∃ k, k ∈ ranks.argmax fun k => k.outcome.reportStep :=
    Option.ne_none_iff_exists'.mp (mt List.argmax_eq_none.mp hne)
  have hmem := List.argmax_mem hk
  have hmax : ∀ k' ∈ ranks, k'.outcome.reportStep ≤ k.outcome.reportStep := fun k' hk' =>
    List.le_of_mem_argmax (f := fun k : DecodeRank r => k.outcome.reportStep) hk' hk
  have hlast : ∀ n, reported ranks n r = true ↔ n = k.outcome.reportStep := by
    intro n
    rw [reported_iff]
    constructor
    · rintro ⟨⟨k', hk', rfl⟩, hle⟩
      exact le_antisymm (hmax k' hk') (hle k hmem)
    · rintro rfl
      exact ⟨⟨k, hmem, rfl⟩, hmax⟩
  refine ⟨k.outcome.reportStep, hlast, fun n hn => ?_⟩
  have hcompleted : (schedulerAt ranks s n).completedWaits r =
      !mergedMeta ranks k.outcome.reportStep r := by
    induction n, hn using Nat.le_induction with
    | base => exact if_pos ((hlast _).mpr rfl)
    | succ n hn ih => exact (if_neg fun h => by have := (hlast n).mp h; omega).trans ih
  rw [hcompleted, Bool.not_eq_true', ← Bool.not_eq_true, mergedMeta_iff]
  constructor
  · rintro h ⟨k, hk, hfailed⟩
    by_contra hnone
    rw [h.mp hnone k hk] at hfailed
    cases hfailed
  · intro h
    constructor
    · intro hnone k hk
      exact Bool.eq_false_iff.mpr fun hfailed => hnone (h ⟨k, hk, hfailed⟩)
    · rintro hall ⟨k, hk, hfailed, -⟩
      rw [hall k hk] at hfailed
      cases hfailed

end Engine

/-- A worker that waits for request 0. -/
def waitingRank (outcome : WaitOutcome) : DecodeRank (0 : ℕ) where
  worker := registerWait {} 0 []
  outcome
  start := ⟨rfl, fun _ => rfl, by simp [registerWait, noted], rfl⟩

theorem completedWaits_of_joint_failure :
    (schedulerAt [waitingRank ⟨true, 0, false⟩, waitingRank ⟨false, 0, false⟩]
      ⟨fun _ => true, fun _ => false⟩ 1).completedWaits 0 = false := by
  obtain ⟨last, hlast, h⟩ := completedWaits_iff
    [waitingRank ⟨true, 0, false⟩, waitingRank ⟨false, 0, false⟩] (List.cons_ne_nil _ _)
    ⟨fun _ => true, fun _ => false⟩
  obtain rfl := (hlast 0).mp (by decide)
  have hiff := (h 1 Nat.one_pos).mpr fun _ => ⟨_, List.mem_cons_self, rfl, rfl⟩
  refine Bool.eq_false_iff.mpr fun hcompleted => ?_
  cases hiff.mp hcompleted _ List.mem_cons_self

theorem completedWaits_of_early_failure :
    ∃ ranks : List (DecodeRank 0), (∃ k ∈ ranks, k.outcome.failed = true) ∧
      reported ranks 1 0 = true ∧
      (schedulerAt ranks ⟨fun _ => true, fun _ => false⟩ 2).completedWaits 0 = true :=
  ⟨[waitingRank ⟨true, 0, false⟩, waitingRank ⟨false, 1, false⟩],
    ⟨_, List.mem_cons_self, rfl⟩, by decide, by decide⟩

end PegaFlow
