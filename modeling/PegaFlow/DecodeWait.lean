/-
PegaFlow/DecodeWait.lean

The decode worker: waiting for the KV of a request and reporting it to vLLM.

For each request the worker registers a wait under a fresh imm id and starts a waiter.
The waiter blocks in `wait_done` until IMMs with that id arrive: fail and abort IMMs count
at once, Done IMMs when there are as many as expected.  Its result, the callback of a
failed prefill HTTP call and a release by the scheduler are noted in the sets of
`_DecodeWaitState` and in the native `finished_recving`; `get_finished` drains them one
after the other, returns their union and closes the requests in it.
-/
import PegaFlow.Run

namespace PegaFlow

open Function Option

/-! ### IMMs -/

variable {timedOut : Bool}

abbrev ImmId := ℕ

/-- The three IMMs of a wait.  Fail and abort have ids of their own, which the wire contract
derives from the imm id; here they are kinds. -/
inductive ImmKind where
  | done
  | fail
  | abort
deriving DecidableEq

/-- How many IMMs of each kind have been counted for an imm id. -/
structure ImmCounts where
  done : ℕ := 0
  fail : ℕ := 0
  abort : ℕ := 0
deriving DecidableEq

def ImmCounts.inc (c : ImmCounts) : ImmKind → ImmCounts
  | .done => { c with done := c.done + 1 }
  | .fail => { c with fail := c.fail + 1 }
  | .abort => { c with abort := c.abort + 1 }

inductive PdImmWaitResult where
  | done
  | failed
  | aborted
  | timedOut
deriving DecidableEq

/-- `wait_imm_or_fail`, one round of its loop: `none` means that it goes on waiting. -/
def waitImmOrFail (expected : ℕ) (c : ImmCounts) (timedOut : Bool) : Option PdImmWaitResult :=
  if 1 ≤ c.fail then some .failed
  else if 1 ≤ c.abort then some .aborted
  else if expected ≤ c.done then some .done
  else if timedOut then some .timedOut
  else none

/-- `wait_done` returns for Done and for an abort alike, and raises otherwise. -/
def PdImmWaitResult.succeeded : PdImmWaitResult → Bool
  | .done | .aborted => true
  | .failed | .timedOut => false

theorem waitImmOrFail_some {expected : ℕ} {c : ImmCounts} {result : PdImmWaitResult}
    (h : waitImmOrFail expected c timedOut = some result) :
    match result with
    | .failed => 1 ≤ c.fail
    | .aborted => 1 ≤ c.abort
    | .done => expected ≤ c.done
    | .timedOut => timedOut := by
  unfold waitImmOrFail at h
  split at h
  · cases h; assumption
  · split at h
    · cases h; assumption
    · split at h
      · cases h; assumption
      · split at h
        · cases h; assumption
        · cases h

/-! ### The worker -/

/-- What the worker keeps of a `WaitReqMeta`. -/
structure WaitReq where
  immId : ImmId
  blocks : List ℕ

/-- Where a waiter thread stands: `won` lies inside `wait_done`, before the request is put
into `finished_recving`; `leaving` lies before the waiter is taken off the submitted ones. -/
inductive WaiterState where
  | queued
  | waiting (immId : ImmId)
  | won
  | returned
  | raised
  | leaving
  | ended
deriving DecidableEq

structure Waiter (R : Type*) where
  req : R
  state : WaiterState := .queued
  cancelled : Bool := false
deriving DecidableEq

/-- How far a call of `get_finished` has come: what it has drained last. -/
inductive DrainPhase where
  | idle
  | native
  | rdma
  | aborted
  | failed
deriving DecidableEq

/-- The decode worker. -/
structure DecodeWorker (R : Type*) where
  -- `_DecodeWaitState`
  waitReqs : R → Option WaitReq := fun _ => none
  abortedWaits : R → Bool := fun _ => false
  failedRecving : R → Bool := fun _ => false
  failedRecvingForMeta : R → Bool := fun _ => false
  failedBlockIds : List ℕ := []
  finishedAbortedRecving : R → Bool := fun _ => false
  finishedRdmaWaits : R → Bool := fun _ => false
  -- `_DecodePeerState`
  nextImmId : ImmId := 1
  -- the native engine; `counterOf` is the entry of a request in `imm_counters`, and an IMM
  -- whose id is in no `imm_to_req` entry finds no counter
  finishedRecving : R → Bool := fun _ => false
  remoteRequests : R → Option ImmId := fun _ => none
  counterOf : R → Option ImmId := fun _ => none
  immToReq : ImmId → Option R := fun _ => none
  counts : ImmId → ImmCounts := fun _ => {}
  waiters : List (Waiter R) := []
  -- the call of `get_finished` in progress
  phase : DrainPhase := .idle
  collected : R → Bool := fun _ => false
  collectedFailed : R → Bool := fun _ => false
  -- for the record: the last imm id of each request, the imm ids handed out so far, those
  -- whose wait has been released, and the last report (imm id, and whether it failed)
  lastImm : R → Option ImmId := fun _ => none
  issued : ImmId → Bool := fun _ => false
  released : ImmId → Bool := fun _ => false
  report : R → Option (ImmId × Bool) := fun _ => none

/-- Everything that can happen on the decode worker. -/
inductive DecodeAction (R : Type*) where
  | registerWait (r : R) (blocks : List ℕ)
  | release (r : R)
  /-- the HTTP call that started the prefill of `r` fails -/
  | prefillFailed (r : R)
  | imm (kind : ImmKind) (immId : ImmId)
  | waiter (k : ℕ) (timedOut : Bool)
  | getFinished
  | getBlockIdsWithLoadErrors
  | buildConnectorWorkerMeta

namespace DecodeWorker

variable {R : Type*}

section Definitions

variable [DecidableEq R]

/-- `alloc_imm_id` keeps the top two bits of an id free. -/
def nextId (immId : ImmId) : ImmId := if 0x3FFFFFFF < immId + 1 then 1 else immId + 1

variable (s : DecodeWorker R) (r : R)

/-- A waiter of `r` that the pool still counts as submitted. -/
def submitted : Bool :=
  s.waiters.any fun w => w.req = r && w.state ≠ .ended && !w.cancelled

/-- `process_wait_reqs` for a request that is not waited for yet: register the wait, open it
natively and start a waiter, unless one of an earlier wait is still submitted. -/
def registerWait (blocks : List ℕ) : DecodeWorker R :=
  { s with
    waitReqs := update s.waitReqs r (some ⟨s.nextImmId, blocks⟩)
    nextImmId := nextId s.nextImmId
    remoteRequests := update s.remoteRequests r (some s.nextImmId)
    -- an entry that is already there stays
    counterOf := update s.counterOf r (some ((s.counterOf r).getD s.nextImmId))
    immToReq := update s.immToReq s.nextImmId (some r)
    counts := if (s.immToReq s.nextImmId).isSome then s.counts
      else update s.counts s.nextImmId {}
    waiters := if s.submitted r then s.waiters else s.waiters ++ [{ req := r }]
    lastImm := update s.lastImm r (some s.nextImmId)
    issued := update s.issued s.nextImmId true }

/-- `mark_aborted`: the scheduler releases a request that is still waited for. -/
def markAborted : DecodeWorker R :=
  match s.waitReqs r with
  | none => s
  | some w =>
      { s with
        abortedWaits := update s.abortedWaits r true
        released := update s.released w.immId true }

/-- `_mark_failed_unlocked`, and the waiter of the request is cancelled. -/
def markFailed (w : WaitReq) : DecodeWorker R :=
  { s with
    failedRecving := update s.failedRecving r true
    failedRecvingForMeta := update s.failedRecvingForMeta r true
    failedBlockIds := s.failedBlockIds ++ w.blocks
    abortedWaits := update s.abortedWaits r false
    finishedRdmaWaits := update s.finishedRdmaWaits r false
    finishedAbortedRecving := update s.finishedAbortedRecving r false
    waitReqs := update s.waitReqs r none
    waiters := s.waiters.map fun v => if v.req = r then { v with cancelled := true } else v }

/-- `mark_prefill_failed`. -/
def markPrefillFailed : DecodeWorker R :=
  match s.waitReqs r with
  | none => s
  | some w => s.markFailed r w

/-- `mark_wait_failed`: the wait of a released request counts as finished. -/
def markWaitFailed : DecodeWorker R :=
  match s.waitReqs r with
  | none => s
  | some w =>
      if s.abortedWaits r then
        { s with
          waitReqs := update s.waitReqs r none
          abortedWaits := update s.abortedWaits r false
          finishedAbortedRecving := update s.finishedAbortedRecving r true }
      else s.markFailed r w

/-- `record_rdma_done`: only a request that is still waited for is noted. -/
def recordRdmaDone : DecodeWorker R :=
  if (s.waitReqs r).isSome then
    { s with finishedRdmaWaits := update s.finishedRdmaWaits r true }
  else s

/-- Waiter `k` is now at `state`. -/
def setWaiter (k : ℕ) (w : Waiter R) (state : WaiterState) : DecodeWorker R :=
  { s with waiters := s.waiters.set k { w with state := state } }

/-- Where `wait_done` starts to wait. -/
def startWait (w : Waiter R) : WaiterState :=
  if w.cancelled then .leaving
  else if s.finishedRecving w.req then .returned
  else
    match s.remoteRequests w.req with
    | none => .raised
    | some immId => .waiting ((s.counterOf w.req).getD immId)

/-- `_AsyncRdmaDoneWaiter._execute`, up to the next lock. -/
def stepWaiter (expected : ℕ) (s : DecodeWorker R) (k : ℕ) (w : Waiter R) (timedOut : Bool) :
    Option (DecodeWorker R) :=
  match w.state with
  | .queued => some (s.setWaiter k w (s.startWait w))
  | .waiting immId =>
      (waitImmOrFail expected (s.counts immId) timedOut).map fun result =>
        s.setWaiter k w (if result.succeeded then .won else .raised)
  | .won =>
      some { s.setWaiter k w .returned with
        finishedRecving := update s.finishedRecving w.req true }
  | .returned =>
      some (if w.cancelled then s.setWaiter k w .leaving
        else (s.setWaiter k w .leaving).recordRdmaDone w.req)
  | .raised => some ((s.setWaiter k w .leaving).markWaitFailed w.req)
  | .leaving => some (s.setWaiter k w .ended)
  | .ended => none

/-- `finish_recving` and the native `close_request` for every request in the report. -/
def finishRecving (done : R → Bool) : DecodeWorker R :=
  { s with
    waitReqs := fun r => if done r then none else s.waitReqs r
    abortedWaits := fun r => !done r && s.abortedWaits r
    finishedRecving := fun r => !done r && s.finishedRecving r
    remoteRequests := fun r => if done r then none else s.remoteRequests r
    counterOf := fun r => if done r then none else s.counterOf r
    immToReq := fun i => (s.immToReq i).filter fun r => !(done r && s.remoteRequests r = some i) }

/-- The next part of `get_finished`: four drains, then the report. -/
def getFinished : DecodeWorker R :=
  match s.phase with
  | .idle =>
      { s with
        collected := s.finishedRecving
        finishedRecving := fun _ => false
        phase := .native }
  | .native =>
      { s with
        collected := fun r => s.collected r || s.finishedRdmaWaits r
        finishedRdmaWaits := fun _ => false
        phase := .rdma }
  | .rdma =>
      { s with
        collected := fun r => s.collected r || s.finishedAbortedRecving r
        finishedAbortedRecving := fun _ => false
        phase := .aborted }
  | .aborted =>
      { s with
        collectedFailed := s.failedRecving
        failedRecving := fun _ => false
        phase := .failed }
  | .failed =>
      { s.finishRecving fun r => s.collected r || s.collectedFailed r with
        report := fun r =>
          if s.collected r || s.collectedFailed r then
            (s.lastImm r).map fun immId => (immId, s.collectedFailed r)
          else none
        collected := fun _ => false
        collectedFailed := fun _ => false
        phase := .idle }

/-- One step.  `expected` is the worker's expected IMM count; the forward thread does not
register or release anything while it is in `get_finished`. -/
def step (expected : ℕ) (s : DecodeWorker R) : DecodeAction R → Option (DecodeWorker R)
  | .registerWait r blocks =>
      if s.phase = .idle then
        some (if (s.waitReqs r).isSome then s else s.registerWait r blocks)
      else none
  | .release r => if s.phase = .idle then some (s.markAborted r) else none
  | .prefillFailed r => some (s.markPrefillFailed r)
  | .imm kind i =>
      some (if (s.immToReq i).isSome then
        { s with counts := update s.counts i ((s.counts i).inc kind) } else s)
  | .waiter k timedOut => (s.waiters[k]?).bind fun w => s.stepWaiter expected k w timedOut
  | .getFinished => some s.getFinished
  | .getBlockIdsWithLoadErrors => some { s with failedBlockIds := [] }
  | .buildConnectorWorkerMeta => some { s with failedRecvingForMeta := fun _ => false }

/-! ### What the wait results mean -/

/-- What is known about the imm id of a wait that succeeded, one that failed, and one that
was released.  A released wait that fails is reported as a success. -/
structure Verdict where
  won : ImmId → Prop
  lost : ImmId → Prop
  aborted : ImmId → Prop
  won_of_aborted : ∀ {i}, lost i → aborted i → won i

/-- Knowledge grows. -/
structure Verdict.Le (V V' : Verdict) : Prop where
  won : ∀ {i}, V.won i → V'.won i
  lost : ∀ {i}, V.lost i → V'.lost i
  aborted : ∀ {i}, V.aborted i → V'.aborted i

/-- `r` is noted as finished, in one of the sets or in the report being put together. -/
def notedWon : Bool :=
  s.finishedRecving r || s.finishedRdmaWaits r || s.finishedAbortedRecving r || s.collected r

/-- `r` is noted as failed. -/
def notedLost : Bool := s.failedRecving r || s.collectedFailed r

/-- Nothing of an earlier wait of `r` is left: the native layer has closed it, it is noted
nowhere, and no waiter of it runs. -/
def Fresh : Prop :=
  s.remoteRequests r = none ∧ s.notedWon r = false ∧ s.notedLost r = false ∧
    ∀ w ∈ s.waiters, w.req = r → w.state = .ended

instance : Decidable (s.Fresh r) :=
  inferInstanceAs (Decidable (_ ∧ _))

/-- A wait is registered only for a request that nothing is left of, and under an imm id
that has not been handed out before. -/
def FreshWait : DecodeAction R → Prop
  | .registerWait r _ => s.waitReqs r = none → s.Fresh r ∧ s.issued s.nextImmId = false
  | _ => True

instance (a : DecodeAction R) : Decidable (s.FreshWait a) :=
  match a with
  | .registerWait r _ => decidable_of_iff
      ((s.waitReqs r).isNone → s.Fresh r ∧ s.issued s.nextImmId = false) (by
        simp [FreshWait])
  | .release _ | .prefillFailed _ | .imm _ _ | .waiter _ _ | .getFinished
  | .getBlockIdsWithLoadErrors | .buildConnectorWorkerMeta => .isTrue trivial

/-- What a step has to establish: each wait result, release or failure has the meaning that
the verdict gives it. -/
def Justified (expected : ℕ) (V : Verdict) (s : DecodeWorker R) : DecodeAction R → Prop
  | .release r => ∀ w, s.waitReqs r = some w → V.aborted w.immId
  | .prefillFailed r => ∀ w, s.waitReqs r = some w → V.lost w.immId
  | .waiter k timedOut =>
      ∀ w i result, s.waiters[k]? = some w → w.state = .waiting i →
        waitImmOrFail expected (s.counts i) timedOut = some result →
        if result.succeeded then V.won i else V.lost i
  | _ => True

end Definitions

/-! ### The invariant -/

variable (V : Verdict) (s : DecodeWorker R)

/-- The wait of `r`, if there was one, has been won. -/
def Won (r : R) : Prop := ∀ i, s.lastImm r = some i → V.won i

/-- The wait of `r`, if there was one, has been lost. -/
def Lost (r : R) : Prop := ∀ i, s.lastImm r = some i → V.lost i

/-- What a waiter knows where it stands. -/
def WaiterOk (w : Waiter R) : Prop :=
  match w.state with
  | .waiting i => s.lastImm w.req = some i
  | .won | .returned => s.Won V w.req
  -- a waiter that finds nothing registered has nothing to report
  | .raised => s.waitReqs w.req = none ∨ s.Lost V w.req
  | .queued | .leaving | .ended => True

structure Inv : Prop where
  wait : ∀ r w, s.waitReqs r = some w →
    s.lastImm r = some w.immId ∧ s.remoteRequests r = some w.immId
  remote : ∀ r i, s.remoteRequests r = some i → s.lastImm r = some i
  counter : ∀ r, s.counterOf r = s.remoteRequests r
  aborted : ∀ r, s.abortedWaits r →
    (s.waitReqs r).isSome ∧ ∀ i, s.lastImm r = some i → V.aborted i
  waiters : ∀ w ∈ s.waiters, s.WaiterOk V w
  won : ∀ r, s.notedWon r → s.Won V r
  lost : ∀ r, s.notedLost r → s.Lost V r
  report : ∀ r i failed, s.report r = some (i, failed) → if failed then V.lost i else V.won i
  unissued : ∀ i, s.issued i = false → s.counts i = {} ∧ s.immToReq i = none

variable {V V' : Verdict} {s s' : DecodeWorker R} {r : R} {expected : ℕ}

theorem inv_init : Inv V ({} : DecodeWorker R) := by
  constructor <;> simp [notedWon, notedLost]

variable {w : Waiter R}

theorem WaiterOk.mono (hle : V.Le V') (h : s.WaiterOk V w) : s.WaiterOk V' w := by
  unfold WaiterOk at *
  split at h
  · exact h
  · exact fun i hi => hle.won (h i hi)
  · exact fun i hi => hle.won (h i hi)
  · exact h.imp_right fun h i hi => hle.lost (h i hi)
  all_goals trivial

theorem Inv.mono (hle : V.Le V') (h : Inv V s) : Inv V' s where
  wait := h.wait
  remote := h.remote
  counter := h.counter
  aborted r hr := ⟨(h.aborted r hr).1, fun i hi => hle.aborted ((h.aborted r hr).2 i hi)⟩
  waiters w hw := (h.waiters w hw).mono hle
  won r hr i hi := hle.won (h.won r hr i hi)
  lost r hr i hi := hle.lost (h.lost r hr i hi)
  report r i failed hr := by
    have := h.report r i failed hr
    cases failed with
    | true => exact hle.lost this
    | false => exact hle.won this
  unissued := h.unissued

variable {waits : R → Option WaitReq}

theorem WaiterOk.forget (h : s.WaiterOk V w) (hwaits : ∀ r, s.waitReqs r = none → waits r = none) :
    WaiterOk V { s with waitReqs := waits } w := by
  unfold WaiterOk at *
  split at h
  · exact h
  · exact h
  · exact h
  · exact h.imp_left (hwaits _)
  all_goals trivial

variable {k : ℕ}

section

variable (h : Inv V s)
include h

theorem Inv.setWaiter {state : WaiterState} (hok : s.WaiterOk V { w with state := state }) :
    Inv V (s.setWaiter k w state) := by
  refine { h with waiters := ?_ }
  intro v hv
  rcases List.mem_or_eq_of_mem_set hv with hv | rfl
  · exact h.waiters v hv
  · exact hok

theorem Inv.startWait : s.WaiterOk V { w with state := s.startWait w } := by
  unfold DecodeWorker.startWait
  split
  · trivial
  · split
    case isTrue hfin => exact h.won w.req (by simp [notedWon, hfin])
    case isFalse =>
      split
      case h_1 hnone =>
        -- a request that is waited for is registered natively
        refine .inl (eq_none_iff_forall_ne_some.mpr fun v hv => ?_)
        have := (h.wait w.req v hv).2
        rw [hnone] at this
        cases this
      case h_2 i hi =>
        rw [h.counter, hi]
        exact h.remote w.req i hi

/-! ### Reports -/

theorem Inv.finishRecving (done : R → Bool) : Inv V (s.finishRecving done) := by
  have hopen : ∀ {r' w}, (s.finishRecving done).waitReqs r' = some w →
      done r' = false ∧ s.waitReqs r' = some w := by
    intro r' w hw
    by_cases hd : done r'
    · simp [DecodeWorker.finishRecving, hd] at hw
    · exact ⟨by simpa using hd, by simpa [DecodeWorker.finishRecving, hd] using hw⟩
  refine ⟨?_, ?_, ?_, ?_, ?_, ?_, h.lost, h.report, ?_⟩
  · intro r' w hw
    obtain ⟨hd, hw⟩ := hopen hw
    obtain ⟨hlast, hremote⟩ := h.wait r' w hw
    exact ⟨hlast, by simpa [DecodeWorker.finishRecving, hd] using hremote⟩
  · intro r' i hi
    by_cases hd : done r'
    · simp [DecodeWorker.finishRecving, hd] at hi
    · exact h.remote r' i (by simpa [DecodeWorker.finishRecving, hd] using hi)
  · intro r'
    simp [DecodeWorker.finishRecving, h.counter]
  · intro r' hr'
    have hr : done r' = false ∧ s.abortedWaits r' := by
      simpa [DecodeWorker.finishRecving] using hr'
    obtain ⟨hsome, hab⟩ := h.aborted r' hr.2
    exact ⟨by simpa [DecodeWorker.finishRecving, hr.1] using hsome, hab⟩
  · intro w hw
    show WaiterOk V { s with waitReqs := fun r => if done r then none else s.waitReqs r } w
    exact (h.waiters w hw).forget fun r' hr' => by simp [hr']
  · intro r' hr'
    refine h.won r' ?_
    revert hr'
    simp only [notedWon, DecodeWorker.finishRecving, Bool.or_eq_true, Bool.and_eq_true]
    tauto
  · intro i hi
    obtain ⟨hcounts, hvacant⟩ := h.unissued i hi
    exact ⟨hcounts, by simp [DecodeWorker.finishRecving, hvacant]⟩

theorem Inv.renote {native rdma ab col failed colFailed : R → Bool} {phase : DrainPhase}
    (hwon : ∀ r, (native r || rdma r || ab r || col r) → s.notedWon r)
    (hlost : ∀ r, (failed r || colFailed r) → s.notedLost r) :
    Inv V { s with
      finishedRecving := native, finishedRdmaWaits := rdma, finishedAbortedRecving := ab
      collected := col, failedRecving := failed, collectedFailed := colFailed
      phase } :=
  { h with won := fun r hr => h.won r (hwon r hr), lost := fun r hr => h.lost r (hlost r hr) }

/-- Each part of `get_finished` only moves what is noted, and the report takes over what the
notes mean. -/
theorem Inv.getFinished : Inv V s.getFinished := by
  unfold DecodeWorker.getFinished
  split
  case h_1 => exact h.renote (by simp +contextual [notedWon, or_imp]) fun _ => id
  case h_2 => exact h.renote (by simp +contextual [notedWon, or_imp]) fun _ => id
  case h_3 => exact h.renote (by simp +contextual [notedWon, or_imp]) fun _ => id
  case h_4 => exact h.renote (fun _ => id) (by simp +contextual [notedLost])
  case h_5 =>
    have hbase := h.finishRecving fun r => s.collected r || s.collectedFailed r
    have hfin : Inv V { s.finishRecving fun r => s.collected r || s.collectedFailed r with
        collected := fun _ => false, collectedFailed := fun _ => false, phase := .idle } :=
      hbase.renote (by simp +contextual [notedWon]) (by simp +contextual [notedLost])
    refine { hfin with report := ?_ }
    · intro r' i failed hr'
      obtain ⟨hnoted, hr'⟩ := ite_none_right_eq_some.mp hr'
      obtain ⟨j, hlast, hpair⟩ := map_eq_some_iff.mp hr'
      obtain ⟨rfl, rfl⟩ := Prod.mk.inj hpair
      -- a request that is noted both ways is reported as failed
      cases hfailed : s.collectedFailed r' with
      | true => exact h.lost r' (by simp [notedLost, hfailed]) j hlast
      | false =>
        have hcol : s.collected r' := by simpa [hfailed] using hnoted
        exact h.won r' (by simp [notedWon, hcol]) j hlast

end

theorem getFinished_frame :
    s.getFinished.released = s.released ∧ s.getFinished.counts = s.counts := by
  unfold getFinished
  split <;> exact ⟨rfl, rfl⟩

section Steps

variable [DecidableEq R]

/-! ### Steps of the forward thread -/

theorem Inv.registerWait {blocks : List ℕ} (h : Inv V s) (hnone : s.waitReqs r = none)
    (hfresh : s.Fresh r) (hnew : s.issued s.nextImmId = false) :
    Inv V (s.registerWait r blocks) := by
  obtain ⟨hremote, hwon, hlost, hended⟩ := hfresh
  obtain ⟨hcounts, hvacant⟩ := h.unissued _ hnew
  have hlast : ∀ {r'}, r' ≠ r → (s.registerWait r blocks).lastImm r' = s.lastImm r' := fun hne =>
    update_of_ne hne _ _
  constructor
  · intro r' w hw
    by_cases heq : r' = r
    · subst heq
      obtain rfl : ⟨s.nextImmId, blocks⟩ = w := by simpa [DecodeWorker.registerWait] using hw
      simp [DecodeWorker.registerWait]
    · simp only [DecodeWorker.registerWait, update_of_ne heq] at hw ⊢
      exact h.wait r' w hw
  · intro r' i hi
    by_cases heq : r' = r
    · subst heq
      simpa [DecodeWorker.registerWait] using hi
    · simp only [DecodeWorker.registerWait, update_of_ne heq] at hi ⊢
      exact h.remote r' i hi
  · intro r'
    by_cases heq : r' = r
    · subst heq
      simp [DecodeWorker.registerWait, h.counter, hremote]
    · simp [DecodeWorker.registerWait, heq, h.counter]
  · intro r' hr'
    obtain ⟨hsome, hab⟩ := h.aborted r' hr'
    have heq : r' ≠ r := by
      rintro rfl
      simp [hnone] at hsome
    simp only [DecodeWorker.registerWait, update_of_ne heq]
    exact ⟨hsome, hab⟩
  · intro w hw
    have hold : w ∈ s.waiters → (s.registerWait r blocks).WaiterOk V w := by
      intro hw
      by_cases heq : w.req = r
      · -- the waiters of earlier waits have ended
        simp [WaiterOk, hended w hw heq]
      · have := h.waiters w hw
        simpa only [WaiterOk, Won, Lost, DecodeWorker.registerWait, update_of_ne heq]
          using this
    simp only [DecodeWorker.registerWait] at hw
    split at hw
    · exact hold hw
    · rcases List.mem_append.mp hw with hw | hw
      · exact hold hw
      · obtain rfl := List.mem_singleton.mp hw
        trivial
  · intro r' hr' i hi
    have heq : r' ≠ r := by
      rintro rfl
      rw [show (s.registerWait r' blocks).notedWon r' = s.notedWon r' from rfl, hwon] at hr'
      cases hr'
    exact h.won r' hr' i (hlast heq ▸ hi)
  · intro r' hr' i hi
    have heq : r' ≠ r := by
      rintro rfl
      rw [show (s.registerWait r' blocks).notedLost r' = s.notedLost r' from rfl, hlost] at hr'
      cases hr'
    exact h.lost r' hr' i (hlast heq ▸ hi)
  · exact h.report
  · intro i hi
    have hne : i ≠ s.nextImmId := by
      rintro rfl
      simp [DecodeWorker.registerWait] at hi
    have := h.unissued i (by simpa [DecodeWorker.registerWait, hne] using hi)
    simpa [DecodeWorker.registerWait, hne, hvacant] using this

theorem Inv.markAborted (h : Inv V s) (hab : ∀ w, s.waitReqs r = some w → V.aborted w.immId) :
    Inv V (s.markAborted r) := by
  unfold DecodeWorker.markAborted
  split
  · exact h
  case h_2 w hw =>
    refine { h with aborted := ?_ }
    intro r' hr'
    by_cases heq : r' = r
    · subst heq
      refine ⟨by simp [hw], fun i hi => ?_⟩
      obtain rfl : w.immId = i := by
        have := (h.wait r' w hw).1
        rw [this] at hi
        simpa using hi
      exact hab w hw
    · exact h.aborted r' (by simpa [heq] using hr')

/-! ### Steps of the callbacks -/

theorem none_of_update (r' : R) (h : waits r' = none) : update waits r none r' = none := by
  by_cases heq : r' = r <;> simp [heq, h]

theorem some_of_update {r' : R} {w : WaitReq} (h : update waits r none r' = some w) :
    waits r' = some w ∧ r' ≠ r := by
  by_cases heq : r' = r
  · simp [heq] at h
  · exact ⟨by simpa [heq] using h, heq⟩

section

variable (h : Inv V s)
include h

theorem Inv.markFailed {w : WaitReq} (hlost : s.Lost V r) : Inv V (s.markFailed r w) := by
  refine ⟨?_, h.remote, h.counter, ?_, ?_, ?_, ?_, h.report, h.unissued⟩
  · intro r' w' hw'
    exact h.wait r' w' (some_of_update hw').1
  · intro r' hr'
    have heq : r' ≠ r := by
      rintro rfl
      simp [DecodeWorker.markFailed] at hr'
    simp only [DecodeWorker.markFailed, update_of_ne heq] at hr' ⊢
    exact h.aborted r' hr'
  · intro v hv
    obtain ⟨u, hu, rfl⟩ := List.mem_map.mp hv
    have hok := (h.waiters u hu).forget (fun r' => none_of_update (r := r) r')
    split <;> exact hok
  · intro r' hr'
    refine h.won r' ?_
    revert hr'
    by_cases heq : r' = r <;>
      simp +contextual [notedWon, DecodeWorker.markFailed, heq, or_imp]
  · intro r' hr'
    by_cases heq : r' = r
    · exact heq ▸ hlost
    · exact h.lost r' (by simpa [notedLost, DecodeWorker.markFailed, heq] using hr')

theorem Inv.markPrefillFailed (hlost : ∀ w, s.waitReqs r = some w → V.lost w.immId) :
    Inv V (s.markPrefillFailed r) := by
  unfold DecodeWorker.markPrefillFailed
  split
  · exact h
  case h_2 w hw =>
    refine h.markFailed fun i hi => ?_
    obtain rfl : w.immId = i := by simpa [(h.wait r w hw).1] using hi
    exact hlost w hw

theorem Inv.markWaitFailed (hlost : s.waitReqs r = none ∨ s.Lost V r) :
    Inv V (s.markWaitFailed r) := by
  unfold DecodeWorker.markWaitFailed
  split
  · exact h
  case h_2 w hw =>
    have hlost : s.Lost V r := hlost.resolve_left (by simp [hw])
    split
    case isFalse => exact h.markFailed hlost
    case isTrue hab =>
      refine ⟨?_, h.remote, h.counter, ?_, ?_, ?_, h.lost, h.report, h.unissued⟩
      · intro r' w' hw'
        exact h.wait r' w' (some_of_update hw').1
      · intro r' hr'
        have heq : r' ≠ r := by
          rintro rfl
          simp at hr'
        simp only [update_of_ne heq] at hr' ⊢
        exact h.aborted r' hr'
      · intro v hv
        exact (h.waiters v hv).forget fun r' => none_of_update (r := r) r'
      · intro r' hr'
        by_cases heq : r' = r
        · subst heq
          exact fun i hi => V.won_of_aborted (hlost i hi) ((h.aborted r' hab).2 i hi)
        · exact h.won r' (by simpa [notedWon, heq] using hr')

theorem Inv.recordRdmaDone (hwon : s.Won V r) : Inv V (s.recordRdmaDone r) := by
  unfold DecodeWorker.recordRdmaDone
  split
  · refine { h with won := ?_ }
    intro r' hr'
    by_cases heq : r' = r
    · exact heq ▸ hwon
    · exact h.won r' (by simpa [notedWon, heq] using hr')
  · exact h

/-! ### Steps of the waiters -/

theorem Inv.stepWaiter (hw : s.waiters[k]? = some w)
    (hj : s.Justified expected V (.waiter k timedOut))
    (hstep : s.stepWaiter expected k w timedOut = some s') : Inv V s' := by
  have hok := h.waiters w (List.mem_of_getElem? hw)
  unfold DecodeWorker.stepWaiter at hstep
  unfold WaiterOk at hok
  cases hstate : w.state with
  | queued =>
    simp only [hstate, some.injEq] at hstep
    subst hstep
    exact h.setWaiter h.startWait
  | waiting i =>
    simp only [hstate] at hstep hok
    obtain ⟨result, hresult, rfl⟩ := map_eq_some_iff.mp hstep
    have hmeans := hj w i result hw hstate hresult
    refine h.setWaiter ?_
    -- the result is about the last wait of the request
    split at hmeans
    case isTrue hwon =>
      simp only [hwon, if_true]
      intro j hj
      rw [hok] at hj
      cases hj
      exact hmeans
    case isFalse hlost =>
      simp only [hlost]
      refine .inr fun j hj => ?_
      rw [hok] at hj
      cases hj
      exact hmeans
  | won =>
    simp only [hstate, some.injEq] at hstep hok
    subst hstep
    have hset : Inv V (s.setWaiter k w .returned) := h.setWaiter hok
    refine { hset with won := ?_ }
    intro r' hr'
    by_cases heq : r' = w.req
    · exact heq ▸ hok
    · exact h.won r' (by simpa [notedWon, DecodeWorker.setWaiter, heq] using hr')
  | returned =>
    simp only [hstate, some.injEq] at hstep hok
    subst hstep
    have hset : Inv V (s.setWaiter k w .leaving) := h.setWaiter trivial
    split
    · exact hset
    · exact hset.recordRdmaDone hok
  | raised =>
    simp only [hstate, some.injEq] at hstep hok
    subst hstep
    have hset : Inv V (s.setWaiter k w .leaving) := h.setWaiter trivial
    exact hset.markWaitFailed hok
  | leaving =>
    simp only [hstate, some.injEq] at hstep
    subst hstep
    exact h.setWaiter trivial
  | ended => simp [hstate] at hstep

end

/-! ### One step -/

variable {a : DecodeAction R}

/-- **Reports mean what the wait results mean.**  If every wait is registered afresh, and
every wait result, release and failure means what the verdict says, then so does every
report. -/
theorem Inv.step (h : Inv V s) (hfresh : s.FreshWait a) (hj : s.Justified expected V a)
    (hstep : s.step expected a = some s') : Inv V s' := by
  cases a with
  | registerWait r blocks =>
    obtain ⟨-, hs⟩ := ite_none_right_eq_some.mp hstep
    cases hs
    split
    · exact h
    case isFalse hnone =>
      have hnone : s.waitReqs r = none := by simpa using hnone
      obtain ⟨hfr, hnew⟩ := hfresh hnone
      exact h.registerWait hnone hfr hnew
  | release r =>
    obtain ⟨-, hs⟩ := ite_none_right_eq_some.mp hstep
    cases hs
    exact h.markAborted hj
  | prefillFailed r =>
    cases hstep
    exact h.markPrefillFailed hj
  | imm kind i =>
    cases hstep
    split
    case isFalse => exact h
    case isTrue hreg =>
      refine { h with unissued := ?_ }
      intro j hj
      have := h.unissued j hj
      have hne : j ≠ i := by
        rintro rfl
        simp [this.2] at hreg
      simpa [hne] using this
  | waiter k timedOut =>
    obtain ⟨w, hw, hstep⟩ := bind_eq_some_iff.mp hstep
    exact h.stepWaiter hw hj hstep
  | getFinished =>
    cases hstep
    exact h.getFinished
  | getBlockIdsWithLoadErrors =>
    cases hstep
    exact { h with }
  | buildConnectorWorkerMeta =>
    cases hstep
    exact { h with }

/-! ### What a step leaves alone -/

theorem markWaitFailed_frame :
    (s.markWaitFailed r).released = s.released ∧ (s.markWaitFailed r).counts = s.counts := by
  unfold markWaitFailed
  split
  · exact ⟨rfl, rfl⟩
  · split <;> exact ⟨rfl, rfl⟩

theorem stepWaiter_frame (h : s.stepWaiter expected k w timedOut = some s') :
    s'.released = s.released ∧ s'.counts = s.counts := by
  unfold stepWaiter at h
  split at h
  case h_2 =>
    obtain ⟨result, -, rfl⟩ := map_eq_some_iff.mp h
    exact ⟨rfl, rfl⟩
  case h_4 =>
    cases h
    split
    · exact ⟨rfl, rfl⟩
    · unfold recordRdmaDone
      split <;> exact ⟨rfl, rfl⟩
  case h_5 =>
    cases h
    exact markWaitFailed_frame
  all_goals cases h
  all_goals exact ⟨rfl, rfl⟩

/-- A wait that has been released stays so, and only the arrival of an IMM changes the counts: a
wait registered afresh finds none. -/
theorem Inv.frame_of_step (hinv : Inv V s) (hfresh : s.FreshWait a)
    (h : s.step expected a = some s') :
    (∀ {i}, s.released i → s'.released i) ∧
      (s'.counts = s.counts ∨ ∃ kind i, a = .imm kind i ∧
        s'.counts = update s.counts i ((s.counts i).inc kind)) := by
  cases a with
  | registerWait r blocks =>
    obtain ⟨-, hs⟩ := ite_none_right_eq_some.mp h
    cases hs
    split
    · exact ⟨id, .inl rfl⟩
    case isFalse hnone =>
      obtain ⟨-, hnew⟩ := hfresh (by simpa using hnone)
      have hzero := (hinv.unissued _ hnew).1
      refine ⟨id, .inl ?_⟩
      show (if (s.immToReq s.nextImmId).isSome then s.counts
        else update s.counts s.nextImmId {}) = s.counts
      split
      · rfl
      · rw [← hzero, update_eq_self]
  | release r =>
    obtain ⟨-, hs⟩ := ite_none_right_eq_some.mp h
    cases hs
    unfold DecodeWorker.markAborted
    split
    · exact ⟨id, .inl rfl⟩
    case h_2 w _ =>
      refine ⟨fun {i} hi => ?_, .inl rfl⟩
      by_cases heq : i = w.immId <;> simp [heq, hi]
  | prefillFailed r =>
    cases h
    unfold DecodeWorker.markPrefillFailed
    split <;> exact ⟨id, .inl rfl⟩
  | imm kind i =>
    cases h
    split
    · exact ⟨id, .inr ⟨kind, i, rfl, rfl⟩⟩
    · exact ⟨id, .inl rfl⟩
  | waiter k timedOut =>
    obtain ⟨w, -, h⟩ := bind_eq_some_iff.mp h
    obtain ⟨hreleased, hcounts⟩ := stepWaiter_frame h
    exact ⟨fun hi => hreleased ▸ hi, .inl hcounts⟩
  | getFinished =>
    cases h
    obtain ⟨hreleased, hcounts⟩ := getFinished_frame (s := s)
    exact ⟨fun hi => hreleased ▸ hi, .inl hcounts⟩
  | getBlockIdsWithLoadErrors | buildConnectorWorkerMeta =>
    cases h
    exact ⟨id, .inl rfl⟩

end Steps

end DecodeWorker

end PegaFlow
