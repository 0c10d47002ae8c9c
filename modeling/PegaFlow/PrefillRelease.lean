/-
PegaFlow/PrefillRelease.lean

Scheduler and worker of the prefill side together: fail and abort notices.

When the scheduler gives up a request (it is preempted, or vLLM aborts it), the worker
releases it: the request leaves the push state, its tasks are cancelled, and each of its
physical requests is drained (`wait_req`, then `wait_for_pushes`) before the fail or abort
IMM tells the decode side that its blocks are free.
-/
import PegaFlow.PrefillScheduler
import PegaFlow.PushPool
import PegaFlow.Run

namespace PegaFlow

open Function Option PushPool

/-! ### The worker's part -/

/-- The parts of a worker step, in the order of `start_load_kv`; layers are saved last. -/
inductive WorkerPhase where
  | pushes
  | preemptions
  | releases
  | saves
deriving DecidableEq

/-- Where the release stands for the physical request at hand. -/
inductive DrainPc where
  | waitReq
  | waitForPushes
  | notify
deriving DecidableEq

/-- A release in progress: `todo` are the ranks still to be drained and notified. -/
structure Release where
  reqId : ReqId
  reason : ReleaseReason
  targets : List ℕ
  todo : List ℕ
  pc : DrainPc := .waitReq

/-- The two notices: the abort IMM answers an abort of the decode side, the fail IMM
reports one of the prefill side. -/
inductive Notice where
  | abort
  | fail
deriving DecidableEq

/-- The notice a release sends; a finished request gets none. -/
def ReleaseReason.notice : ReleaseReason → Option Notice
  | .consumerAbort => some .abort
  | .producerAbort | .producerPreempted => some .fail
  | .producerFinished => none

/-- On to the next rank, whether or not the notice of this one could be sent. -/
def Release.next (rel : Release) : Release :=
  { rel with todo := rel.todo.tail, pc := .waitReq }

/-- The prefill side: the scheduler connector, the metadata on its way to the worker and
being worked off, and the worker. -/
structure PrefillNode (H : Type*) where
  scheduler : PrefillScheduler H := .new
  queue : List (PdConnectorMetadata H) := []
  metadata : PdConnectorMetadata H := ⟨fun _ => none, fun _ => none, fun _ => false⟩
  phase : WorkerPhase := .saves
  /-- `_logical_to_physical`: the ranks a request is open for -/
  physical : ReqId → List ℕ := fun _ => []
  release : Option Release := none
  pool : PushPool (PhysicalReq ReqId) := {}
  /-- the last notice sent to a handshake -/
  notice : PhysicalReq ReqId → Option Notice := fun _ => none

/-- Everything that can happen on the prefill side. -/
inductive PrefillAction (H : Type*) where
  | updateStateAfterAlloc (l : ReqId) (producer : Option (ProducerKvParams H)) (blocks : BlockIds)
  | requestFinished (l : ReqId) (producer : Option (ProducerKvParams H)) (aborted : Bool)
      (blocks : BlockIds)
  | updateConnectorOutput (l : ReqId)
  | buildConnectorMeta (cached : List (ReqId × BlockIds)) (preempted : ReqId → Bool)
  | startLoadKv
  | processPush (l : ReqId)
  | processPreempted (l : ReqId)
  | processRelease (l : ReqId)
  | nextPhase
  /-- the release in progress goes on; `fault` is a timeout or a failed send -/
  | drain (fault : Bool)
  | submitPush (r : PhysicalReq ReqId)
  | move (i : ℕ) (m : TaskMove)
  /-- a finalize task takes the pending exception out of the error slot -/
  | takeError
  /-- `get_finished_sending` closes a request that is done -/
  | closeSent (l : ReqId)

namespace PrefillNode

variable {H : Type*} (s : PrefillNode H)

/-- `release`: forget the push state of `l` and start to drain what was open. -/
def beginRelease (l : ReqId) (reason : ReleaseReason) : PrefillNode H :=
  if s.physical l = [] then
    -- nothing was open; unless the decode side aborted, the id is closed all the same
    if reason = .consumerAbort then s
    else { s with pool := s.pool.closeRequest (·.reqId = l) }
  else
    { s with
      physical := update s.physical l []
      pool := s.pool.cancelMany (·.reqId = l)
      release := some
        { reqId := l
          reason
          targets := s.physical l
          todo := if reason.notice.isSome then s.physical l else [] } }

/-- `_drain_physical_request` and the notice, one call at a time; an exception skips the
notice of this rank.  At the end all ranks are closed. -/
def drain (rel : Release) (fault : Bool) : Option (PrefillNode H) :=
  match rel.todo with
  | [] =>
      some { s with
        pool := s.pool.closeRequest fun r => r.reqId = rel.reqId && rel.targets.contains r.target
        release := none }
  | t :: _ =>
      match rel.pc with
      | .waitReq =>
          (s.pool.waitReq ⟨rel.reqId, t⟩).map fun w =>
            { s with
              pool := w.2
              release := some (match w.1 with
                | .raised => rel.next
                | .passed => { rel with pc := .waitForPushes }) }
      | .waitForPushes =>
          if fault then some { s with release := some rel.next }
          else (s.pool.waitForRequestWrites ⟨rel.reqId, t⟩).map fun w =>
            { s with
              release := some (match w with
                | .raised => rel.next
                | .passed => { rel with pc := .notify }) }
      | .notify =>
          if fault then some { s with release := some rel.next }
          else some { s with
            notice := update s.notice ⟨rel.reqId, t⟩ rel.reason.notice
            release := some rel.next }

/-- The next phase of the worker step; after the releases the layers are saved. -/
def WorkerPhase.next : WorkerPhase → WorkerPhase
  | .pushes => .preemptions
  | .preemptions => .releases
  | .releases | .saves => .saves

variable (plan : List H → List ℕ)

/-- One step.  `plan` are the decode ranks that the handshakes of a request make this rank
push to.  The worker's own thread does one thing at a time: while a release is under way it
opens, submits and closes nothing else. -/
def step (s : PrefillNode H) : PrefillAction H → Option (PrefillNode H)
  | .updateStateAfterAlloc l producer blocks =>
      some { s with scheduler := s.scheduler.updateStateAfterAlloc l producer blocks }
  | .requestFinished l producer aborted blocks =>
      some { s with scheduler := (s.scheduler.requestFinished l producer aborted blocks).2 }
  | .updateConnectorOutput l =>
      some { s with scheduler := s.scheduler.updateConnectorOutput l }
  | .buildConnectorMeta cached preempted =>
      some { s with
        scheduler := (s.scheduler.buildConnectorMeta cached preempted).2
        queue := s.queue ++ [(s.scheduler.buildConnectorMeta cached preempted).1] }
  | .startLoadKv =>
      match s.queue with
      | [] => none
      | m :: queue =>
          if s.phase = .saves ∧ s.release.isNone then
            some { s with queue := queue, metadata := m, phase := .pushes }
          else none
  | .processPush l =>
      match s.metadata.reqsToPush l with
      | none => none
      | some pushReq =>
          if s.phase = .pushes ∧ s.release.isNone then
            -- without a rank to push to the request is skipped
            some (if plan pushReq.handshakes = [] then s
              else { s with
                physical := update s.physical l (plan pushReq.handshakes) })
          else none
  | .processPreempted l =>
      if s.phase = .preemptions ∧ s.release.isNone ∧ s.metadata.preemptedReqIds l then
        some (s.beginRelease l .producerPreempted)
      else none
  | .processRelease l =>
      match s.metadata.reqsToRelease l with
      | none => none
      | some reason =>
          if s.phase = .releases ∧ s.release.isNone then some (s.beginRelease l reason)
          else none
  | .nextPhase =>
      if s.release.isNone then some { s with phase := WorkerPhase.next s.phase } else none
  | .drain fault =>
      match s.release with
      | none => none
      | some rel => s.drain rel fault
  | .submitPush r =>
      if s.phase = .saves ∧ s.release.isNone ∧ r.target ∈ s.physical r.reqId then
        some { s with pool := s.pool.submit r }
      else none
  | .move i m => (s.pool.move i m).map fun pool => { s with pool := pool }
  | .takeError => some { s with pool := { s.pool with error := none } }
  | .closeSent l =>
      if s.phase = .saves ∧ s.release.isNone then
        some { s with
          physical := update s.physical l []
          pool := s.pool.closeRequest (·.reqId = l) }
      else none

/-! ### The property and the condition -/

/-- **Silence after a notice**: no write to the blocks of a handshake is outstanding once a
fail or abort notice has been sent to it.  A write submitted later is outstanding right
after it is submitted, so over a run this also says that there is none. -/
def Silent : Prop :=
  ∀ r, (s.notice r).isSome → s.pool.All r (·.write ≠ .outstanding)

/-- Nothing stands against opening `r`: no notice has been sent to it, and nothing of an
earlier life of it is under way. -/
def Fresh (r : PhysicalReq ReqId) : Prop :=
  s.notice r = none ∧ s.pool.All r PushTask.Over

instance (r : PhysicalReq ReqId) : Decidable (s.Fresh r) :=
  inferInstanceAs (Decidable (_ ∧ _))

/-- A physical request that is not open is opened only if it is fresh. -/
def FreshOpen (s : PrefillNode H) : PrefillAction H → Prop
  | .processPush l =>
      ∀ pushReq ∈ s.metadata.reqsToPush l, ∀ t ∈ plan pushReq.handshakes,
        t ∉ s.physical l → s.Fresh ⟨l, t⟩
  | _ => True

instance (s : PrefillNode H) (a : PrefillAction H) : Decidable (s.FreshOpen plan a) :=
  match a with
  | .processPush l =>
      inferInstanceAs (Decidable (∀ pushReq ∈ s.metadata.reqsToPush l, ∀ t ∈ _, _ → _))
  | .updateStateAfterAlloc .. | .requestFinished .. | .updateConnectorOutput _
  | .buildConnectorMeta .. | .startLoadKv | .processPreempted _ | .processRelease _
  | .nextPhase | .drain _ | .submitPush _ | .move .. | .takeError | .closeSent _ =>
      .isTrue trivial

/-! ### The invariant -/

/-- What a release knows about physical request `r` when it stands at `pc`. -/
def Drained (pool : PushPool (PhysicalReq ReqId)) (r : PhysicalReq ReqId) : DrainPc → Prop
  | .waitReq => True
  | .waitForPushes => pool.All r PushTask.Left
  | .notify => pool.All r PushTask.Over

/-- Every write of `r` that is not over is counted where a waiter looks. -/
def Counted (pool : PushPool (PhysicalReq ReqId)) (r : PhysicalReq ReqId) : Prop :=
  pool.All r fun t => t.WriteOver ∨ t.gen = pool.generation r

/-- `r` is open, or being drained. -/
def Tracked (r : PhysicalReq ReqId) : Prop :=
  r.target ∈ s.physical r.reqId ∨ ∃ rel ∈ s.release, rel.reqId = r.reqId ∧ r.target ∈ rel.todo

structure Inv (s : PrefillNode H) : Prop where
  pool : s.pool.Inv
  counted : ∀ r, s.Tracked r → Counted s.pool r
  drained : ∀ rel ∈ s.release, ∀ t ∈ rel.todo.head?, Drained s.pool ⟨rel.reqId, t⟩ rel.pc
  forgotten : ∀ rel ∈ s.release, s.physical rel.reqId = []
  /-- a request that got a notice is not open, and nothing of it is under way -/
  notified : ∀ r, (s.notice r).isSome →
    r.target ∉ s.physical r.reqId ∧ s.pool.All r PushTask.Over

variable {s s' : PrefillNode H} {plan : List H → List ℕ} {l : ReqId} {r : PhysicalReq ReqId}
  {i : ℕ} {m : TaskMove} {pool pool' : PushPool (PhysicalReq ReqId)}

theorem inv_init : Inv ({} : PrefillNode H) where
  pool := PushPool.inv_init
  counted := by simp [Counted, PushPool.All]
  drained := by simp
  forgotten := by simp
  notified := by simp

/-! ### The pool moves -/

theorem Drained.move {pc : DrainPc} (h : Drained pool r pc) (hmove : pool.move i m = some pool') :
    Drained pool' r pc := by
  cases pc with
  | waitReq => trivial
  | waitForPushes => exact PushPool.All.move h (fun hstep h => h.step hstep) hmove
  | notify => exact PushPool.All.move h (fun hstep h => h.step hstep) hmove

theorem Counted.move (h : Counted pool r) (hmove : pool.move i m = some pool') :
    Counted pool' r := by
  rw [Counted, move_generation hmove]
  refine PushPool.All.move h (fun hstep hQ => ?_) hmove
  by_cases hm : m = .countWrite
  · exact .inr (by rw [PushTask.gen_of_step hstep, if_pos hm])
  · rw [PushTask.gen_of_step hstep, if_neg hm]
    exact hQ.imp_left fun hover => hover.step hstep hm

section

variable (h : Inv s) {rel : Release}
include h

theorem Inv.move {pool : PushPool (PhysicalReq ReqId)} (hmove : s.pool.move i m = some pool) :
    Inv { s with pool := pool } where
  pool := h.pool.move hmove
  counted r hr := (h.counted r hr).move hmove
  drained rel hrel t ht := (h.drained rel hrel t ht).move hmove
  forgotten := h.forgotten
  notified r hr := ⟨(h.notified r hr).1,
    (h.notified r hr).2.move (fun hstep h => h.step hstep) hmove⟩

theorem Inv.submitPush (hidle : s.release = none) (hopen : r.target ∈ s.physical r.reqId) :
    Inv { s with pool := s.pool.submit r } := by
  refine ⟨h.pool.submit r, ?_, by simp [hidle], by simp [hidle], ?_⟩
  · intro r' hr'
    rw [Counted, submit_generation]
    intro t ht htr
    rcases mem_submit ht with ht | rfl
    · exact h.counted r' hr' t ht htr
    · -- a new task has no write
      exact .inl rfl
  · intro r' hr'
    obtain ⟨hnot, hover⟩ := h.notified r' hr'
    refine ⟨hnot, hover.submit ?_⟩
    rintro rfl
    exact hnot hopen

theorem Inv.takeError : Inv { s with pool := { s.pool with error := none } } where
  pool := { h.pool with }
  counted := h.counted
  drained rel hrel t ht := by
    have := h.drained rel hrel t ht
    cases hpc : rel.pc <;> rw [hpc] at this <;> exact this
  forgotten := h.forgotten
  notified := h.notified

/-! ### Opening, releasing, closing -/

/-- Opening a request: what was not open before is fresh, so all its writes are over. -/
theorem Inv.processPush {targets : List ℕ} (hidle : s.release = none)
    (hfresh : ∀ t ∈ targets, t ∉ s.physical l → s.Fresh ⟨l, t⟩) :
    Inv { s with physical := update s.physical l targets } := by
  refine ⟨h.pool, ?_, by simp [hidle], by simp [hidle], ?_⟩
  · rintro ⟨l', t⟩ hr
    have hmem : t ∈ update s.physical l targets l' := by
      simpa [Tracked, hidle] using hr
    by_cases hopen : t ∈ s.physical l'
    · exact h.counted _ (.inl hopen)
    · obtain rfl : l' = l := by
        by_contra hne
        exact hopen (by simpa [hne] using hmem)
      have hover := (hfresh t (by simpa using hmem) hopen).2
      exact fun u hu hur => .inl (hover u hu hur).2
  · rintro ⟨l', t⟩ hr
    obtain ⟨hnot, hover⟩ := h.notified _ hr
    refine ⟨fun hmem => ?_, hover⟩
    by_cases heq : l' = l
    · subst heq
      -- a notified request is not open, and opening it would not be fresh
      have hnone := (hfresh t (by simpa using hmem) hnot).1
      rw [hnone] at hr
      cases hr
    · exact hnot (by simpa [heq] using hmem)

theorem Inv.close {reqs : PhysicalReq ReqId → Bool} (hpool : s'.pool = s.pool.closeRequest reqs)
    (hidle : s'.release = none) (hnotice : s'.notice = s.notice)
    (hphys : ∀ r, r.target ∈ s'.physical r.reqId → r.target ∈ s.physical r.reqId ∧ reqs r = false) :
    Inv s' := by
  refine ⟨hpool ▸ h.pool.closeRequest reqs, ?_, by simp [hidle], by simp [hidle], ?_⟩
  · intro r hr
    have hmem : r.target ∈ s'.physical r.reqId := by simpa [Tracked, hidle] using hr
    obtain ⟨hopen, hreqs⟩ := hphys r hmem
    have hcounted := h.counted r (.inl hopen)
    rw [hpool]
    simpa [Counted, closeRequest, PushPool.All, hreqs] using hcounted
  · intro r hr
    rw [hnotice] at hr
    obtain ⟨hnot, hover⟩ := h.notified r hr
    rw [hpool]
    exact ⟨fun hmem => hnot (hphys r hmem).1, hover⟩

theorem Inv.beginRelease {reason : ReleaseReason} (hidle : s.release = none) :
    Inv (s.beginRelease l reason) := by
  unfold PrefillNode.beginRelease
  split
  case isTrue hnone =>
    split
    · exact h
    · refine h.close rfl hidle rfl fun r hr => ⟨hr, ?_⟩
      by_contra heq
      have heq : r.reqId = l := by simpa using heq
      simp [heq, hnone] at hr
  case isFalse =>
    have hphys : ∀ {l' : ReqId} {t : ℕ}, t ∈ update s.physical l [] l' →
        t ∈ s.physical l' := by
      intro l' t ht
      by_cases heq : l' = l
      · simp [heq] at ht
      · simpa [heq] using ht
    refine ⟨h.pool.cancelMany _, ?_, ?_, ?_, ?_⟩
    · rintro r (hr | ⟨rel, hrel, hreq, hmem⟩)
      · exact h.counted r (.inl (hphys hr))
      · -- what is being drained was open before
        cases hrel
        refine h.counted r (.inl ?_)
        split at hmem
        · exact hreq ▸ hmem
        · cases hmem
    · rintro rel hrel t -
      cases hrel
      trivial
    · rintro rel hrel
      cases hrel
      simp
    · intro r hr
      exact ⟨fun hmem => (h.notified r hr).1 (hphys hmem), (h.notified r hr).2⟩

section

variable (hrel : s.release = some rel)
include hrel

/-- The release goes on with `rel'`, which drains nothing new. -/
theorem Inv.setRelease {rel' : Release} (hreq : rel'.reqId = rel.reqId)
    (htodo : ∀ t ∈ rel'.todo, t ∈ rel.todo)
    (hdrained : ∀ t ∈ rel'.todo.head?, Drained s.pool ⟨rel.reqId, t⟩ rel'.pc) :
    Inv { s with release := some rel' } := by
  refine ⟨h.pool, ?_, ?_, ?_, h.notified⟩
  · rintro r (hr | ⟨_, hrel', hr, hmem⟩)
    · exact h.counted r (.inl hr)
    · cases hrel'
      exact h.counted r (.inr ⟨rel, hrel, hreq.symm.trans hr, htodo _ hmem⟩)
  · rintro _ hrel' t ht
    cases hrel'
    rw [hreq]
    exact hdrained t ht
  · rintro _ hrel'
    cases hrel'
    rw [hreq]
    exact h.forgotten rel hrel

theorem Inv.next : Inv { s with release := some rel.next } :=
  h.setRelease hrel rfl (fun _ => List.mem_of_mem_tail) fun _ _ => trivial

theorem Inv.notify {t : ℕ} {notice : Option Notice}
    (hover : s.pool.All ⟨rel.reqId, t⟩ PushTask.Over) :
    Inv { s with notice := update s.notice ⟨rel.reqId, t⟩ notice } := by
  refine { h with notified := fun r hr => ?_ }
  by_cases heq : r = ⟨rel.reqId, t⟩
  · subst heq
    exact ⟨by simp [h.forgotten rel hrel], hover⟩
  · exact h.notified r (by simpa [heq] using hr)

end

/-- When both waits have passed, nothing of the request is under way. -/
theorem Inv.over_of_wait {w : Waited} (hcounted : Counted s.pool r)
    (hleft : s.pool.All r PushTask.Left) (hwait : s.pool.waitForRequestWrites r = some w) :
    s.pool.All r PushTask.Over := by
  intro t ht htr
  refine ⟨hleft t ht htr, ?_⟩
  rcases hcounted t ht htr with hover | hgen
  · exact hover
  · exact (h.pool.waitForRequestWrites hwait t ht htr hgen).1

theorem Inv.drain {fault : Bool} (hrel : s.release = some rel)
    (hstep : s.drain rel fault = some s') : Inv s' := by
  unfold PrefillNode.drain at hstep
  rcases htodo : rel.todo with _ | ⟨t, rest⟩
  · -- all ranks are through: close them
    rw [htodo] at hstep
    cases hstep
    refine h.close rfl rfl rfl fun r hr => ⟨hr, ?_⟩
    have hne : r.reqId ≠ rel.reqId := by
      intro heq
      simp [heq, h.forgotten rel hrel] at hr
    simp [hne]
  · have hhead : t ∈ rel.todo.head? := by simp [htodo]
    have hdrained := h.drained rel hrel t hhead
    -- the release goes on with the same rank at another place
    have hgo : ∀ pc, Drained s.pool ⟨rel.reqId, t⟩ pc →
        Inv { s with release := some { rel with todo := t :: rest, pc } } := by
      intro pc hpc
      refine h.setRelease hrel rfl (by simp [htodo]) ?_
      intro t' ht'
      obtain rfl : t = t' := by simpa using ht'
      exact hpc
    rw [htodo] at hstep
    cases hpc : rel.pc with
    | waitReq =>
      simp only [hpc] at hstep
      obtain ⟨⟨w, pool⟩, hw, rfl⟩ := map_eq_some_iff.mp hstep
      rcases waitReq_some hw with ⟨rfl, -, rfl⟩ | ⟨rfl, -, hzero, rfl⟩
      · exact (h.next hrel).takeError
      · exact hgo .waitForPushes (h.pool.left hzero)
    | waitForPushes =>
      simp only [hpc] at hstep
      split at hstep
      · cases hstep
        exact h.next hrel
      · obtain ⟨w, hw, rfl⟩ := map_eq_some_iff.mp hstep
        cases w with
        | raised => exact h.next hrel
        | passed =>
          have htracked : s.Tracked ⟨rel.reqId, t⟩ := .inr ⟨rel, hrel, rfl, by simp [htodo]⟩
          rw [hpc] at hdrained
          exact hgo .notify (h.over_of_wait (h.counted _ htracked) hdrained hw)
    | notify =>
      simp only [hpc] at hstep
      rw [hpc] at hdrained
      split at hstep
      · cases hstep
        exact h.next hrel
      · cases hstep
        exact (h.notify hrel hdrained).next hrel

/-! ### Runs -/

theorem inv_step {a : PrefillAction H} (hC : s.FreshOpen plan a) (hstep : s.step plan a = some s') :
    Inv s' := by
  cases a with
  | updateStateAfterAlloc l producer blocks => cases hstep; exact { h with }
  | requestFinished l producer aborted blocks => cases hstep; exact { h with }
  | updateConnectorOutput l => cases hstep; exact { h with }
  | buildConnectorMeta cached preempted => cases hstep; exact { h with }
  | startLoadKv =>
    simp only [step] at hstep
    split at hstep
    · cases hstep
    · obtain ⟨-, hs⟩ := ite_none_right_eq_some.mp hstep
      cases hs
      exact { h with }
  | processPush l =>
    simp only [step] at hstep
    split at hstep
    · cases hstep
    case h_2 pushReq hreq =>
      obtain ⟨⟨-, hidle⟩, hs⟩ := ite_none_right_eq_some.mp hstep
      cases hs
      split
      · exact h
      · exact h.processPush (by simpa using hidle) (hC pushReq hreq)
  | processPreempted l =>
    obtain ⟨⟨-, hidle, -⟩, hs⟩ := ite_none_right_eq_some.mp hstep
    cases hs
    exact h.beginRelease (by simpa using hidle)
  | processRelease l =>
    simp only [step] at hstep
    split at hstep
    · cases hstep
    · obtain ⟨⟨-, hidle⟩, hs⟩ := ite_none_right_eq_some.mp hstep
      cases hs
      exact h.beginRelease (by simpa using hidle)
  | nextPhase =>
    obtain ⟨-, hs⟩ := ite_none_right_eq_some.mp hstep
    cases hs
    exact { h with }
  | drain fault =>
    simp only [step] at hstep
    split at hstep
    · cases hstep
    case h_2 rel hrel => exact h.drain hrel hstep
  | submitPush r =>
    obtain ⟨⟨-, hidle, hopen⟩, hs⟩ := ite_none_right_eq_some.mp hstep
    cases hs
    exact h.submitPush (by simpa using hidle) hopen
  | move i m =>
    obtain ⟨pool, hmove, rfl⟩ := map_eq_some_iff.mp hstep
    exact h.move hmove
  | takeError => cases hstep; exact h.takeError
  | closeSent l =>
    obtain ⟨⟨-, hidle⟩, hs⟩ := ite_none_right_eq_some.mp hstep
    cases hs
    refine h.close rfl (by simpa using hidle) rfl fun r hr => ?_
    have hne : r.reqId ≠ l := by
      intro heq
      simp [heq] at hr
    exact ⟨by simpa [hne] using hr, by simpa using hne⟩

end

/-- **Silence after a notice.**  In every run in which a request that is not open is opened
only when it is fresh, no write to a handshake's blocks is outstanding when a fail or abort
notice is sent to it, nor at any later moment. -/
theorem silent_of_freshOpen {as : List (PrefillAction H)}
    (h : Along (step plan) (FreshOpen plan) {} as) : Always (step plan) (Silent (H := H)) {} as :=
  (always_of_along (fun _ _ _ hinv hC hstep => inv_step hinv hC hstep) inv_init h).mono
    fun _ hinv r hr t ht htr hout => by
      have hover := ((hinv.notified r hr).2 t ht htr).2
      simp [PushTask.WriteOver, PushTask.writes, hout] at hover

/-- The requests of the runs below have one handshake each, for one rank. -/
def onePerHandshake (handshakes : List Unit) : List ℕ := List.range handshakes.length

/-- One step of scheduler and worker that schedules request `l` and opens it, up to the
saving of layers. -/
def openRequest (l : ReqId) : List (PrefillAction Unit) :=
  [.updateStateAfterAlloc l (some ⟨"", [()], true⟩) [[0]],
    .buildConnectorMeta [] (fun _ => false), .startLoadKv, .processPush l,
    .nextPhase, .nextPhase, .nextPhase]

/-- A request is pushed in part and then preempted: its write is drained, the decode side
gets the fail notice and the request is closed. -/
def preemptRequest (l : ReqId) : List (PrefillAction Unit) :=
  openRequest l ++
  [.submitPush ⟨l, 0⟩, .move 0 .start, .move 0 .countWrite, .move 0 (.submitTransfer false),
    .buildConnectorMeta [] (· = l), .startLoadKv, .nextPhase, .processPreempted l,
    .move 0 .finish, .drain false, .move 0 (.completeWrite false), .drain false, .drain false,
    .drain false, .nextPhase, .nextPhase]

theorem silent_preempted :
    Always (step onePerHandshake) Silent {} (preemptRequest "a" ++ openRequest "b") :=
  silent_of_freshOpen (by decide +kernel)

/-- **A resumed request writes after its notice.**  vLLM resumes the preempted request, the
scheduler opens it again with the same handshake, and its next layer is written to blocks
that the decode side was told are free. -/
theorem not_silent_resumed :
    ¬ Always (step onePerHandshake) Silent {} (preemptRequest "a" ++ openRequest "a" ++
      [.submitPush ⟨"a", 0⟩, .move 1 .start, .move 1 .countWrite,
        .move 1 (.submitTransfer false)]) :=
  not_always (fun s => (s.notice ⟨"a", 0⟩).isSome → s.pool.All ⟨"a", 0⟩ (·.write ≠ .outstanding))
    (fun _ h => h _) (by decide +kernel)

end PrefillNode

end PegaFlow
