/-
PegaFlow/PushDone.lean

The push finalizer: when the Done IMM of a request goes out.

Once the last layer of a request is submitted, a finalize task waits for its layer pushes
(`wait_req`, on the Python side), waits for its writes (`wait_for_pushes`, on the native
side) and sends the Done IMM (`push_done`), for each physical request in turn and with a
look at the cancelled mark before each call.  An exception ends the task.  Meanwhile the
worker may release the request: it marks the request cancelled, first at the sender and
then at the finalizer, drains it (`wait_req` again) and closes it.
-/
import PegaFlow.PushPool
import PegaFlow.Run

namespace PegaFlow

open Function Option PushPool

/-! ### The worker -/

/-- The calls a finalize task makes for one physical request. -/
inductive FinalizeCall where
  | waitReq
  | waitForPushes
  | pushDone
deriving DecidableEq

/-- Before each call the task looks at the cancelled mark. -/
inductive FinalizePc where
  | check (c : FinalizeCall)
  | call (c : FinalizeCall)
deriving DecidableEq

/-- The finalize task of a request: at `pc` for its rank `target`, with `rest` to follow. -/
inductive FinalizeTask where
  | unsubmitted
  | running (pc : FinalizePc) (target : ℕ) (rest : List ℕ)
  | ended
deriving DecidableEq

/-- The finalizer holds the task in its `_submitted` set. -/
def FinalizeTask.isRunning : FinalizeTask → Bool
  | .running .. => true
  | _ => false

/-- How far the release of a request has come. -/
inductive ReleaseStage where
  | active
  | pushesCancelled
  | cancelled
  | closed
deriving DecidableEq

/-- The prefill worker: the push pool, the finalizer and the releases. -/
structure PushWorker (L : Type*) where
  pool : PushPool (PhysicalReq L) := {}
  finalizer : L → FinalizeTask := fun _ => .unsubmitted
  finalizerError : Bool := false
  finalizerCancelled : L → Bool := fun _ => false
  stage : L → ReleaseStage := fun _ => .active
  doneSent : PhysicalReq L → Bool := fun _ => false

/-- Everything that can happen on the worker. -/
inductive PushAction (L : Type*) where
  | submitPush (r : PhysicalReq L)
  | move (i : ℕ) (m : TaskMove)
  | submitFinalize (l : L) (targets : List ℕ)
  /-- the finalize task of `l` goes on; `fault` is a timeout or a failed send -/
  | finalize (l : L) (fault : Bool)
  | cancelPushes (l : L)
  | cancelFinalize (l : L)
  | drain (r : PhysicalReq L)
  | close (l : L)

namespace PushWorker

variable {L : Type*} [DecidableEq L] (s : PushWorker L)

/-- Set the finalize task of `l` and its cancelled mark. -/
def setFinalizer (l : L) (f : FinalizeTask) (cancelled : Bool) : PushWorker L :=
  { s with
    finalizer := update s.finalizer l f
    finalizerCancelled := update s.finalizerCancelled l cancelled }

/-- Go on with the next rank; a task that ends takes its cancelled mark along. -/
def nextTarget (l : L) : List ℕ → PushWorker L
  | [] => s.setFinalizer l .ended false
  | t :: rest => s.setFinalizer l (.running (.check .waitReq) t rest) (s.finalizerCancelled l)

/-- An exception ends the task and stays in the finalizer's own error slot. -/
def failFinalize (l : L) : PushWorker L :=
  { s.setFinalizer l .ended false with finalizerError := true }

/-- `_AsyncPushFinalizer._run`, one check or call at a time. -/
def stepFinalize (l : L) (fault : Bool) : Option (PushWorker L) :=
  match s.finalizer l with
  | .running (.check c) t rest =>
      some (if s.finalizerCancelled l then s.nextTarget l rest
        else s.setFinalizer l (.running (.call c) t rest) (s.finalizerCancelled l))
  | .running (.call .waitReq) t rest =>
      (s.pool.waitReq ⟨l, t⟩).map fun w =>
        match w.1 with
        | .raised => { s.failFinalize l with pool := w.2 }
        | .passed =>
            s.setFinalizer l (.running (.check .waitForPushes) t rest) (s.finalizerCancelled l)
  | .running (.call .waitForPushes) t rest =>
      if fault then some (s.failFinalize l)
      else (s.pool.waitForRequestWrites ⟨l, t⟩).map fun w =>
        match w with
        | .raised => s.failFinalize l
        | .passed =>
            s.setFinalizer l (.running (.check .pushDone) t rest) (s.finalizerCancelled l)
  | .running (.call .pushDone) t rest =>
      -- `push_done` waits for the writes once more before it sends
      if fault then some (s.failFinalize l)
      else (s.pool.waitForRequestWrites ⟨l, t⟩).map fun w =>
        match w with
        | .raised => s.failFinalize l
        | .passed =>
            { s.nextTarget l rest with doneSent := update s.doneSent ⟨l, t⟩ true }
  | _ => none

/-- One step of the worker.  Pushes of a request are submitted as long as it is neither
finalized nor released. -/
def step : PushAction L → Option (PushWorker L)
  | .submitPush r =>
      if s.stage r.reqId = .active ∧ s.finalizer r.reqId = .unsubmitted then
        some { s with pool := s.pool.submit r }
      else none
  | .move i m => (s.pool.move i m).map fun pool => { s with pool := pool }
  | .submitFinalize l targets =>
      if s.stage l = .active ∧ s.finalizer l = .unsubmitted then
        -- with an exception pending the submission is refused; the request stays marked done
        some (s.nextTarget l (if s.finalizerError then [] else targets))
      else none
  | .finalize l fault => s.stepFinalize l fault
  | .cancelPushes l =>
      if s.stage l = .active then
        some { s with
          pool := s.pool.cancelMany (·.reqId = l)
          stage := update s.stage l .pushesCancelled }
      else none
  | .cancelFinalize l =>
      if s.stage l = .pushesCancelled then
        some { s with
          finalizerCancelled := update s.finalizerCancelled l
            (s.finalizerCancelled l || (s.finalizer l).isRunning)
          stage := update s.stage l .cancelled }
      else none
  | .drain r =>
      if s.stage r.reqId = .cancelled then
        (s.pool.waitReq r).map fun w => { s with pool := w.2 }
      else none
  | .close l =>
      if s.stage l = .cancelled ∨ (s.stage l = .active ∧ s.finalizer l = .ended) then
        some { s with
          pool := s.pool.closeRequest (·.reqId = l)
          stage := update s.stage l .closed }
      else none

/-! ### The property and the condition -/

/-- **Done is sound**: the Done IMM of a physical request has been sent only if every
layer push submitted for it ran without raising and every write of it completed without
error. -/
def DoneSound : Prop :=
  ∀ r, s.doneSent r → s.pool.All r PushTask.Clean

/-- The finalize task of `l` is about to call `wait_req`. -/
def atWaitReq (l : L) : Bool :=
  match s.finalizer l with
  | .running (.call .waitReq) _ _ => true
  | _ => false

/-- Exceptions stay with their request: a waiter that raises finds an exception of its own
request in the slot, and a task stores its exception only over one of its own request. -/
def OwnError : PushAction L → Prop
  | .move i m =>
      m = .recordError → ∀ t ∈ s.pool.tasks[i]?, ∀ o ∈ s.pool.error, o.reqId = t.req.reqId
  | .finalize l _ => s.atWaitReq l → ∀ o ∈ s.pool.error, o.reqId = l
  | .drain r => ∀ o ∈ s.pool.error, o.reqId = r.reqId
  | _ => True

instance (a : PushAction L) : Decidable (s.OwnError a) :=
  match a with
  | .move _ _ => inferInstanceAs (Decidable (_ → ∀ t ∈ _, ∀ o ∈ _, _))
  | .finalize _ _ => inferInstanceAs (Decidable (_ → ∀ o ∈ _, _))
  | .drain _ => inferInstanceAs (Decidable (∀ o ∈ _, _))
  | .submitPush _ | .submitFinalize _ _ | .cancelPushes _ | .cancelFinalize _ | .close _ =>
      .isTrue trivial

/-! ### The invariant -/

/-- The release of `l` has marked the request at the finalizer. -/
def Released (l : L) : Prop := s.stage l = .cancelled ∨ s.stage l = .closed

/-- What a finalize task knows about physical request `r` when it stands at `pc`.  After a
wait the knowledge may be missing if the request has been cancelled meanwhile, and the next
check of the mark settles that. -/
def Passed (pool : PushPool (PhysicalReq L)) (cancelled : Bool) (r : PhysicalReq L) :
    FinalizePc → Prop
  | .check .waitReq | .call .waitReq => True
  | .check .waitForPushes => cancelled ∨ pool.All r PushTask.Ran
  | .call .waitForPushes => pool.All r PushTask.Ran
  | .check .pushDone => cancelled ∨ pool.All r PushTask.Clean
  | .call .pushDone => pool.All r PushTask.Clean

structure Inv (s : PushWorker L) : Prop where
  pool : s.pool.Inv
  /-- as long as a request is not closed, all its writes are counted in one place -/
  generation : ∀ r, s.stage r.reqId ≠ .closed →
    s.pool.generation r = 0 ∧ s.pool.All r (·.gen = 0)
  /-- a stored exception is still there, or it has stopped its own request -/
  recorded : ∀ t ∈ s.pool.tasks, t.errorRecorded →
    (∃ o, s.pool.error = some o ∧ o.reqId = t.req.reqId) ∨
      s.finalizer t.req.reqId = .ended ∨ s.Released t.req.reqId
  marked : ∀ l pc t rest, s.Released l → s.finalizer l = .running pc t rest →
    s.finalizerCancelled l
  progress : ∀ l pc t rest, s.finalizer l = .running pc t rest →
    Passed s.pool (s.finalizerCancelled l) ⟨l, t⟩ pc
  done : ∀ r, s.doneSent r →
    s.finalizer r.reqId ≠ .unsubmitted ∧ s.pool.All r PushTask.Clean

variable {s s' : PushWorker L} {l : L} {r : PhysicalReq L} {i : ℕ} {m : TaskMove}

theorem inv_init : Inv ({} : PushWorker L) where
  pool := PushPool.inv_init
  generation := fun _ _ => ⟨rfl, by simp [PushPool.All]⟩
  recorded := by simp
  marked := by simp
  progress := by simp
  done := by simp

/-! ### The pool moves -/

variable {cancelled : Bool} {pc : FinalizePc} {pool : PushPool (PhysicalReq L)}

omit [DecidableEq L] in
/-- What a finalize task knows depends on the tasks, and a new mark does not harm it. -/
theorem Passed.mono {pool' : PushPool (PhysicalReq L)} {cancelled' : Bool}
    (h : Passed pool cancelled r pc) (hmark : cancelled → cancelled')
    (hran : pool.All r PushTask.Ran → pool'.All r PushTask.Ran)
    (hclean : pool.All r PushTask.Clean → pool'.All r PushTask.Clean) :
    Passed pool' cancelled' r pc := by
  rcases pc with (_ | _ | _) | (_ | _ | _)
  · trivial
  · exact h.imp hmark hran
  · exact h.imp hmark hclean
  · trivial
  · exact hran h
  · exact hclean h

section

variable (h : Inv s)
include h

theorem Inv.move (hC : s.OwnError (.move i m)) (hmove : s.pool.move i m = some pool) :
    Inv { s with pool := pool } := by
  obtain ⟨t, t', ht, hstep, rfl⟩ := move_some hmove
  have hreq := PushTask.req_of_step hstep
  refine ⟨h.pool.move hmove, ?_, ?_, h.marked, ?_, ?_⟩
  · intro r hr
    obtain ⟨hgen, hall⟩ := h.generation r hr
    refine ⟨by simpa using hgen, hall.move (fun hstep hzero => ?_) hmove⟩
    -- a write is counted in the current generation, which is the first one
    rw [PushTask.gen_of_step hstep, hgen, hzero]
    simp
  · intro u hu hrec
    rw [effect_error]
    by_cases hm : m = .recordError
    · rw [if_pos hm]
      rcases List.mem_or_eq_of_mem_set hu with hu | rfl
      · -- the exception that is overwritten was one of the same request
        refine (h.recorded u hu hrec).imp_left ?_
        rintro ⟨o, ho, hou⟩
        exact ⟨t.req, rfl, (hC hm t ht o ho).symm.trans hou⟩
      · exact .inl ⟨t.req, rfl, by rw [hreq]⟩
    · rw [if_neg hm]
      rcases List.mem_or_eq_of_mem_set hu with hu | rfl
      · exact h.recorded u hu hrec
      · rw [PushTask.errorRecorded_of_step hstep] at hrec
        rw [hreq]
        exact h.recorded t (List.mem_of_getElem? ht) (by simpa [hm] using hrec)
  · intro l pc t rest hrun
    exact (h.progress l pc t rest hrun).mono id (·.move (fun hstep h => h.step hstep) hmove)
      (·.move (fun hstep h => h.step hstep) hmove)
  · intro r hr
    exact ⟨(h.done r hr).1, (h.done r hr).2.move (fun hstep h => h.step hstep) hmove⟩

theorem Inv.submitPush (hnew : s.finalizer r.reqId = .unsubmitted) :
    Inv { s with pool := s.pool.submit r } := by
  -- no finalize task runs for the request of the new push, and no Done has been sent
  have hne : ∀ {r' : PhysicalReq L}, s.finalizer r'.reqId ≠ .unsubmitted → r ≠ r' := by
    rintro r' hr' rfl
    exact hr' hnew
  refine ⟨h.pool.submit r, ?_, ?_, h.marked, ?_, ?_⟩
  · intro r' hr'
    obtain ⟨hgen, hall⟩ := h.generation r' hr'
    refine ⟨by rw [submit_generation, hgen], fun t ht htr => ?_⟩
    rcases mem_submit ht with ht | rfl
    · exact hall t ht htr
    · rfl
  · intro t ht hrec
    rcases mem_submit ht with ht | rfl
    · have herror : (s.pool.submit r).error = s.pool.error := by
        unfold submit
        split <;> rfl
      rw [herror]
      exact h.recorded t ht hrec
    · simp [PushTask.errorRecorded] at hrec
  · intro l pc t rest hrun
    have hl : s.finalizer (PhysicalReq.mk l t).reqId ≠ .unsubmitted := fun hnone =>
      absurd (hrun.symm.trans hnone) (by simp)
    exact (h.progress l pc t rest hrun).mono id (·.submit (hne hl)) (·.submit (hne hl))
  · intro r' hr'
    exact ⟨(h.done r' hr').1, (h.done r' hr').2.submit (hne (h.done r' hr').1)⟩

/-! ### The finalizer moves -/

section

variable (hnot : s.finalizer l ≠ .ended)
include hnot

/-- A finalize task goes on, provided that it knows what its new place asks for and is
marked if its request is released. -/
theorem Inv.setFinalizer {f : FinalizeTask} (hsub : f ≠ .unsubmitted)
    (hrun : ∀ pc t rest, f = .running pc t rest →
      Passed s.pool cancelled ⟨l, t⟩ pc ∧ (s.Released l → cancelled)) :
    Inv (s.setFinalizer l f cancelled) := by
  refine ⟨h.pool, h.generation, ?_, ?_, ?_, ?_⟩
  · intro t ht hrec
    refine (h.recorded t ht hrec).imp_right (Or.imp_left fun hend => ?_)
    have hne : t.req.reqId ≠ l := fun heq => hnot (heq ▸ hend)
    simpa [PushWorker.setFinalizer, hne] using hend
  · intro l' pc t rest hrel hrun'
    by_cases heq : l' = l
    · subst heq
      simp only [PushWorker.setFinalizer, update_self] at hrun' ⊢
      exact (hrun pc t rest hrun').2 hrel
    · simp only [PushWorker.setFinalizer, update_of_ne heq] at hrun' ⊢
      exact h.marked l' pc t rest hrel hrun'
  · intro l' pc t rest hrun'
    by_cases heq : l' = l
    · subst heq
      simp only [PushWorker.setFinalizer, update_self] at hrun' ⊢
      exact (hrun pc t rest hrun').1
    · simp only [PushWorker.setFinalizer, update_of_ne heq] at hrun' ⊢
      exact h.progress l' pc t rest hrun'
  · intro r hr
    refine ⟨?_, (h.done r hr).2⟩
    by_cases heq : r.reqId = l
    · simpa [PushWorker.setFinalizer, heq] using hsub
    · simpa [PushWorker.setFinalizer, heq] using (h.done r hr).1

theorem Inv.nextTarget (hmark : s.Released l → s.finalizerCancelled l) (targets : List ℕ) :
    Inv (s.nextTarget l targets) := by
  cases targets with
  | nil => exact h.setFinalizer hnot (by simp) (by simp)
  | cons t rest =>
    refine h.setFinalizer hnot (by simp) ?_
    rintro pc t' rest' hf
    cases hf
    exact ⟨trivial, hmark⟩

theorem Inv.failFinalize : Inv (s.failFinalize l) := by
  have hend : Inv (s.setFinalizer l .ended false) := h.setFinalizer hnot (by simp) (by simp)
  exact { hend with }

end

/-- Emptying the error slot loses nothing if the exception has stopped its own request. -/
theorem Inv.clearError
    (hown : ∀ o ∈ s.pool.error, s.finalizer o.reqId = .ended ∨ s.Released o.reqId) :
    Inv { s with pool := { s.pool with error := none } } := by
  refine ⟨{ h.pool with }, h.generation, ?_, h.marked, ?_, h.done⟩
  · intro t ht hrec
    rcases h.recorded t ht hrec with ⟨o, ho, hot⟩ | hrest
    · exact .inr (hot ▸ hown o ho)
    · exact .inr hrest
  · intro l pc t rest hrun
    exact (h.progress l pc t rest hrun).mono id id id

/-- When `wait_req` passes, every push of the request ran without raising, unless the
request is released: an exception of its own would still lie in the slot. -/
theorem Inv.ran_of_waitReq (hnot : s.finalizer r.reqId ≠ .ended) (hempty : s.pool.error = none)
    (hzero : s.pool.inflightByReq r = 0) (hrel : ¬ s.Released r.reqId) :
    s.pool.All r PushTask.Ran := by
  intro t ht htr
  refine (h.pool.left hzero t ht htr).ran ?_
  by_contra hrec
  rw [Bool.not_eq_false] at hrec
  rcases h.recorded t ht hrec with ⟨o, ho, -⟩ | hend | hrel'
  · rw [hempty] at ho
    cases ho
  · exact hnot (htr ▸ hend)
  · exact hrel (htr ▸ hrel')

/-- When the wait for the writes passes, every push of the request is clean, unless the
request is closed: then its counters are gone. -/
theorem Inv.clean_of_wait (hran : s.pool.All r PushTask.Ran)
    (hwait : s.pool.waitForRequestWrites r = some .passed) (hopen : s.stage r.reqId ≠ .closed) :
    s.pool.All r PushTask.Clean := by
  obtain ⟨hgen, hall⟩ := h.generation r hopen
  intro t ht htr
  have hwrite := h.pool.waitForRequestWrites hwait t ht htr ((hall t ht htr).trans hgen.symm)
  exact ⟨hran t ht htr, hwrite.2 rfl⟩

theorem Inv.sendDone (hsub : s.finalizer r.reqId ≠ .unsubmitted)
    (hclean : s.pool.All r PushTask.Clean) :
    Inv { s with doneSent := update s.doneSent r true } := by
  refine { h with done := fun r' hr' => ?_ }
  by_cases heq : r' = r
  · subst heq
    exact ⟨hsub, hclean⟩
  · exact h.done r' (by simpa [update_of_ne heq] using hr')

end

@[simp] theorem nextTarget_pool (targets : List ℕ) : (s.nextTarget l targets).pool = s.pool := by
  cases targets <;> rfl

@[simp] theorem nextTarget_doneSent (targets : List ℕ) :
    (s.nextTarget l targets).doneSent = s.doneSent := by
  cases targets <;> rfl

theorem nextTarget_submitted (targets : List ℕ) :
    (s.nextTarget l targets).finalizer l ≠ .unsubmitted := by
  cases targets <;> simp [PushWorker.nextTarget, PushWorker.setFinalizer]

theorem Inv.stepFinalize {fault : Bool} (h : Inv s) (hC : s.OwnError (.finalize l fault))
    (hstep : s.stepFinalize l fault = some s') : Inv s' := by
  unfold PushWorker.stepFinalize at hstep
  rcases hf : s.finalizer l with _ | ⟨pc, t, rest⟩ | _
  · simp [hf] at hstep
  · have hnot : s.finalizer l ≠ .ended := by simp [hf]
    have hmark : s.Released l → s.finalizerCancelled l := fun hrel =>
      h.marked l pc t rest hrel hf
    have hpass := h.progress l pc t rest hf
    have hgo : ∀ pc', Passed s.pool (s.finalizerCancelled l) ⟨l, t⟩ pc' →
        Inv (s.setFinalizer l (.running pc' t rest) (s.finalizerCancelled l)) := by
      intro pc' hpc'
      refine h.setFinalizer hnot (by simp) ?_
      rintro pc'' t' rest' heq
      cases heq
      exact ⟨hpc', hmark⟩
    rcases pc with c | (_ | _ | _)
    · -- a look at the mark: what the wait has left open is settled here
      simp only [hf, some.injEq] at hstep
      subst hstep
      split
      case isTrue => exact h.nextTarget hnot hmark rest
      case isFalse hmarked =>
        refine hgo (.call c) ?_
        cases c with
        | waitReq => trivial
        | waitForPushes => exact hpass.resolve_left hmarked
        | pushDone => exact hpass.resolve_left hmarked
    · -- `wait_req`
      simp only [hf] at hstep
      obtain ⟨⟨w, pool⟩, hw, rfl⟩ := map_eq_some_iff.mp hstep
      rcases waitReq_some hw with ⟨rfl, -, rfl⟩ | ⟨rfl, hempty, hzero, rfl⟩
      · refine (h.failFinalize hnot).clearError fun o ho => .inl ?_
        rw [hC (by simp [atWaitReq, hf]) o ho]
        simp [PushWorker.failFinalize, PushWorker.setFinalizer]
      · refine hgo (.check .waitForPushes) ?_
        by_cases hrel : s.Released l
        · exact .inl (hmark hrel)
        · exact .inr (h.ran_of_waitReq hnot hempty hzero hrel)
    · -- `wait_for_pushes`
      simp only [hf] at hstep
      split at hstep
      · cases hstep
        exact h.failFinalize hnot
      · obtain ⟨w, hw, rfl⟩ := map_eq_some_iff.mp hstep
        cases w with
        | raised => exact h.failFinalize hnot
        | passed =>
          refine hgo (.check .pushDone) ?_
          by_cases hclosed : s.stage l = .closed
          · exact .inl (hmark (.inr hclosed))
          · exact .inr (h.clean_of_wait hpass hw hclosed)
    · -- `push_done`
      simp only [hf] at hstep
      split at hstep
      · cases hstep
        exact h.failFinalize hnot
      · obtain ⟨w, hw, rfl⟩ := map_eq_some_iff.mp hstep
        cases w with
        | raised => exact h.failFinalize hnot
        | passed =>
          have hnext := (h.nextTarget hnot hmark rest).sendDone (r := ⟨l, t⟩)
            (nextTarget_submitted rest) (by rw [nextTarget_pool]; exact hpass)
          simpa using hnext
  · simp [hf] at hstep

/-! ### Releases -/

/-- A step of a release leaves tasks, error slot and finalize tasks alone.  It is harmless
if marks and releases only grow, a finalize task of a released request is marked, and only
closed requests lose their counters. -/
theorem Inv.release (h : Inv s) (hpool : s'.pool.Inv) (htasks : s'.pool.tasks = s.pool.tasks)
    (herror : s'.pool.error = s.pool.error) (hfin : s'.finalizer = s.finalizer)
    (hdone : s'.doneSent = s.doneSent) (hgen : ∀ r, s'.stage r.reqId ≠ .closed →
      s.stage r.reqId ≠ .closed ∧ s'.pool.generation r = s.pool.generation r)
    (hrel : ∀ l, s.Released l → s'.Released l)
    (hmark : ∀ l, s.finalizerCancelled l → s'.finalizerCancelled l)
    (hnew : ∀ l pc t rest, s'.Released l → s.finalizer l = .running pc t rest →
      s'.finalizerCancelled l) : Inv s' := by
  have hall : ∀ {r Q}, s.pool.All r Q → s'.pool.All r Q := by
    intro r Q hQ
    rwa [PushPool.All, htasks]
  refine ⟨hpool, ?_, ?_, ?_, ?_, ?_⟩
  · intro r hr
    obtain ⟨hopen, hsame⟩ := hgen r hr
    rw [hsame]
    exact (h.generation r hopen).imp_right hall
  · rw [htasks, herror, hfin]
    intro t ht hrec
    exact (h.recorded t ht hrec).imp_right (Or.imp_right (hrel _))
  · rw [hfin]
    exact hnew
  · rw [hfin]
    intro l pc t rest hrun
    exact (h.progress l pc t rest hrun).mono (hmark l) hall hall
  · rw [hdone, hfin]
    exact fun r hr => (h.done r hr).imp_right hall

theorem open_of_update {g : ReleaseStage} (hopen : s.stage l ≠ .closed)
    (hr : update s.stage l g r.reqId ≠ .closed) : s.stage r.reqId ≠ .closed := by
  by_cases heq : r.reqId = l
  · exact heq ▸ hopen
  · simpa [heq] using hr

theorem Inv.cancelPushes (h : Inv s) (hactive : s.stage l = .active) :
    Inv { s with
      pool := s.pool.cancelMany (·.reqId = l)
      stage := update s.stage l .pushesCancelled } := by
  -- no request becomes released
  have hrel : ∀ l', s.Released l' ↔
      PushWorker.Released { s with stage := update s.stage l .pushesCancelled } l' := by
    intro l'
    by_cases heq : l' = l <;> simp [Released, heq, hactive]
  refine h.release (h.pool.cancelMany _) rfl rfl rfl rfl
    (fun r hr => ⟨open_of_update (by simp [hactive]) hr, rfl⟩) (fun l' => (hrel l').mp)
    (fun _ => id) ?_
  intro l' pc t rest hl'
  exact h.marked l' pc t rest ((hrel l').mpr hl')

theorem Inv.cancelFinalize (h : Inv s) (hstage : s.stage l = .pushesCancelled) :
    Inv { s with
      finalizerCancelled := update s.finalizerCancelled l
        (s.finalizerCancelled l || (s.finalizer l).isRunning)
      stage := update s.stage l .cancelled } := by
  refine h.release h.pool rfl rfl rfl rfl
    (fun r hr => ⟨open_of_update (by simp [hstage]) hr, rfl⟩) ?_ ?_ ?_
  · intro l' hl'
    by_cases heq : l' = l
    · simp [Released, heq]
    · simpa [Released, heq] using hl'
  · intro l' hl'
    by_cases heq : l' = l
    · subst heq
      simp [hl']
    · simpa [heq] using hl'
  · intro l' pc t rest hl' hrun
    by_cases heq : l' = l
    · subst heq
      simp [hrun, FinalizeTask.isRunning]
    · have hmarked := h.marked l' pc t rest (by simpa [Released, heq] using hl') hrun
      simpa [heq] using hmarked

theorem Inv.close (h : Inv s)
    (hstage : s.stage l = .cancelled ∨ (s.stage l = .active ∧ s.finalizer l = .ended)) :
    Inv { s with
      pool := s.pool.closeRequest (·.reqId = l)
      stage := update s.stage l .closed } := by
  refine h.release (h.pool.closeRequest _) rfl rfl rfl rfl ?_ ?_ (fun _ => id) ?_
  · intro r hr
    have hne : r.reqId ≠ l := by
      rintro rfl
      simp at hr
    exact ⟨by simpa [hne] using hr, by simp [closeRequest, hne]⟩
  · intro l' hl'
    by_cases heq : l' = l
    · simp [Released, heq]
    · simpa [Released, heq] using hl'
  · intro l' pc t rest hl' hrun
    by_cases heq : l' = l
    · subst heq
      -- a request that is closed without a release has no finalize task any more
      rcases hstage with hcancelled | ⟨-, hend⟩
      · exact h.marked l' pc t rest (.inl hcancelled) hrun
      · rw [hend] at hrun
        cases hrun
    · exact h.marked l' pc t rest (by simpa [Released, heq] using hl') hrun

/-! ### Runs -/

theorem inv_step {a : PushAction L} (h : Inv s) (hC : s.OwnError a) (hstep : s.step a = some s') :
    Inv s' := by
  cases a with
  | submitPush r =>
    obtain ⟨⟨-, hnew⟩, hs⟩ := ite_none_right_eq_some.mp hstep
    cases hs
    exact h.submitPush hnew
  | move i m =>
    obtain ⟨pool, hmove, rfl⟩ := map_eq_some_iff.mp hstep
    exact h.move hC hmove
  | submitFinalize l targets =>
    obtain ⟨⟨hactive, hnew⟩, hs⟩ := ite_none_right_eq_some.mp hstep
    cases hs
    exact h.nextTarget (by simp [hnew]) (by simp [Released, hactive]) _
  | finalize l fault => exact h.stepFinalize hC hstep
  | cancelPushes l =>
    obtain ⟨hactive, hs⟩ := ite_none_right_eq_some.mp hstep
    cases hs
    exact h.cancelPushes hactive
  | cancelFinalize l =>
    obtain ⟨hstage, hs⟩ := ite_none_right_eq_some.mp hstep
    cases hs
    exact h.cancelFinalize hstage
  | drain r =>
    obtain ⟨hstage, hs⟩ := ite_none_right_eq_some.mp hstep
    obtain ⟨⟨w, pool⟩, hw, rfl⟩ := map_eq_some_iff.mp hs
    rcases waitReq_some hw with ⟨-, -, rfl⟩ | ⟨-, -, -, rfl⟩
    · exact h.clearError fun o ho => .inr (.inl (by rw [hC o ho, hstage]))
    · exact h
  | close l =>
    obtain ⟨hstage, hs⟩ := ite_none_right_eq_some.mp hstep
    cases hs
    exact h.close hstage

/-- **Done is sound as long as exceptions stay with their request.**  In every run whose
waiters raise only exceptions of their own request, and whose tasks overwrite only those,
a Done IMM means that every push of its request did all it should. -/
theorem doneSound_of_ownError {as : List (PushAction L)} (h : Along step OwnError {} as) :
    Always step (DoneSound (L := L)) {} as :=
  (always_of_along (fun _ _ _ hinv hC hstep => inv_step hinv hC hstep) inv_init h).mono
    fun _ hinv r hr => (hinv.done r hr).2

/-- The moves of a push whose write completes. -/
def pushOk (i : ℕ) : List (PushAction L) :=
  [.move i .start, .move i .countWrite, .move i (.submitTransfer false),
    .move i (.completeWrite false), .move i .finish]

/-- The moves of a push that raises before its write is counted. -/
def pushRaises (i : ℕ) : List (PushAction L) :=
  [.move i .start, .move i .raiseEarly, .move i .recordError, .move i .finish]

/-- Two requests, one push each, both finalized; the push of request 0 raises. -/
def oneRaises : List (PushAction ℕ) :=
  [.submitPush ⟨0, 0⟩, .submitPush ⟨1, 0⟩, .submitFinalize 0 [0], .submitFinalize 1 [0]] ++
    pushRaises 0 ++ pushOk 1

/-- The finalize task of `l` runs to its end. -/
def finalizeAll (l : L) : List (PushAction L) := List.replicate 6 (.finalize l false)

/-- The failed request's own finalize task comes first and takes its exception along; the
other request is then finalized with Done. -/
theorem doneSound_ownFirst :
    Always step (DoneSound (L := ℕ)) {}
      (oneRaises ++ [.finalize 0 false, .finalize 0 false] ++ finalizeAll 1) :=
  doneSound_of_ownError (by decide +kernel)

/-- **An exception raised for another request.**  If the other request's finalize task comes
first, it takes the exception out of the slot, and the failed request is reported Done. -/
theorem not_doneSound_otherFirst :
    ¬ Always step (DoneSound (L := ℕ)) {}
      (oneRaises ++ [.finalize 1 false, .finalize 1 false] ++ finalizeAll 0) :=
  not_always (fun s => s.doneSent ⟨0, 0⟩ = true → s.pool.All ⟨0, 0⟩ PushTask.Clean)
    (fun _ h => h _) (by decide +kernel)

/-! ### Bookkeeping of the pool -/

/-- The worker changes the pool only through the calls of the pool. -/
theorem poolInv_step (s : PushWorker L) (a : PushAction L) (s' : PushWorker L) (h : s.pool.Inv)
    (hstep : s.step a = some s') : s'.pool.Inv := by
  cases a with
  | submitPush r =>
    cases (ite_none_right_eq_some.mp hstep).2
    exact h.submit r
  | move i m =>
    obtain ⟨pool, hmove, rfl⟩ := map_eq_some_iff.mp hstep
    exact h.move hmove
  | submitFinalize l targets =>
    cases (ite_none_right_eq_some.mp hstep).2
    rwa [nextTarget_pool]
  | finalize l fault =>
    rw [step, stepFinalize] at hstep
    split at hstep
    · cases hstep
      split
      · rwa [nextTarget_pool]
      · exact h
    · obtain ⟨⟨w, pool⟩, hw, rfl⟩ := map_eq_some_iff.mp hstep
      rcases waitReq_some hw with ⟨rfl, -, rfl⟩ | ⟨rfl, -, -, rfl⟩
      · exact { h with }
      · exact h
    · split at hstep
      · cases hstep
        exact h
      · obtain ⟨w, -, rfl⟩ := map_eq_some_iff.mp hstep
        cases w <;> exact h
    · split at hstep
      · cases hstep
        exact h
      · obtain ⟨w, -, rfl⟩ := map_eq_some_iff.mp hstep
        cases w with
        | raised => exact h
        | passed => simpa using h
    · cases hstep
  | cancelPushes l =>
    cases (ite_none_right_eq_some.mp hstep).2
    exact h.cancelMany _
  | cancelFinalize l =>
    cases (ite_none_right_eq_some.mp hstep).2
    exact h
  | drain r =>
    obtain ⟨w, hw, rfl⟩ := map_eq_some_iff.mp (ite_none_right_eq_some.mp hstep).2
    rcases waitReq_some hw with ⟨-, -, hpool⟩ | ⟨-, -, -, hpool⟩
    · rw [hpool]; exact { h with }
    · rwa [hpool]
  | close l =>
    cases (ite_none_right_eq_some.mp hstep).2
    exact h.closeRequest _

/-- **The counts of the pool are right in every run**, whatever raises and whatever is released: the
tasks of a request that are in flight, and what its writes added to the native counters. -/
theorem always_poolInv (as : List (PushAction L)) :
    Always step (fun s : PushWorker L => s.pool.Inv) {} as :=
  always_of_step poolInv_step PushPool.inv_init

end PushWorker

end PegaFlow
