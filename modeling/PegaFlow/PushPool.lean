/-
PegaFlow/PushPool.lean

The pool of layer pushes on a prefill worker.

Two layers share the bookkeeping of a push.  On the Python side the layer push sender
runs its tasks on worker threads: it counts the tasks in flight per request, marks
cancelled requests, and keeps the exception of a failed task in one error slot that all
requests share.  On the native side `push_layer` counts the write it submits in the
request's `PendingRdmaWrites`, and a completion callback counts it again when it is done.
-/
import PegaFlow.Tally

namespace PegaFlow

/-- A physical request: a request together with one of the decode ranks it pushes to. -/
structure PhysicalReq (L : Type*) where
  reqId : L
  target : ℕ
deriving DecidableEq

/-! ### One task -/

/-- How far a layer push task has come.  `counted` lies inside `push_layer`, between
counting the write and submitting it; `recorded` lies between storing the exception in the
error slot and leaving the in-flight count. -/
inductive TaskRun where
  | queued
  | running
  | counted
  | returned
  | raised
  | recorded
  | finished (failed : Bool)
deriving DecidableEq

/-- The write of a task. -/
inductive TaskWrite where
  | unsent
  | counted
  | outstanding
  | completed (failed : Bool)
deriving DecidableEq

/-- A `_LayerPushTask`, with the generation of the counters its write is counted in. -/
structure PushTask (R : Type*) where
  req : R
  run : TaskRun := .queued
  write : TaskWrite := .unsent
  gen : ℕ := 0
deriving DecidableEq

/-- What can happen to a task next. -/
inductive TaskMove where
  /-- a worker thread picks the task up and reads the cancelled mark -/
  | start
  /-- `push_layer` returns without a write: there was nothing to send -/
  | returnEmpty
  /-- `event.synchronize` or `push_layer` raises before the write is counted -/
  | raiseEarly
  | countWrite
  /-- `submit_transfer`; when it fails, the error is counted and `push_layer` raises -/
  | submitTransfer (failed : Bool)
  /-- the completion callback of the write -/
  | completeWrite (failed : Bool)
  | recordError
  | finish
deriving DecidableEq

/-- `PendingRdmaWrites`: what the native layer counts for one request. -/
structure PendingRdmaWrites where
  submitted : ℕ := 0
  completed : ℕ := 0
  errors : ℕ := 0
deriving DecidableEq

def PendingRdmaWrites.add (a b : PendingRdmaWrites) : PendingRdmaWrites :=
  ⟨a.submitted + b.submitted, a.completed + b.completed, a.errors + b.errors⟩

/-- One of the three counters. -/
structure PendingRdmaWrites.Counter where
  read : PendingRdmaWrites → ℕ
  read_empty : read {} = 0
  read_add : ∀ a b, read (a.add b) = read a + read b

/-- What a move adds to the counters of the request. -/
def TaskMove.added : TaskMove → PendingRdmaWrites
  | .countWrite => { submitted := 1 }
  | .submitTransfer failed => { completed := failed.toNat, errors := failed.toNat }
  | .completeWrite failed => { completed := 1, errors := failed.toNat }
  | _ => {}

namespace PushTask

variable {R : Type*} {t t' : PushTask R} {m : TaskMove} {cancelled : Bool} {gen : ℕ}

/-- One move of a task, given its request's cancelled mark and current counters. -/
def step (t : PushTask R) (cancelled : Bool) (gen : ℕ) : TaskMove → Option (PushTask R)
  | .start =>
      if t.run = .queued then
        -- a cancelled task skips its push
        some { t with run := if cancelled then .returned else .running }
      else none
  | .returnEmpty => if t.run = .running then some { t with run := .returned } else none
  | .raiseEarly => if t.run = .running then some { t with run := .raised } else none
  | .countWrite =>
      if t.run = .running ∧ t.write = .unsent then
        some { t with run := .counted, write := .counted, gen }
      else none
  | .submitTransfer failed =>
      if t.run = .counted ∧ t.write = .counted then
        some { t with
          run := if failed then .raised else .returned
          write := if failed then .completed true else .outstanding }
      else none
  | .completeWrite failed =>
      if t.write = .outstanding then some { t with write := .completed failed } else none
  | .recordError => if t.run = .raised then some { t with run := .recorded } else none
  | .finish =>
      if t.run = .returned then some { t with run := .finished false }
      else if t.run = .recorded then some { t with run := .finished true }
      else none

/-- The task still counts as in flight. -/
def inflight (t : PushTask R) : ℕ :=
  match t.run with
  | .finished _ => 0
  | _ => 1

/-- What the task has added to the counters of its request. -/
def writes (t : PushTask R) : PendingRdmaWrites :=
  match t.write with
  | .unsent => {}
  | .counted | .outstanding => { submitted := 1 }
  | .completed failed => { submitted := 1, completed := 1, errors := failed.toNat }

/-- The task's exception has been stored in the error slot. -/
def errorRecorded (t : PushTask R) : Bool :=
  t.run = .recorded || t.run = .finished true

/-- The task has left the pool, whichever way. -/
def Left (t : PushTask R) : Prop := t.inflight = 0

/-- The task ran without raising. -/
def Ran (t : PushTask R) : Prop := t.run = .finished false

/-- The task's write, if it made one, is complete. -/
def WriteOver (t : PushTask R) : Prop := t.writes.submitted = t.writes.completed

/-- The task's write, if it made one, is complete and did not fail. -/
def WriteOk (t : PushTask R) : Prop := t.WriteOver ∧ t.writes.errors = 0

/-- Nothing of the task is left to happen: it has left the pool and its write is over. -/
def Over (t : PushTask R) : Prop := t.Left ∧ t.WriteOver

/-- A layer push that did all it should: it ran without raising, and its write, if it made
one, completed without error. -/
def Clean (t : PushTask R) : Prop := t.Ran ∧ t.WriteOk

instance (t : PushTask R) : Decidable t.Left := inferInstanceAs (Decidable (_ = _))

instance (t : PushTask R) : Decidable t.Ran := inferInstanceAs (Decidable (_ = _))

instance (t : PushTask R) : Decidable t.WriteOver := inferInstanceAs (Decidable (_ = _))

instance (t : PushTask R) : Decidable t.WriteOk := inferInstanceAs (Decidable (_ ∧ _))

instance (t : PushTask R) : Decidable t.Over := inferInstanceAs (Decidable (_ ∧ _))

instance (t : PushTask R) : Decidable t.Clean := inferInstanceAs (Decidable (_ ∧ _))

theorem Ran.left (h : t.Ran) : t.Left := by
  rw [Ran] at h
  simp [Left, inflight, h]

theorem left_iff : t.Left ↔ t.Ran ∨ t.run = .finished true := by
  simp only [Left, Ran, inflight]
  rcases t.run with _ | _ | _ | _ | _ | _ | (_ | _) <;> simp

theorem Left.ran (h : t.Left) (hrec : t.errorRecorded = false) : t.Ran := by
  rcases left_iff.mp h with hran | hfail
  · exact hran
  · simp [errorRecorded, hfail] at hrec

theorem writes_le (t : PushTask R) :
    t.writes.completed ≤ t.writes.submitted ∧ t.writes.errors ≤ t.writes.completed := by
  simp only [writes]
  rcases t.write with _ | _ | _ | (_ | _) <;> simp

/-! ### What one move does -/

theorem Over.no_step (hover : t.Over) : t.step cancelled gen m = none := by
  obtain ⟨hleft, hwrite⟩ := hover
  simp only [Left, WriteOver, inflight, writes] at hleft hwrite
  cases m <;> simp only [PushTask.step] <;> grind

section

variable (h : t.step cancelled gen m = some t')
include h

theorem req_of_step : t'.req = t.req := by
  cases m <;> simp only [step] at h <;> grind

/-- The in-flight count changes with the last move only. -/
theorem inflight_of_step :
    t.inflight = t'.inflight + (if m = .finish then 1 else 0) := by
  cases m <;> simp only [step] at h <;> grind [inflight]

/-- The counters of the task's own write move by what the move adds, and a task whose
write is counted keeps its generation. -/
theorem writes_of_step : t'.writes = t.writes.add m.added := by
  cases m <;> simp only [step] at h <;> grind [writes, TaskMove.added, PendingRdmaWrites.add]

theorem gen_of_step :
    t'.gen = if m = .countWrite then gen else t.gen := by
  cases m <;> simp only [step] at h <;> grind

theorem Left.step (hleft : t.Left) : t'.Left := by
  have := inflight_of_step h
  simp only [Left] at *
  omega

theorem Ran.step (hran : t.Ran) : t'.Ran := by
  simp only [Ran] at *
  cases m <;> simp only [PushTask.step] at h <;> grind

/-- Once over, the write stays over until a new one is counted. -/
theorem WriteOver.step (hover : t.WriteOver) (hm : m ≠ .countWrite) : t'.WriteOver := by
  have hwrites := writes_of_step h
  have hzero : m.added.submitted = 0 := by
    cases m <;> first | rfl | exact absurd rfl hm
  have := t'.writes_le
  simp only [WriteOver, hwrites, PendingRdmaWrites.add] at *
  omega

theorem Over.step (hover : t.Over) : t'.Over := by
  rw [hover.no_step] at h
  cases h

theorem Clean.step (hclean : t.Clean) : t'.Clean := by
  rw [Over.no_step ⟨hclean.1.left, hclean.2.1⟩] at h
  cases h

theorem errorRecorded_of_step :
    t'.errorRecorded = (t.errorRecorded || m = .recordError) := by
  cases m <;> simp only [step] at h <;> grind [errorRecorded]

end

theorem unsent_of_countWrite (h : t.step cancelled gen .countWrite = some t') : t.writes = {} := by
  simp only [step] at h
  grind [writes]

end PushTask

/-! ### The pool -/

/-- The sender with the native counters.  `counters r g` are those `closeRequest` has
dropped for `r` when `g` is not its current generation.  An entry of the error slot is
kept with the request whose task raised it. -/
structure PushPool (R : Type*) where
  tasks : List (PushTask R) := []
  error : Option R := none
  inflightByReq : R → ℕ := fun _ => 0
  cancelled : R → Bool := fun _ => false
  generation : R → ℕ := fun _ => 0
  counters : R → ℕ → PendingRdmaWrites := fun _ _ => {}

/-- Where a blocking call can go next. -/
inductive Waited where
  | passed
  | raised
deriving DecidableEq

namespace PushPool

variable {R : Type*} [DecidableEq R] (s : PushPool R)

/-- `submit`: refused as long as an exception is pending, whoever's it is. -/
def submit (r : R) : PushPool R :=
  if s.error.isSome then s
  else { s with
    tasks := s.tasks ++ [{ req := r }]
    inflightByReq := Function.update s.inflightByReq r (s.inflightByReq r + 1) }

/-- What a move of a task of `r` writes besides the task itself. -/
def effect (t : PushTask R) (t' : PushTask R) (m : TaskMove) : PushPool R :=
  match m with
  | .recordError => { s with error := some t.req }
  | .finish =>
      { s with
        inflightByReq := Function.update s.inflightByReq t.req (s.inflightByReq t.req - 1)
        -- the last task of a request takes its cancelled mark along
        cancelled := if s.inflightByReq t.req - 1 = 0 then
          Function.update s.cancelled t.req false else s.cancelled }
  | _ =>
      { s with
        counters := Function.update s.counters t.req
          (Function.update (s.counters t.req) t'.gen
            { submitted := (s.counters t.req t'.gen).submitted + m.added.submitted
              completed := (s.counters t.req t'.gen).completed + m.added.completed
              errors := (s.counters t.req t'.gen).errors + m.added.errors }) }

/-- Task `i` makes the move `m`. -/
def move (i : ℕ) (m : TaskMove) : Option (PushPool R) :=
  (s.tasks[i]?).bind fun t =>
    (t.step (s.cancelled t.req) (s.generation t.req) m).map fun t' =>
      { s.effect t t' m with tasks := s.tasks.set i t' }

/-- `cancel_many`: only requests with a task in flight are marked. -/
def cancelMany (reqs : R → Bool) : PushPool R :=
  { s with cancelled := fun r => s.cancelled r || (reqs r && decide (0 < s.inflightByReq r)) }

/-- `wait_req`: blocked as long as the request has tasks in flight and the slot is empty;
a pending exception is taken out of the slot and raised, whoever's it is. -/
def waitReq (r : R) : Option (Waited × PushPool R) :=
  if s.error.isSome then some (.raised, { s with error := none })
  else if s.inflightByReq r = 0 then some (.passed, s)
  else none

/-- The counters `wait_for_request_writes` reads. -/
def pendingWrites (r : R) : PendingRdmaWrites :=
  s.counters r (s.generation r)

/-- `wait_for_request_writes`, its timeout aside: blocked until every write submitted is
complete, then the errors decide. -/
def waitForRequestWrites (r : R) : Option Waited :=
  if (s.pendingWrites r).submitted = 0 then some .passed
  else if (s.pendingWrites r).completed < (s.pendingWrites r).submitted then none
  else if (s.pendingWrites r).errors ≠ 0 then some .raised
  else some .passed

/-- `close_request` drops the counters of the request. -/
def closeRequest (reqs : R → Bool) : PushPool R :=
  { s with generation := fun r => if reqs r then s.generation r + 1 else s.generation r }

/-! ### The counters read what the tasks say -/

variable {s s' : PushPool R} {r : R} {i : ℕ} {m : TaskMove}

/-- What a task of `r` counted in generation `g` adds to a counter. -/
def share (r : R) (g : ℕ) (c : PendingRdmaWrites.Counter) (t : PushTask R) : ℕ :=
  if t.req = r ∧ t.gen = g then c.read t.writes else 0

/-- Whether a task counts as in flight for `r`. -/
def flight (r : R) (t : PushTask R) : ℕ := if t.req = r then t.inflight else 0

/-- **The bookkeeping invariant.**  The in-flight count of a request is the number of its
tasks that have not left, and each generation of its native counters is the sum of what
its tasks have added to it. -/
structure Inv (s : PushPool R) : Prop where
  inflight : ∀ r, s.inflightByReq r = tally (flight r) s.tasks
  counters : ∀ c r g, c.read (s.counters r g) = tally (share r g c) s.tasks

theorem inv_init : Inv ({} : PushPool R) := ⟨fun _ => rfl, fun c _ _ => c.read_empty⟩

theorem move_some (h : s.move i m = some s') :
    ∃ t t', s.tasks[i]? = some t ∧
      t.step (s.cancelled t.req) (s.generation t.req) m = some t' ∧
      s' = { s.effect t t' m with tasks := s.tasks.set i t' } := by
  obtain ⟨t, ht, h⟩ := Option.bind_eq_some_iff.mp h
  obtain ⟨t', ht', rfl⟩ := Option.map_eq_some_iff.mp h
  exact ⟨t, t', ht, ht', rfl⟩

variable (t t' : PushTask R) {w : Waited}

@[simp] theorem effect_generation : (s.effect t t' m).generation = s.generation := by
  cases m <;> rfl

theorem effect_error :
    (s.effect t t' m).error = if m = .recordError then some t.req else s.error := by
  cases m <;> rfl

theorem effect_inflightByReq (r : R) : (s.effect t t' m).inflightByReq r =
      s.inflightByReq r - (if m = .finish ∧ t.req = r then 1 else 0) := by
  cases m <;> simp [effect, Function.update_apply]
  grind

theorem effect_counters (r : R) (g : ℕ) : (s.effect t t' m).counters r g = (s.counters r g).add
      (if t.req = r ∧ t'.gen = g then m.added else {}) := by
  by_cases h : t.req = r ∧ t'.gen = g
  · obtain ⟨rfl, rfl⟩ := h
    cases m <;> simp [effect, TaskMove.added, PendingRdmaWrites.add]
  · rw [if_neg h]
    show _ = s.counters r g
    cases m <;> simp only [effect, Function.update_apply] <;> grind

theorem share_of_step {t t' : PushTask R} {cancelled : Bool} {gen : ℕ}
    (c : PendingRdmaWrites.Counter) (h : t.step cancelled gen m = some t') (r : R) (g : ℕ) :
    share r g c t' =
      share r g c t + c.read (if t.req = r ∧ t'.gen = g then m.added else {}) := by
  have hreq := PushTask.req_of_step h
  have hgen := PushTask.gen_of_step h
  have hread := c.read_add t.writes m.added
  rw [← PushTask.writes_of_step h] at hread
  by_cases hm : m = .countWrite
  · -- the write had not been counted in any generation before
    subst hm
    have hw := PushTask.unsent_of_countWrite h
    simp only [share, hreq, hread, hw, c.read_empty]
    split <;> simp [c.read_empty]
  · rw [if_neg hm] at hgen
    simp only [share, hreq, hgen, hread]
    split <;> simp [c.read_empty]

theorem move_generation (h : s.move i m = some s') : s'.generation = s.generation := by
  obtain ⟨t, t', -, -, rfl⟩ := move_some h
  exact effect_generation t t'

theorem Inv.move (h : Inv s) (hmove : s.move i m = some s') : Inv s' := by
  obtain ⟨t, t', ht, hstep, rfl⟩ := move_some hmove
  have hreq := PushTask.req_of_step hstep
  constructor
  · intro r
    have hset := tally_set (f := flight r) (y := t') ht
    have hin := PushTask.inflight_of_step hstep
    have hone := effect_inflightByReq (s := s) (m := m) t t' r
    have := h.inflight r
    simp only [flight, hreq] at hset this hone ⊢
    grind
  · intro c r g
    have hset := tally_set (f := share r g c) (y := t') ht
    have hshare := share_of_step c hstep r g
    have hold := h.counters c r g
    show c.read ((s.effect t t' m).counters r g) = tally _ (s.tasks.set i t')
    rw [effect_counters, c.read_add]
    omega

theorem Inv.submit (h : Inv s) (r : R) : Inv (s.submit r) := by
  unfold PushPool.submit
  split
  · exact h
  · constructor
    · intro r'
      have := h.inflight r'
      simp only [tally_append_singleton, Function.update_apply, flight, PushTask.inflight] at *
      grind
    · intro c r' g
      simpa [share, PushTask.writes, c.read_empty] using h.counters c r' g

theorem Inv.cancelMany (h : Inv s) (reqs : R → Bool) : Inv (s.cancelMany reqs) :=
  { h with }

theorem Inv.closeRequest (h : Inv s) (reqs : R → Bool) : Inv (s.closeRequest reqs) :=
  { h with }

omit [DecidableEq R] in
/-- Inversion of `wait_req`: it raises when the slot is taken, and passes only when the
slot is empty and the request has no task in flight. -/
theorem waitReq_some (h : s.waitReq r = some (w, s')) :
    (w = .raised ∧ s.error.isSome ∧ s' = { s with error := none }) ∨
      (w = .passed ∧ s.error = none ∧ s.inflightByReq r = 0 ∧ s' = s) := by
  unfold waitReq at h
  split at h
  case isTrue herr =>
    cases h
    exact .inl ⟨rfl, herr, rfl⟩
  case isFalse herr =>
    split at h
    case isTrue hzero =>
      cases h
      exact .inr ⟨rfl, by simpa using herr, hzero, rfl⟩
    case isFalse => cases h

/-! ### What a waiter learns -/

theorem Inv.left (h : Inv s) (hzero : s.inflightByReq r = 0) :
    ∀ t ∈ s.tasks, t.req = r → t.Left := by
  rintro t ht rfl
  have hle : flight t.req t ≤ tally (flight t.req) s.tasks := le_tally ht
  rw [← h.inflight, hzero] at hle
  simpa [flight, PushTask.Left] using hle

/-- **Waiting for the writes.**  When `wait_for_request_writes` returns, the writes counted
in the current counters of the request are complete; when it passes, none of them failed. -/
theorem Inv.waitForRequestWrites (h : Inv s) (hwait : s.waitForRequestWrites r = some w) :
    ∀ t ∈ s.tasks, t.req = r → t.gen = s.generation r →
      t.WriteOver ∧ (w = .passed → t.WriteOk) := by
  rintro t ht rfl hgen
  have hsub := h.counters ⟨(·.submitted), rfl, fun _ _ => rfl⟩ t.req (s.generation t.req)
  have hcomp := h.counters ⟨(·.completed), rfl, fun _ _ => rfl⟩ t.req (s.generation t.req)
  have herr := h.counters ⟨(·.errors), rfl, fun _ _ => rfl⟩ t.req (s.generation t.req)
  dsimp only at hsub hcomp herr
  have hle := t.writes_le
  -- in either way out the completions have caught up with the submissions
  have hcaught : (s.pendingWrites t.req).submitted ≤ (s.pendingWrites t.req).completed := by
    unfold PushPool.waitForRequestWrites at hwait
    split at hwait
    · omega
    · split at hwait
      · cases hwait
      · omega
  have hover : t.WriteOver := by
    rw [pendingWrites, hsub, hcomp] at hcaught
    have hshare := eq_of_tally_le (fun u _ => by
      have := u.writes_le
      simp only [share]
      split <;> omega) hcaught t ht
    simpa [share, hgen, PushTask.WriteOver] using hshare
  refine ⟨hover, fun hpass => ⟨hover, ?_⟩⟩
  subst hpass
  unfold PushPool.waitForRequestWrites at hwait
  split at hwait
  case isTrue hnone =>
    -- nothing was submitted, so nothing can have failed
    have hone := (le_tally ht).trans_eq hsub.symm
    rw [← pendingWrites] at hone
    simp only [share, hgen, and_self, if_true] at hone
    omega
  case isFalse =>
    split at hwait
    · cases hwait
    · split at hwait
      · cases hwait
      case isFalse hno =>
        have hone := (le_tally ht).trans_eq herr.symm
        rw [← pendingWrites, not_not.mp hno] at hone
        simpa [share, hgen] using hone

/-! ### Facts about all tasks of a request -/

/-- `Q` holds of every task submitted for `r`. -/
def All (s : PushPool R) (r : R) (Q : PushTask R → Prop) : Prop :=
  ∀ t ∈ s.tasks, t.req = r → Q t

instance (s : PushPool R) (r : R) (Q : PushTask R → Prop) [DecidablePred Q] :
    Decidable (s.All r Q) := inferInstanceAs (Decidable (∀ t ∈ s.tasks, _ → _))

variable {Q : PushTask R → Prop}

theorem All.move (h : s.All r Q)
    (hQ : ∀ {t t' : PushTask R}, t.step (s.cancelled r) (s.generation r) m = some t' → Q t → Q t')
    (hmove : s.move i m = some s') : s'.All r Q := by
  obtain ⟨t, t', ht, hstep, rfl⟩ := move_some hmove
  intro u hu hur
  rcases List.mem_or_eq_of_mem_set hu with hu | rfl
  · exact h u hu hur
  · obtain rfl : t.req = r := (PushTask.req_of_step hstep).symm.trans hur
    exact hQ hstep (h t (List.mem_of_getElem? ht) rfl)

theorem mem_submit {t : PushTask R} (ht : t ∈ (s.submit r).tasks) :
    t ∈ s.tasks ∨ t = { req := r } := by
  unfold PushPool.submit at ht
  split at ht
  · exact .inl ht
  · simpa using ht

theorem submit_generation : (s.submit r).generation = s.generation := by
  unfold PushPool.submit
  split <;> rfl

theorem All.submit (h : s.All r Q) {r' : R} (hne : r' ≠ r) : (s.submit r').All r Q := by
  intro t ht htr
  rcases mem_submit ht with ht | rfl
  · exact h t ht htr
  · exact absurd htr hne

end PushPool

end PegaFlow
