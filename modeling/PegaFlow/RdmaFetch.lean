/-
PegaFlow/RdmaFetch.lean

The lifetime of the staging memory of a fetch (`fetch_blocks_via_rdma` in
`backing/rdma_fetch.rs`).

A fetch allocates pinned staging regions, submits one batch of READs to each session that
has work (`batch_transfer_async`), and waits for the replies in turn.  The regions are
owned by the fetch alone: the batches carry bare addresses.  When the fetch returns an
error, because a submission fails midway, a batch fails, the wait times out or the future is
dropped, all regions go back to the pinned pool at once; after success each goes back
when the block built in it is dropped.
-/
import Mathlib.Data.Nat.Basic
import Mathlib.Order.Basic
import PegaFlow.RcSession
import PegaFlow.Run

namespace PegaFlow

open Function RcSession

/-- Where the fetch is. -/
inductive FetchPhase where
  /-- Batches submitted so far. -/
  | submitting (n : ℕ)
  /-- Replies seen so far. -/
  | waiting (n : ℕ)
  | failed
  | succeeded
deriving DecidableEq, Repr

structure RdmaFetch where
  sessions : ℕ → RcSession
  phase : FetchPhase
  /-- Staging regions that are back in the pinned pool. -/
  freed : ℕ → Bool

inductive FetchEvent where
  /-- The next batch is sent to its worker, or the worker is gone. -/
  | submit (sent : Bool)
  /-- The reply waited for is there. -/
  | awaitReply
  /-- The wait times out, or the future of the fetch is dropped. -/
  | giveUp
  /-- A block of a successful fetch is dropped, and its staging region with it. -/
  | dropRegion (region : ℕ)
  | session (i : ℕ) (e : SessionEvent)
deriving DecidableEq, Repr

namespace RdmaFetch

/-- The batches of a fetch, one per session: the regions their READs write to. -/
abbrev Batches := List (List ℕ)

variable (work : Batches)

def init : RdmaFetch where
  sessions _ := .new
  phase := if work = [] then .succeeded else .submitting 0
  freed _ := false

variable (s : RdmaFetch)

/-- An error return drops all staging allocations. -/
def fail : RdmaFetch :=
  { s with phase := .failed, freed := fun _ => true }

def step (work : Batches) (s : RdmaFetch) : FetchEvent → Option RdmaFetch
  | .submit sent =>
      match s.phase with
      | .submitting n =>
          match work[n]? with
          | none => none
          | some ops =>
              if sent then
                some { s with
                  sessions := update s.sessions n
                    { s.sessions n with batch := .queued ops }
                  phase := if n + 1 < work.length then .submitting (n + 1) else .waiting 0 }
              else some s.fail
      | _ => none
  | .awaitReply =>
      match s.phase with
      | .waiting n =>
          match (s.sessions n).batch with
          | .replied true =>
              some { s with phase := if n + 1 < work.length then .waiting (n + 1) else .succeeded }
          | .replied false => some s.fail
          | _ => none
      | _ => none
  | .giveUp =>
      match s.phase with
      | .waiting _ => some s.fail
      | _ => none
  | .dropRegion region =>
      match s.phase with
      | .succeeded => some { s with freed := update s.freed region true }
      | _ => none
  | .session i e =>
      ((s.sessions i).step e).map fun session =>
        { s with sessions := update s.sessions i session }

/-- No READ that may still execute writes to a region of the pool. -/
def StagingSafe : Prop :=
  ∀ i, ∀ read ∈ (s.sessions i).outstanding, s.freed read.region = false

/-- No batch of the fetch is still at its worker. -/
def Settled : Prop :=
  ∀ i < work.length, ¬ (s.sessions i).Busy

instance : Decidable (s.Settled work) :=
  inferInstanceAs (Decidable (∀ i < work.length, ¬ (s.sessions i).Busy))

/-- The reply waited for is an error. -/
def replyFailed : Bool :=
  match s.phase with
  | .waiting n => (s.sessions n).batch = .replied false
  | _ => false

/-- The fetch gives up only when its batches are settled, and batches end cleanly. -/
def EndsSettled : FetchEvent → Prop
  | .submit sent => sent ∨ s.Settled work
  | .giveUp => s.Settled work
  | .awaitReply => s.replyFailed → s.Settled work
  | .session i e => (s.sessions i).CleanEnd e
  | .dropRegion _ => True

instance (e : FetchEvent) : Decidable (s.EndsSettled work e) :=
  match e with
  | .submit sent => inferInstanceAs (Decidable (sent ∨ s.Settled work))
  | .giveUp => inferInstanceAs (Decidable (s.Settled work))
  | .awaitReply => inferInstanceAs (Decidable (s.replyFailed → s.Settled work))
  | .session i e => inferInstanceAs (Decidable ((s.sessions i).CleanEnd e))
  | .dropRegion _ => .isTrue trivial

/-! ### The invariant -/

variable {work : Batches} {s s' : RdmaFetch} {session : RcSession} {e : SessionEvent}

/-- What is settled, by phase. -/
def PhaseSettled (work : Batches) (s : RdmaFetch) : Prop :=
  match s.phase with
  | .submitting n => (∀ i, n ≤ i → (s.sessions i).batch = .notSubmitted) ∧ ∀ r, s.freed r = false
  | .waiting n => (∀ i, i < n ∨ work.length ≤ i → ¬ (s.sessions i).Busy) ∧ ∀ r, s.freed r = false
  | .failed | .succeeded => ∀ i, ¬ (s.sessions i).Busy

structure Inv (work : Batches) (s : RdmaFetch) : Prop where
  session : ∀ i, (s.sessions i).Inv
  phase : s.PhaseSettled work

theorem inv_init (work : Batches) : Inv work (init work) where
  session _ := inv_new
  phase := by
    unfold PhaseSettled init
    split
    · next h => split at h <;> cases h; exact ⟨fun _ _ => rfl, fun _ => rfl⟩
    · next h => split at h <;> cases h
    all_goals exact fun i hbusy => hbusy

/-- Giving up with all batches settled leaves none that could still post. -/
theorem inv_fail (h : Inv work s) (hsettled : s.Settled work)
    (hrest : ∀ i, work.length ≤ i → ¬ (s.sessions i).Busy) : Inv work s.fail where
  session := h.session
  phase i := (lt_or_ge i work.length).elim (hsettled i) (hrest i)

/-- A session that has no batch at its worker is not made busy by what happens on it. -/
theorem batch_session {i : ℕ} (hstep : (s.sessions i).step e = some session) {j : ℕ}
    (hidle : ¬ (s.sessions j).Busy) :
    (update s.sessions i session j).batch = (s.sessions j).batch := by
  by_cases hj : j = i
  · subst hj
    rw [update_self]
    exact batch_of_step hstep hidle
  · rw [update_of_ne hj]

theorem inv_session (h : Inv work s) {i : ℕ} (hclean : (s.sessions i).CleanEnd e)
    (hstep : (s.sessions i).step e = some session) :
    Inv work { s with sessions := update s.sessions i session } := by
  constructor
  · intro j
    show (update s.sessions i session j).Inv
    by_cases hj : j = i
    · subst hj
      rw [update_self]
      exact inv_step (h.session j) hclean hstep
    · rw [update_of_ne hj]
      exact h.session j
  · have hphase := h.phase
    have hidle : ∀ j, ¬ (s.sessions j).Busy →
        ¬ (update s.sessions i session j).Busy := by
      intro j hj
      rw [not_busy_iff, batch_session hstep hj]
      exact not_busy_iff.mp hj
    rcases hp : s.phase with n | n | - | - <;> simp only [PhaseSettled, hp] at hphase ⊢
    · refine ⟨fun j hj => ?_, hphase.2⟩
      have hb := hphase.1 j hj
      rw [batch_session hstep (not_busy_iff.mpr (.inl hb))]
      exact hb
    · exact ⟨fun j hj => hidle j (hphase.1 j hj), hphase.2⟩
    · exact fun j => hidle j (hphase j)
    · exact fun j => hidle j (hphase j)

/-- Sending the next batch to its worker. -/
theorem inv_submit (h : Inv work s) {n : ℕ} {ops : List ℕ} (hp : s.phase = .submitting n)
    (hlt : n < work.length) :
    Inv work { s with
      sessions := update s.sessions n { s.sessions n with batch := .queued ops }
      phase := if n + 1 < work.length then .submitting (n + 1) else .waiting 0 } := by
  have hphase := h.phase
  simp only [PhaseSettled, hp] at hphase
  have hbatch : (s.sessions n).BatchInv := (h.session n).batch
  rw [RcSession.BatchInv, hphase.1 n le_rfl] at hbatch
  constructor
  · intro i
    show (update s.sessions n _ i).Inv
    by_cases hi : i = n
    · subst hi
      rw [update_self]
      exact ⟨(h.session i).down, (h.session i).failed, hbatch⟩
    · rw [update_of_ne hi]
      exact h.session i
  · have hrest : ∀ i, n + 1 ≤ i →
        (update s.sessions n { s.sessions n with batch := .queued ops } i).batch =
          .notSubmitted := by
      intro i hi
      rw [update_of_ne (by omega)]
      exact hphase.1 i (by omega)
    split_ifs with hmore
    · exact ⟨hrest, hphase.2⟩
    · exact ⟨fun i hi => not_busy_iff.mpr (.inl (hrest i (by omega))), hphase.2⟩

theorem inv_step {e : FetchEvent} (h : Inv work s) (hC : s.EndsSettled work e)
    (hstep : s.step work e = some s') : Inv work s' := by
  have hphase := h.phase
  cases e with
  | submit sent =>
    rw [step] at hstep
    split at hstep <;> try cases hstep
    next n hp =>
    simp only [PhaseSettled, hp] at hphase
    split at hstep <;> try cases hstep
    next ops hops =>
    have hlt : n < work.length := (List.getElem?_eq_some_iff.mp hops).1
    have hidle : ∀ i, n ≤ i → ¬ (s.sessions i).Busy := fun i hi =>
      not_busy_iff.mpr (.inl (hphase.1 i hi))
    split at hstep
    · cases hstep
      exact inv_submit h hp hlt
    · next hsent =>
      cases hstep
      exact inv_fail h (hC.resolve_left hsent) fun i hi => hidle i (hlt.le.trans hi)
  | awaitReply =>
    rw [step] at hstep
    split at hstep <;> try cases hstep
    next n hp =>
    simp only [PhaseSettled, hp] at hphase
    split at hstep <;> cases hstep
    · next hb =>
      -- the reply has come, so this session is settled, too
      have hidle : ∀ i, i < n + 1 ∨ work.length ≤ i → ¬ (s.sessions i).Busy := by
        intro i hi
        by_cases hin : i = n
        · rw [hin]
          exact not_busy_iff.mpr (.inr ⟨true, hb⟩)
        · exact hphase.1 i (by omega)
      refine ⟨h.session, ?_⟩
      split
      · exact ⟨hidle, hphase.2⟩
      · exact fun i => hidle i (by omega)
    · next hb =>
      have hfailed : s.replyFailed := by simp [replyFailed, hp, hb]
      exact inv_fail h (hC hfailed) fun i hi => hphase.1 i (.inr hi)
  | giveUp =>
    rw [step] at hstep
    split at hstep <;> cases hstep
    next n hp =>
    simp only [PhaseSettled, hp] at hphase
    exact inv_fail h hC fun i hi => hphase.1 i (.inr hi)
  | dropRegion region =>
    rw [step] at hstep
    split at hstep <;> cases hstep
    next hp =>
    exact ⟨h.session, by simpa only [PhaseSettled, hp] using hphase⟩
  | session i e =>
    obtain ⟨session, hsession, rfl⟩ := Option.map_eq_some_iff.mp hstep
    exact inv_session h hC hsession

/-- Regions are freed only when no session is busy, and then nothing is outstanding. -/
theorem stagingSafe_of_inv (h : Inv work s) : s.StagingSafe := by
  intro i read hread
  have hphase := h.phase
  unfold PhaseSettled at hphase
  split at hphase
  · exact hphase.2 read.region
  · exact hphase.2 read.region
  all_goals
    rw [(h.session i).outstanding (hphase i)] at hread
    cases hread

/-- **Staging lifetime.**  In every run in which the fetch gives up only with all its batches
settled, and batches end cleanly, no region is back in the pool while a READ into it may
still execute. -/
theorem stagingSafe_of_settled (work : Batches) (es : List FetchEvent)
    (h : Along (step work) (EndsSettled work) (init work) es) :
    Always (step work) StagingSafe (init work) es :=
  (always_of_along (fun _ _ _ hinv hC hstep => inv_step hinv hC hstep) (inv_init work) h).mono
    fun _ hinv => stagingSafe_of_inv hinv

/-- Two sessions with one READ each, into regions 0 and 1: both are posted, and the one on
session 0 fails. -/
def oneFails : List FetchEvent :=
  [.submit true, .submit true, .session 0 .start, .session 1 .start, .session 0 .postChain,
    .session 1 .postChain, .session 0 (.readCompletes 0 false), .session 0 .poll]

/-- If the READ on session 1 completes before the fetch looks at the reply of session 0,
nothing is outstanding when the regions go back. -/
theorem stagingSafe_oneFails :
    Always (step [[0], [1]]) StagingSafe (init [[0], [1]])
      (oneFails ++ [.session 1 (.readCompletes 0 true), .session 1 .poll, .session 1 .finish,
        .awaitReply]) :=
  stagingSafe_of_settled _ _ (by decide +kernel)

/-- If the fetch looks first, region 1 goes back while session 1 is reading into it. -/
theorem not_stagingSafe_oneFails :
    ¬ Always (step [[0], [1]]) StagingSafe (init [[0], [1]]) (oneFails ++ [.awaitReply]) :=
  not_always (fun s => ∀ read ∈ (s.sessions 1).outstanding, s.freed read.region = false)
    (fun _ h => h 1) (by decide +kernel)

end RdmaFetch

end PegaFlow
