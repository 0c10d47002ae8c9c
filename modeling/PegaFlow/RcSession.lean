/-
PegaFlow/RcSession.lean

One RDMA session of the transfer engine (`rc_backend/session.rs`): a queue pair with its
completion queue, and the worker thread that executes batches of READs on it.

`execute_batch` posts the READs of a batch in chains, remembers the work request ids in
flight, and polls completions until none is left.  It returns early if posting fails, if
polling fails, or at the first completion with an error.  What the NIC does with a posted
READ is beyond the worker: it goes on executing it until it completes, or until the queue
pair is in the error state or gone, after which no READ executes any more.
-/
import Mathlib.Data.List.Nodup
import Mathlib.Data.List.Perm.Basic

namespace PegaFlow

open List

/-- Work requests chained in one post. -/
def maxWrChainOps : ℕ := 4

/-- Work requests in flight on one session. -/
def maxSendWr : ℕ := 128

/-- A posted READ: its id and what tells it from others, as the staging region it writes to. -/
structure PostedRead where
  wrId : ℕ
  region : ℕ
deriving DecidableEq, Repr

/-- An entry of the completion queue.  `own` tells the READs of this batch from leftovers
of an earlier one; the worker cannot. -/
structure Completion where
  wrId : ℕ
  success : Bool
  own : Bool
deriving DecidableEq, Repr

/-- The batch of a fetch at the session's worker.  A READ is given by its region. -/
inductive BatchState where
  | notSubmitted
  | queued (ops : List ℕ)
  /-- READs not posted yet, the next id, and the ids in flight. -/
  | executing (todo : List ℕ) (nextWrId : ℕ) (inflight : List ℕ)
  | replied (success : Bool)
deriving DecidableEq, Repr

structure RcSession where
  batch : BatchState
  /-- Posted READs that the NIC may still execute. -/
  outstanding : List PostedRead
  cq : List Completion
  /-- The queue pair is in the error state, or destroyed. -/
  qpDown : Bool
deriving DecidableEq, Repr

inductive SessionEvent where
  /-- The worker takes the batch from its queue. -/
  | start
  /-- The session died before that: the worker replies with an error. -/
  | invalidated
  | postChain
  /-- Posting a chain fails, after `posted` of its READs. -/
  | postFails (posted : ℕ)
  /-- The NIC completes the `i`-th READ outstanding. -/
  | readCompletes (i : ℕ) (success : Bool)
  /-- A completion of a READ of an earlier batch arrives. -/
  | staleCompletion (wrId : ℕ) (success : Bool)
  | poll
  | pollFails
  /-- Everything is posted and completed: the worker replies. -/
  | finish
  /-- The connection is invalidated and no batch pins the session. -/
  | destroyQp
deriving DecidableEq, Repr

namespace RcSession

def new : RcSession where
  batch := .notSubmitted
  outstanding := []
  cq := []
  qpDown := false

/-- The READs of a chain, with successive ids. -/
def chain (nextWrId : ℕ) (regions : List ℕ) : List PostedRead :=
  regions.zipIdx.map fun r => { wrId := nextWrId + r.2, region := r.1 }

variable (reads : List PostedRead)

def flushed : List Completion :=
  reads.map fun r => { wrId := r.wrId, success := false, own := true }

variable (s : RcSession)

/-- Post READs: a queue pair that is down flushes them. -/
def post (reads : List PostedRead) : RcSession :=
  if s.qpDown then { s with cq := s.cq ++ flushed reads }
  else { s with outstanding := s.outstanding ++ reads }

/-- A completion arrives.  After one with an error the queue pair is down and whatever is
outstanding is flushed. -/
def complete (c : Completion) : RcSession :=
  if c.success then { s with cq := s.cq ++ [c] }
  else { s with cq := s.cq ++ c :: flushed s.outstanding, outstanding := [], qpDown := true }

def chainLen (todo inflight : List ℕ) : ℕ :=
  min maxWrChainOps (min (maxSendWr - inflight.length) todo.length)

def step : SessionEvent → Option RcSession
  | .start =>
      match s.batch with
      | .queued ops => some { s with batch := .executing ops 1 [] }
      | _ => none
  | .invalidated =>
      match s.batch with
      | .queued _ => some { s with batch := .replied false }
      | _ => none
  | .postChain =>
      match s.batch with
      | .executing todo nextWrId inflight =>
          if todo ≠ [] ∧ inflight.length < maxSendWr then
            let n := chainLen todo inflight
            let reads := chain nextWrId (todo.take n)
            some { s.post reads with
              batch := .executing (todo.drop n) (nextWrId + n)
                (inflight ++ reads.map PostedRead.wrId) }
          else none
      | _ => none
  | .postFails posted =>
      match s.batch with
      | .executing todo nextWrId inflight =>
          if todo ≠ [] ∧ inflight.length < maxSendWr then
            some { s.post (chain nextWrId (todo.take (min posted (chainLen todo inflight)))) with
              batch := .replied false }
          else none
      | _ => none
  | .readCompletes i success =>
      s.outstanding[i]?.map fun r =>
        { s with outstanding := s.outstanding.eraseIdx i }.complete
          { wrId := r.wrId, success, own := true }
  | .staleCompletion wrId success => some (s.complete { wrId, success, own := false })
  | .poll =>
      match s.batch, s.cq with
      | .executing todo nextWrId inflight, c :: cq =>
          if c.wrId ∉ inflight then some { s with cq }
          else if c.success then
            some { s with
              cq, batch := .executing todo nextWrId (inflight.filter (· ≠ c.wrId)) }
          else some { s with cq, batch := .replied false }
      | _, _ => none
  | .pollFails =>
      match s.batch with
      | .executing _ _ _ => some { s with batch := .replied false }
      | _ => none
  | .finish =>
      match s.batch with
      | .executing [] _ [] => some { s with batch := .replied true }
      | _ => none
  | .destroyQp =>
      match s.batch with
      | .executing _ _ _ => none
      | _ => some { s with outstanding := [], qpDown := true }

/-- The batch is at the worker and may still post READs. -/
def Busy : Prop :=
  match s.batch with
  | .queued _ | .executing _ _ _ => True
  | .notSubmitted | .replied _ => False

instance : Decidable s.Busy :=
  match h : s.batch with
  | .queued _ | .executing _ _ _ => .isTrue (by simp [Busy, h])
  | .notSubmitted | .replied _ => .isFalse (by simp [Busy, h])

/-- The ids the worker waits for. -/
def inflightIds : List ℕ :=
  match s.batch with
  | .executing _ _ inflight => inflight
  | _ => []

/-- A batch fails only with nothing of it outstanding, and no leftover completion is taken
for one of its READs. -/
def CleanEnd : SessionEvent → Prop
  | .postFails posted => s.qpDown ∨ s.outstanding = [] ∧ posted = 0
  | .pollFails => s.outstanding = []
  | .poll => ∀ c ∈ s.cq.head?, c.own ∨ c.success = false ∨ c.wrId ∉ s.inflightIds
  | _ => True

instance (e : SessionEvent) : Decidable (s.CleanEnd e) :=
  match e with
  | .postFails _ => inferInstanceAs (Decidable (_ ∨ _ ∧ _))
  | .pollFails => inferInstanceAs (Decidable (_ = _))
  | .poll => inferInstanceAs (Decidable (∀ c ∈ s.cq.head?, _ ∨ _ ∨ _))
  | .start | .invalidated | .postChain | .readCompletes _ _ | .staleCompletion _ _ | .finish
  | .destroyQp => .isTrue trivial

/-! ### Accounting for the READs of a batch -/

/-- Ids of READs of this batch that the worker has not heard of yet: outstanding, or
completed and not polled. -/
def openIds : List ℕ :=
  s.outstanding.map PostedRead.wrId ++ (s.cq.filter Completion.own).map Completion.wrId

variable {s s' : RcSession} {todo inflight : List ℕ} {e : SessionEvent} {c : Completion}
  {nextWrId : ℕ}

theorem outstanding_of_openIds (h : s.openIds = []) : s.outstanding = [] :=
  map_eq_nil_iff.mp (append_eq_nil_iff.mp h).1

theorem flushed_own : (flushed reads).filter Completion.own = flushed reads := by
  rw [filter_eq_self]
  intro c hc
  obtain ⟨r, -, rfl⟩ := mem_map.mp hc
  rfl

theorem flushed_ids : (flushed reads).map Completion.wrId = reads.map PostedRead.wrId := by
  rw [flushed, map_map]
  rfl

theorem openIds_post (s : RcSession) (reads : List PostedRead) :
    (s.post reads).openIds.Perm (s.openIds ++ reads.map PostedRead.wrId) := by
  unfold post
  split
  · rw [openIds, openIds, filter_append, flushed_own, map_append, flushed_ids,
      append_assoc]
  · rw [openIds, openIds, map_append, append_assoc, append_assoc]
    exact perm_append_comm.append_left _

theorem openIds_complete (s : RcSession) (c : Completion) :
    (s.complete c).openIds.Perm ((if c.own then [c.wrId] else []) ++ s.openIds) := by
  have hown : ([c].filter Completion.own).map Completion.wrId =
      if c.own then [c.wrId] else [] := by
    cases hc : c.own <;> simp [hc]
  unfold complete
  split
  · rw [openIds, filter_append, map_append, hown, ← append_assoc]
    exact perm_append_comm
  · rw [openIds, openIds, filter_append, ← singleton_append, filter_append,
      flushed_own, map_append, map_append, flushed_ids, hown, map_nil,
      nil_append]
    refine perm_append_comm.trans ?_
    rw [append_assoc]

theorem chain_ids (nextWrId : ℕ) (regions : List ℕ) :
    (chain nextWrId regions).map PostedRead.wrId =
      (range regions.length).map (nextWrId + ·) := by
  rw [chain, map_map, range_eq_range', ← zipIdx_map_snd, map_map]
  rfl

theorem chain_ids_nodup (nextWrId : ℕ) (regions : List ℕ) :
    ((chain nextWrId regions).map PostedRead.wrId).Nodup := by
  rw [chain_ids]
  exact nodup_range.map fun _ _ h => Nat.add_left_cancel h

theorem mem_chain_ids {nextWrId id : ℕ} {regions : List ℕ} :
    id ∈ (chain nextWrId regions).map PostedRead.wrId ↔
      nextWrId ≤ id ∧ id < nextWrId + regions.length := by
  rw [chain_ids, mem_map]
  constructor
  · rintro ⟨k, hk, rfl⟩
    rw [mem_range] at hk
    omega
  · rintro ⟨hle, hlt⟩
    exact ⟨id - nextWrId, mem_range.mpr (by omega), by omega⟩

/-- What holds of the batch, by its state. -/
def BatchInv (s : RcSession) : Prop :=
  match s.batch with
  | .notSubmitted | .queued _ => s.openIds = []
  | .executing _ nextWrId inflight =>
      s.openIds.Nodup ∧ (∀ id ∈ s.openIds, id ∈ inflight) ∧ ∀ id ∈ inflight, id < nextWrId
  | .replied _ => s.outstanding = []

structure Inv (s : RcSession) : Prop where
  down : s.qpDown → s.outstanding = []
  failed : ∀ c ∈ s.cq, c.success = false → s.qpDown
  batch : s.BatchInv

theorem inv_new : Inv new where
  down _ := rfl
  failed _ h := by cases h
  batch := rfl

theorem not_busy_iff : ¬ s.Busy ↔ s.batch = .notSubmitted ∨ ∃ ok, s.batch = .replied ok := by
  unfold Busy
  cases s.batch <;> simp

/-- A batch that is not at the worker has nothing outstanding. -/
theorem Inv.outstanding (h : Inv s) (hidle : ¬ s.Busy) : s.outstanding = [] := by
  have hbatch := h.batch
  rcases not_busy_iff.mp hidle with hb | ⟨ok, hb⟩ <;> rw [BatchInv, hb] at hbatch
  · exact outstanding_of_openIds hbatch
  · exact hbatch

@[simp] theorem complete_batch (c : Completion) : (s.complete c).batch = s.batch := by
  unfold complete
  split <;> rfl

theorem batch_of_step (h : s.step e = some s') (hidle : ¬ s.Busy) : s'.batch = s.batch := by
  cases e with
  | readCompletes i success =>
    obtain ⟨r, -, rfl⟩ := Option.map_eq_some_iff.mp h
    exact complete_batch _
  | staleCompletion wrId success =>
    cases h
    exact complete_batch _
  | destroyQp =>
    rw [step] at h
    split at h <;> cases h
    rfl
  | _ => rcases not_busy_iff.mp hidle with hb | ⟨ok, hb⟩ <;> simp [step, hb] at h

theorem inv_complete (hdown : s.qpDown → s.outstanding = [])
    (hfailed : ∀ c ∈ s.cq, c.success = false → s.qpDown) (hbatch : (s.complete c).BatchInv) :
    Inv (s.complete c) := by
  refine ⟨?_, ?_, hbatch⟩ <;> unfold complete <;> split
  · exact hdown
  · exact fun _ => rfl
  · next hc =>
    intro d hd hfail
    rcases mem_append.mp hd with hd | hd
    · exact hfailed d hd hfail
    · rw [mem_singleton.mp hd, hc] at hfail
      cases hfail
  · exact fun _ _ _ => rfl

theorem inv_post (h : Inv s) (reads : List PostedRead) {batch : BatchState}
    (hbatch : BatchInv { s.post reads with batch := batch }) :
    Inv { s.post reads with batch := batch } := by
  refine ⟨?_, ?_, hbatch⟩ <;> unfold post <;> split
  · next hdown => exact fun _ => h.down hdown
  · next hup => exact fun hdown => absurd hdown hup
  · next hdown => exact fun _ _ _ => hdown
  · exact h.failed

/-- Completions of this batch leave the open ids as they are, up to their order. -/
theorem BatchInv.of_perm (h : s.BatchInv) (hbatch : s'.batch = s.batch)
    (hids : s'.openIds.Perm s.openIds) (hout : s.outstanding = [] → s'.outstanding = []) :
    s'.BatchInv := by
  rcases hb : s.batch with - | ops | ⟨todo, nextWrId, inflight⟩ | ok <;>
    simp only [BatchInv, hbatch, hb] at h ⊢
  · rwa [h, perm_nil] at hids
  · rwa [h, perm_nil] at hids
  · exact ⟨hids.nodup_iff.mpr h.1, fun id hid => h.2.1 id (hids.mem_iff.mp hid), h.2.2⟩
  · exact hout h

/-- Posting a chain gives its READs fresh ids and puts them in flight. -/
theorem batchInv_postChain (h : s.BatchInv) (hb : s.batch = .executing todo nextWrId inflight)
    {n : ℕ} (hn : n ≤ todo.length) :
    BatchInv { s.post (chain nextWrId (todo.take n)) with
      batch := .executing (todo.drop n) (nextWrId + n)
        (inflight ++ (chain nextWrId (todo.take n)).map PostedRead.wrId) } := by
  rw [BatchInv, hb] at h
  obtain ⟨hnodup, hin, hlt⟩ := h
  set ids := (chain nextWrId (todo.take n)).map PostedRead.wrId with hids
  have hmem : ∀ id ∈ ids, nextWrId ≤ id ∧ id < nextWrId + n := by
    intro id hid
    have := mem_chain_ids.mp hid
    rwa [length_take, Nat.min_eq_left hn] at this
  have hperm : (s.post (chain nextWrId (todo.take n))).openIds.Perm (s.openIds ++ ids) :=
    openIds_post s _
  refine ⟨?_, ?_, ?_⟩
  · refine hperm.nodup_iff.mpr (nodup_append'.mpr ⟨hnodup, chain_ids_nodup _ _, ?_⟩)
    intro id hid hid'
    have := hlt id (hin id hid)
    have := (hmem id hid').1
    omega
  · intro id hid
    rcases mem_append.mp (hperm.mem_iff.mp hid) with hid | hid
    · exact mem_append_left _ (hin id hid)
    · exact mem_append_right _ hid
  · intro id hid
    rcases mem_append.mp hid with hid | hid
    · have := hlt id hid
      omega
    · exact (hmem id hid).2

/-- The worker hears of the completion at the head of the queue. -/
theorem batchInv_poll {cq : List Completion} (h : s.BatchInv)
    (hb : s.batch = .executing todo nextWrId inflight) (hcq : s.cq = c :: cq)
    (hown : c.own ∨ c.wrId ∉ inflight) :
    BatchInv { s with
      cq, batch := .executing todo nextWrId (inflight.filter (· ≠ c.wrId)) } := by
  rw [BatchInv, hb] at h
  obtain ⟨hnodup, hin, hlt⟩ := h
  set s₁ : RcSession := { s with
    cq, batch := .executing todo nextWrId (inflight.filter (· ≠ c.wrId)) } with hs₁
  -- the id at the head is open no more
  have hopen : s₁.openIds.Nodup ∧ c.wrId ∉ s₁.openIds ∧ ∀ id ∈ s₁.openIds, id ∈ s.openIds := by
    by_cases hc : c.own
    · have hperm : s.openIds.Perm (c.wrId :: s₁.openIds) := by
        rw [openIds, hcq, filter_cons_of_pos hc]
        exact perm_middle
      have := hperm.nodup_iff.mp hnodup
      rw [nodup_cons] at this
      exact ⟨this.2, this.1, fun id hid => hperm.mem_iff.mpr (mem_cons_of_mem _ hid)⟩
    · have heq : s.openIds = s₁.openIds := by
        rw [openIds, hcq, filter_cons_of_neg hc]
        rfl
      rw [← heq]
      exact ⟨hnodup, fun hid => (hown.resolve_left hc) (hin _ hid), fun _ hid => hid⟩
  refine ⟨hopen.1, ?_, ?_⟩
  · intro id hid
    refine mem_filter.mpr ⟨hin id (hopen.2.2 id hid), ?_⟩
    rw [decide_eq_true_eq]
    rintro rfl
    exact hopen.2.1 hid
  · intro id hid
    exact hlt id (mem_filter.mp hid).1

theorem inv_step (h : Inv s) (hclean : s.CleanEnd e) (hstep : s.step e = some s') : Inv s' := by
  cases e with
  | start =>
    rw [step] at hstep
    split at hstep <;> cases hstep
    next ops hb =>
    have hids : s.openIds = [] := by simpa [BatchInv, hb] using h.batch
    refine ⟨h.down, h.failed, ?_, ?_, ?_⟩
    · exact hids.symm ▸ nodup_nil
    · intro id hid
      have hid : id ∈ s.openIds := hid
      rw [hids] at hid
      cases hid
    · intro id hid
      cases hid
  | invalidated =>
    rw [step] at hstep
    split at hstep <;> cases hstep
    next ops hb =>
    have hids : s.openIds = [] := by simpa [BatchInv, hb] using h.batch
    exact ⟨h.down, h.failed, outstanding_of_openIds hids⟩
  | postChain =>
    rw [step] at hstep
    split at hstep <;> try cases hstep
    next todo nextWrId inflight hb =>
    split at hstep <;> cases hstep
    refine inv_post h _ (batchInv_postChain h.batch hb ?_)
    unfold chainLen
    omega
  | postFails posted =>
    rw [step] at hstep
    split at hstep <;> try cases hstep
    next todo nextWrId inflight hb =>
    split at hstep <;> cases hstep
    refine inv_post h _ ?_
    show (s.post _).outstanding = []
    unfold post
    split
    · next hdown => exact h.down hdown
    · next hup =>
      obtain ⟨hout, rfl⟩ := hclean.resolve_left hup
      simp [hout, chain]
  | readCompletes i success =>
    obtain ⟨r, hr, rfl⟩ := Option.map_eq_some_iff.mp hstep
    obtain ⟨hi, rfl⟩ := List.getElem?_eq_some_iff.mp hr
    refine inv_complete (s := { s with outstanding := s.outstanding.eraseIdx i }) ?_ h.failed
      (h.batch.of_perm (complete_batch _) ?_ ?_)
    · intro hdown
      rw [h.down hdown] at hi
      cases hi
    · refine (openIds_complete _ _).trans ?_
      rw [openIds, ← append_assoc]
      refine List.Perm.append_right _ ?_
      have := (getElem_cons_eraseIdx_perm hi).map PostedRead.wrId
      rwa [map_cons] at this
    · intro hout
      rw [hout] at hi
      cases hi
  | staleCompletion wrId success =>
    cases hstep
    refine inv_complete h.down h.failed
      (h.batch.of_perm (complete_batch _) (openIds_complete _ _) ?_)
    intro hout
    unfold complete
    split
    · exact hout
    · rfl
  | poll =>
    rw [step] at hstep
    split at hstep <;> try cases hstep
    next todo nextWrId inflight c cq hb hcq =>
    have hfailed : ∀ d ∈ cq, d.success = false → s.qpDown = true := fun d hd =>
      h.failed d (hcq ▸ mem_cons_of_mem c hd)
    have hpoll := fun hown => batchInv_poll h.batch hb hcq hown
    split at hstep
    · next hout =>
      -- not in flight: the completion is skipped
      cases hstep
      refine ⟨h.down, hfailed, ?_⟩
      have hkeep : inflight.filter (· ≠ c.wrId) = inflight := by
        rw [filter_eq_self]
        rintro id hid
        rw [decide_eq_true_eq]
        rintro rfl
        exact hout hid
      have := hpoll (.inr hout)
      rwa [hkeep, ← hb] at this
    · next hin =>
      push Not at hin
      split at hstep
      · next hok =>
        cases hstep
        refine ⟨h.down, hfailed, hpoll ?_⟩
        rcases hclean c (by rw [hcq]; rfl) with hown | hfail | hout
        · exact .inl hown
        · rw [hok] at hfail
          cases hfail
        · exact .inr (by rwa [inflightIds, hb] at hout)
      · next hfail =>
        -- after an error nothing is outstanding any more
        cases hstep
        have hdown := h.failed c (hcq ▸ mem_cons_self) (by simpa using hfail)
        exact ⟨h.down, hfailed, h.down hdown⟩
  | pollFails =>
    rw [step] at hstep
    split at hstep <;> cases hstep
    exact ⟨h.down, h.failed, hclean⟩
  | finish =>
    rw [step] at hstep
    split at hstep <;> cases hstep
    next nextWrId hb =>
    have hbatch := h.batch
    rw [BatchInv, hb] at hbatch
    have hids : s.openIds = [] :=
      eq_nil_iff_forall_not_mem.mpr fun id hid => by cases hbatch.2.1 id hid
    exact ⟨h.down, h.failed, outstanding_of_openIds hids⟩
  | destroyQp =>
    rw [step] at hstep
    split at hstep <;> cases hstep
    next hb =>
    refine ⟨fun _ => rfl, fun _ _ _ => rfl, ?_⟩
    have hbatch := h.batch
    rcases hs : s.batch with - | ops | ⟨todo, nextWrId, inflight⟩ | ok <;>
      simp only [BatchInv, hs] at hbatch ⊢
    · exact (append_eq_nil_iff.mp hbatch).2
    · exact (append_eq_nil_iff.mp hbatch).2
    · exact absurd hs (hb todo nextWrId inflight)

end RcSession

end PegaFlow
