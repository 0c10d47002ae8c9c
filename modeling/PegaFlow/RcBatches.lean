/-
PegaFlow/RcBatches.lean

Which completions the worker of an RDMA session credits to which batch
(`rc_backend/session.rs`).

The worker takes one batch after the other.  `execute_batch` posts the operations of its batch
in chains, under work request ids that start at 1 in every batch, keeps the lengths of those in
flight by id, and adds up the lengths of those that complete.  It returns early when an
operation is too long, when a post or a poll fails, and at a completion with an error; the work
requests posted by then stay with the NIC.
-/
import PegaFlow.KeyedSums
import PegaFlow.RcSession
import PegaFlow.Run

namespace PegaFlow

open List Option

/-! ### The worker -/

inductive TransferError where
  | invalidArgument (message : String)
  | backend (message : String)
deriving DecidableEq, Repr

/-- A posted work request.  The worker and the NIC see only the id; the number of the batch
and the operation's place in it are for the record. -/
structure WorkRequest where
  wrId : ℕ
  batch : ℕ
  idx : ℕ
deriving DecidableEq, Repr

/-- An entry of the completion queue. -/
structure WorkCompletion extends WorkRequest where
  status : ℕ
  opcode : ℕ
  vendorErr : ℕ
deriving DecidableEq, Repr

/-- `WorkCompletionStatus::Success` -/
def WorkCompletion.success (wc : WorkCompletion) : Bool := wc.status == 0

/-- The variables of `execute_batch`.  An operation is given by its length, as addresses and
keys go to the NIC as they are.  `inflight` has the lengths by work request id. -/
structure Batch where
  number : ℕ
  ops : List ℕ
  nextIdx : ℕ
  nextWrId : ℕ
  inflight : AList fun _ : ℕ => ℕ
  transferred : ℕ
  polling : Bool
deriving DecidableEq

structure Report where
  batch : ℕ
  ops : List ℕ
  result : Except TransferError ℕ
deriving DecidableEq

structure RcWorker where
  localQpn : ℕ
  /-- commands sent to the worker -/
  commands : List (List ℕ) := []
  /-- commands taken so far, which number the batches -/
  taken : ℕ := 0
  current : Option Batch := none
  stopped : Bool := false
  /-- posted work requests the NIC has not completed, in posting order -/
  outstanding : List WorkRequest := []
  /-- completions not yet polled -/
  sendCq : List WorkCompletion := []
  /-- for the record: the operations that have completed successfully -/
  completed : List (ℕ × ℕ) := []
  /-- what was sent to the receivers of the batches -/
  reports : List Report := []
deriving DecidableEq

/-! ### `execute_batch` -/

def usizeMax : ℕ := 2 ^ 64 - 1

def u32Max : ℕ := 2 ^ 32 - 1

variable (b : Batch)

namespace Batch

def start (number : ℕ) (ops : List ℕ) : Batch where
  number
  ops
  nextIdx := 0
  nextWrId := 1
  inflight := ∅
  transferred := 0
  polling := false

/-- The condition of the loop that posts. -/
def canPost : Bool := b.nextIdx < b.ops.length && b.inflight.entries.length < maxSendWr

/-- The operations of the next chain. -/
def chain : List ℕ :=
  let todo := b.ops.drop b.nextIdx
  todo.take (RcSession.chainLen todo b.inflight.keys)

/-- The work requests of the next chain, under the ids of the session. -/
def workRequests : List WorkRequest :=
  (RcSession.chain b.nextWrId b.chain).mapIdx fun i read =>
    { wrId := read.wrId, batch := b.number, idx := b.nextIdx + i }

/-- One operation has been posted. -/
def track (len : ℕ) : Batch :=
  { b with
    inflight := b.inflight.insert b.nextWrId len
    nextWrId := b.nextWrId + 1
    nextIdx := b.nextIdx + 1 }

/-- An operation in flight has completed. -/
def credit (wrId bytes : ℕ) : Batch :=
  { b with
    inflight := b.inflight.erase wrId
    transferred := min (b.transferred + bytes) usizeMax }

/-- The condition of the outer loop, negated. -/
def done : Bool := b.ops.length ≤ b.nextIdx && b.inflight.entries.isEmpty

end Batch

variable (s : RcWorker)

namespace RcWorker

def init (localQpn : ℕ) : RcWorker := { localQpn }

/-- `execute_batch` returns, and the worker replies. -/
def reply (b : Batch) (result : Except TransferError ℕ) : RcWorker :=
  { s with
    current := none
    reports := s.reports ++ [{ batch := b.number, ops := b.ops, result }] }

/-- The worker takes a command while the session is there. -/
def recv : Option RcWorker :=
  match s.current, s.commands with
  | none, ops :: commands =>
      if s.stopped then none
      else
        let b := Batch.start s.taken ops
        let s := { s with commands, taken := s.taken + 1 }
        some (if ops.isEmpty then s.reply b (.ok 0) else { s with current := some b })
  | _, _ => none

/-- The worker takes a command after the session has been dropped. -/
def invalidated (s : RcWorker) : Option RcWorker :=
  if s.stopped || s.current.isSome || s.commands.isEmpty then none
  else some
    { s with
      commands := []
      taken := s.taken + s.commands.length
      stopped := true
      reports := s.reports ++ s.commands.mapIdx fun i ops =>
        { batch := s.taken + i, ops
          result := .error (.backend "session invalidated before batch execution") } }

/-- `post_rdma_wr_chain`, posted successfully unless an operation is too long: then the chain
is dropped. -/
def post (b : Batch) : RcWorker :=
  if b.chain.any fun len => u32Max < len then
    s.reply b (.error (.invalidArgument "len exceeds RDMA SGE length limit"))
  else
    { s with
      current := some (b.chain.foldl Batch.track b)
      outstanding := s.outstanding ++ b.workRequests }

/-- The post fails; the NIC has taken the first `posted` work requests of the chain. -/
def postFails (b : Batch) (posted : ℕ) (error : String) : RcWorker :=
  { s with outstanding := s.outstanding ++ b.workRequests.take posted }.reply b
    (.error (.backend error))

/-- The worker sees a completion. -/
def poll (b : Batch) (wc : WorkCompletion) : RcWorker :=
  match b.inflight.lookup wc.wrId with
  | none => s
  | some bytes =>
      if wc.success then { s with current := some (b.credit wc.wrId bytes) }
      else s.reply b (.error (.backend
        (s!"send completion failed: local_qpn={s.localQpn}, status={wc.status}, " ++
          s!"opcode={wc.opcode}, vendor_err={wc.vendorErr}")))

/-- The poller has no more completions. -/
def endPoll (b : Batch) : RcWorker :=
  if b.done then s.reply b (.ok b.transferred)
  else { s with current := some { b with polling := false } }

end RcWorker

inductive RcAction where
  | transferBatchAsync (ops : List ℕ)
  | recv
  | invalidated
  | post
  | postFails (posted : ℕ) (error : String)
  | startPoll
  | poll
  | endPoll
  | pollFails (error : String)
  /-- the NIC completes the work request posted first -/
  | complete (status opcode vendorErr : ℕ)
deriving DecidableEq, Repr

namespace RcWorker

/-- The steps of `execute_batch`. -/
def stepBatch (b : Batch) : RcAction → Option RcWorker
  | .post => if !b.polling && b.canPost then some (s.post b) else none
  | .postFails posted error =>
      if !b.polling && b.canPost && !b.chain.any fun len => u32Max < len then
        some (s.postFails b posted error)
      else none
  | .startPoll =>
      if !b.polling && !b.canPost then some { s with current := some { b with polling := true } }
      else none
  | .poll =>
      match b.polling, s.sendCq with
      | true, wc :: sendCq => some ({ s with sendCq }.poll b wc)
      | _, _ => none
  | .endPoll => if b.polling then some (s.endPoll b) else none
  | .pollFails error =>
      if b.polling then
        some (s.reply b
          (.error (.backend (s!"poll send CQ failed: local_qpn={s.localQpn}, {error}"))))
      else none
  | _ => none

def step : RcAction → Option RcWorker
  | .transferBatchAsync ops =>
      some (if s.stopped then s else { s with commands := s.commands ++ [ops] })
  | .recv => s.recv
  | .invalidated => s.invalidated
  | .complete status opcode vendorErr =>
      match s.outstanding with
      | [] => none
      | wr :: outstanding =>
          let wc : WorkCompletion := { wr with status, opcode, vendorErr }
          some
            { s with
              outstanding
              sendCq := s.sendCq ++ [wc]
              completed := if wc.success then s.completed ++ [(wr.batch, wr.idx)] else s.completed }
  | a => s.current.bind fun b => s.stepBatch b a

/-! ### The property and the condition -/

/-- **Batch credit**: a batch that is reported to have transferred `n` bytes has completed all
its operations successfully, and `n` is their total length. -/
def Credited : Prop :=
  ∀ r ∈ s.reports, ∀ n, r.result = .ok n →
    (∀ i < r.ops.length, (r.batch, i) ∈ s.completed) ∧ n = r.ops.sum

/-- **Completions are the batch's own**: the next completion is of the batch that polls it, or
it failed, or its id is not in flight.  And the worker takes only batches whose total length
is a `usize`. -/
def OwnCompletions : RcAction → Prop
  | .poll => ∀ b ∈ s.current, ∀ wc ∈ s.sendCq.head?,
      wc.batch = b.number ∨ wc.success = false ∨ wc.wrId ∉ b.inflight
  | .recv => ∀ ops ∈ s.commands.head?, ops.sum ≤ usizeMax
  | _ => True

instance (a : RcAction) : Decidable (s.OwnCompletions a) :=
  match a with
  | .poll => inferInstanceAs (Decidable (∀ b ∈ s.current, ∀ wc ∈ s.sendCq.head?, _))
  | .recv => inferInstanceAs (Decidable (∀ ops ∈ s.commands.head?, _))
  | .transferBatchAsync _ | .invalidated | .post | .postFails .. | .startPoll | .endPoll
  | .pollFails _ | .complete .. => inferInstanceAs (Decidable True)

end RcWorker

/-! ### Accounts of one batch -/

namespace Batch

/-- The bytes in flight. -/
def inflightBytes : ℕ := (b.inflight.entries.map Sigma.snd).sum

/-- The accounts of a batch: every operation posted so far is in flight or has completed, and
the bytes transferred, in flight and not yet posted make up the batch. -/
structure Accounted (completed : List (ℕ × ℕ)) : Prop where
  ids : b.nextWrId = b.nextIdx + 1
  fresh : ∀ id ∈ b.inflight, id < b.nextWrId
  covered : ∀ i < b.nextIdx, i + 1 ∈ b.inflight ∨ (b.number, i) ∈ completed
  total : b.transferred + b.inflightBytes + (b.ops.drop b.nextIdx).sum = b.ops.sum
  usize : b.ops.sum ≤ usizeMax

variable {b : Batch} {completed : List (ℕ × ℕ)}

theorem accounted_start (number : ℕ) {ops : List ℕ} (h : ops.sum ≤ usizeMax) :
    (start number ops).Accounted completed where
  ids := rfl
  fresh id hid := absurd hid (AList.notMem_empty id)
  covered i hi := absurd hi (Nat.not_lt_zero i)
  total := by simp [start, inflightBytes]
  usize := h

section

variable (h : b.Accounted completed)
include h

theorem Accounted.mono {completed' : List (ℕ × ℕ)} (hsub : completed ⊆ completed') :
    b.Accounted completed' :=
  { h with covered := fun i hi => (h.covered i hi).imp_right (hsub ·) }

theorem Accounted.setPolling (polling : Bool) : { b with polling }.Accounted completed :=
  { h with }

theorem Accounted.track {len : ℕ} {rest : List ℕ} (hops : b.ops.drop b.nextIdx = len :: rest) :
    (b.track len).Accounted completed where
  ids := by simp only [Batch.track, h.ids]
  fresh id hid := by
    simp only [Batch.track, AList.mem_insert] at hid ⊢
    rcases hid with rfl | hid
    · omega
    · have := h.fresh id hid
      omega
  covered i hi := by
    simp only [Batch.track, AList.mem_insert] at hi ⊢
    by_cases hlt : i < b.nextIdx
    · exact (h.covered i hlt).imp_left .inr
    · exact .inl (.inl (by rw [h.ids]; omega))
  total := by
    have hnew : b.nextWrId ∉ b.inflight := fun hid => lt_irrefl _ (h.fresh _ hid)
    have hdrop : b.ops.drop (b.nextIdx + 1) = rest := by
      rw [← drop_drop, hops, drop_one, tail_cons]
    have htotal := h.total
    rw [hops, sum_cons] at htotal
    simp only [Batch.track, inflightBytes, AList.entries_insert_of_notMem hnew, map_cons,
      sum_cons, hdrop]
    rw [inflightBytes] at htotal
    omega
  usize := h.usize

/-- A chain that is posted is the next part of the batch. -/
theorem Accounted.foldl_track {l : List ℕ} (hl : l <+: b.ops.drop b.nextIdx) :
    (l.foldl Batch.track b).Accounted completed := by
  induction l generalizing b with
  | nil => exact h
  | cons len l ih =>
    obtain ⟨rest, hrest⟩ := hl
    rw [cons_append] at hrest
    refine ih (h.track hrest.symm) ⟨rest, ?_⟩
    calc l ++ rest = (b.ops.drop b.nextIdx).tail := by rw [← hrest, tail_cons]
      _ = b.ops.drop (b.nextIdx + 1) := by rw [tail_drop]

end

theorem chain_prefix_drop (b : Batch) : b.chain <+: b.ops.drop b.nextIdx := take_prefix _ _

/-- A completion of the batch's own is credited. -/
theorem Accounted.credit (h : b.Accounted completed) {wrId bytes : ℕ}
    (hlookup : b.inflight.lookup wrId = some bytes)
    (hown : ∀ i, i + 1 = wrId → (b.number, i) ∈ completed) :
    (b.credit wrId bytes).Accounted completed where
  ids := h.ids
  fresh id hid := h.fresh id (AList.mem_erase.mp hid).2
  covered i hi := by
    rcases h.covered i hi with hin | hdone
    · by_cases heq : i + 1 = wrId
      · exact .inr (hown i heq)
      · exact .inl (AList.mem_erase.mpr ⟨heq, hin⟩)
    · exact .inr hdone
  total := by
    have hbytes : b.inflightBytes = bytes + (b.credit wrId bytes).inflightBytes :=
      keyedSum_of_lookup id hlookup
    have htotal := h.total
    have husize := h.usize
    rw [hbytes] at htotal
    -- the sum does not saturate, as the whole batch fits
    have hsat : (b.credit wrId bytes).transferred = b.transferred + bytes := by
      rw [Batch.credit, Nat.min_eq_left]
      omega
    rw [hsat, Nat.add_assoc b.transferred]
    exact htotal
  usize := h.usize

theorem Accounted.done (h : b.Accounted completed) (hdone : b.done) :
    (∀ i < b.ops.length, (b.number, i) ∈ completed) ∧ b.transferred = b.ops.sum := by
  obtain ⟨hposted, hnone⟩ : b.ops.length ≤ b.nextIdx ∧ b.inflight.entries = [] := by
    simpa [Batch.done] using hdone
  constructor
  · intro i hi
    refine (h.covered i (lt_of_lt_of_le hi hposted)).resolve_left ?_
    simp [AList.mem_keys, AList.keys, hnone]
  · have htotal := h.total
    rw [drop_eq_nil_of_le hposted, inflightBytes, hnone] at htotal
    simpa using htotal

end Batch

/-! ### Runs of the worker -/

namespace RcWorker

/-- Ids name the operation within its batch; completions that are queued are recorded; the
batch under way has its accounts in order. -/
structure Inv : Prop where
  posted : ∀ wr ∈ s.outstanding, wr.wrId = wr.idx + 1
  polled : ∀ wc ∈ s.sendCq, wc.wrId = wc.idx + 1 ∧
    (wc.success → (wc.batch, wc.idx) ∈ s.completed)
  current : ∀ b ∈ s.current, b.Accounted s.completed
  credited : s.Credited

variable {s s' : RcWorker} {b : Batch}

theorem inv_init (localQpn : ℕ) : (init localQpn).Inv where
  posted := by simp [init]
  polled := by simp [init]
  current := by simp [init]
  credited := by simp [init, Credited]

section

variable (h : s.Inv) {a : RcAction}
include h

theorem Inv.setCurrent (hb : b.Accounted s.completed) : { s with current := some b }.Inv :=
  { h with current := by rintro _ ⟨⟩; exact hb }

theorem Inv.reply {result : Except TransferError ℕ} (hresult : ∀ n, result = .ok n →
      (∀ i < b.ops.length, (b.number, i) ∈ s.completed) ∧ n = b.ops.sum) :
    (s.reply b result).Inv where
  posted := h.posted
  polled := h.polled
  current := by rintro _ ⟨⟩
  credited := by
    intro r hr n hn
    rcases mem_append.mp hr with hr | hr
    · exact h.credited r hr n hn
    · cases mem_singleton.mp hr
      exact hresult n hn

theorem Inv.replyError {error : TransferError} : (s.reply b (.error error)).Inv :=
  h.reply (by rintro _ ⟨⟩)

section

variable (hb : b ∈ s.current)
include hb

/-- More work requests of the current batch are posted. -/
theorem Inv.outstanding {wrs : List WorkRequest} (hwrs : wrs ⊆ b.workRequests) :
    { s with outstanding := s.outstanding ++ wrs }.Inv :=
  { h with
    posted := by
      intro wr hwr
      rcases mem_append.mp hwr with hwr | hwr
      · exact h.posted wr hwr
      · obtain ⟨i, hi, rfl⟩ := mem_mapIdx.mp (hwrs hwr)
        have hids := (h.current b hb).ids
        simp only [RcSession.chain, getElem_map, getElem_zipIdx]
        omega }

theorem Inv.post : (s.post b).Inv := by
  unfold RcWorker.post
  split
  · exact h.replyError
  · exact (h.outstanding hb (List.Subset.refl _)).setCurrent
      ((h.current b hb).foldl_track b.chain_prefix_drop)

theorem Inv.postFails (posted : ℕ) (error : String) : (s.postFails b posted error).Inv :=
  (h.outstanding hb (take_subset _ _)).replyError

theorem Inv.endPoll : (s.endPoll b).Inv := by
  unfold RcWorker.endPoll
  split
  · next hdone =>
    obtain ⟨hall, htotal⟩ := (h.current b hb).done hdone
    refine h.reply ?_
    rintro n ⟨⟩
    exact ⟨hall, htotal⟩
  · exact h.setCurrent ((h.current b hb).setPolling false)

/-- A success that is credited is a success of the batch itself. -/
theorem Inv.poll {wc : WorkCompletion} {sendCq : List WorkCompletion}
    (hcq : s.sendCq = wc :: sendCq)
    (hown : wc.batch = b.number ∨ wc.success = false ∨ wc.wrId ∉ b.inflight) :
    ({ s with sendCq }.poll b wc).Inv := by
  have hwc := h.polled wc (hcq ▸ mem_cons_self)
  have hrest : { s with sendCq }.Inv :=
    { h with polled := fun c hc => h.polled c (hcq ▸ mem_cons_of_mem wc hc) }
  unfold RcWorker.poll
  split
  · exact hrest
  · next bytes hlookup =>
    split
    · next hsuccess =>
      have hin : wc.wrId ∈ b.inflight := AList.lookup_isSome.mp (by rw [hlookup]; rfl)
      have hbatch : wc.batch = b.number :=
        hown.resolve_right (by rintro (hfail | hnot) <;> simp_all)
      refine hrest.setCurrent ((h.current b hb).credit hlookup ?_)
      intro i hi
      have hidx : i = wc.idx := by have := hwc.1; omega
      rw [hidx, ← hbatch]
      exact hwc.2 hsuccess
    · exact hrest.replyError

theorem Inv.stepBatch (hC : s.OwnCompletions a) (hstep : s.stepBatch b a = some s') : s'.Inv := by
  cases a with
  | post =>
    obtain ⟨-, ⟨⟩⟩ := ite_none_right_eq_some.mp hstep
    exact h.post hb
  | postFails posted error =>
    obtain ⟨-, ⟨⟩⟩ := ite_none_right_eq_some.mp hstep
    exact h.postFails hb posted error
  | startPoll =>
    obtain ⟨-, ⟨⟩⟩ := ite_none_right_eq_some.mp hstep
    exact h.setCurrent ((h.current b hb).setPolling true)
  | poll =>
    rw [RcWorker.stepBatch] at hstep
    split at hstep
    · next wc sendCq _ hcq =>
      cases hstep
      exact h.poll hb hcq (hC b hb wc (by rw [hcq]; rfl))
    · cases hstep
  | endPoll =>
    obtain ⟨-, ⟨⟩⟩ := ite_none_right_eq_some.mp hstep
    exact h.endPoll hb
  | pollFails error =>
    obtain ⟨-, ⟨⟩⟩ := ite_none_right_eq_some.mp hstep
    exact h.replyError
  | transferBatchAsync _ | recv | invalidated | complete _ _ _ => cases hstep

end

theorem Inv.recv (hC : s.OwnCompletions .recv) (hstep : s.recv = some s') : s'.Inv := by
  rw [RcWorker.recv] at hstep
  split at hstep
  · next ops commands _ hcommands =>
    obtain ⟨-, hstep⟩ := ite_none_left_eq_some.mp hstep
    cases hstep
    have hrest : { s with commands, taken := s.taken + 1 }.Inv := { h with }
    split
    · next hempty =>
      rw [isEmpty_iff.mp hempty]
      refine hrest.reply ?_
      rintro n ⟨⟩
      exact ⟨fun i hi => absurd hi (Nat.not_lt_zero i), rfl⟩
    · exact hrest.setCurrent (Batch.accounted_start _ (hC ops (by rw [hcommands]; rfl)))
  · cases hstep

theorem Inv.invalidated (hstep : s.invalidated = some s') : s'.Inv := by
  obtain ⟨-, hstep⟩ := ite_none_left_eq_some.mp hstep
  cases hstep
  refine { h with credited := ?_ }
  intro r hr n hn
  rcases mem_append.mp hr with hr | hr
  · exact h.credited r hr n hn
  · obtain ⟨i, hi, rfl⟩ := mem_mapIdx.mp hr
    cases hn

/-- The NIC only adds to what is completed. -/
theorem Inv.complete {status opcode vendorErr : ℕ}
    (hstep : s.step (.complete status opcode vendorErr) = some s') : s'.Inv := by
  rw [step] at hstep
  split at hstep
  · cases hstep
  · next wr outstanding hout =>
    cases hstep
    have hsub : ∀ e ∈ s.completed, e ∈ if
        ({ wr with status, opcode, vendorErr } : WorkCompletion).success then
        s.completed ++ [(wr.batch, wr.idx)] else s.completed := by
      intro e he
      split
      · exact mem_append_left _ he
      · exact he
    constructor
    · exact fun w hw => h.posted w (hout ▸ mem_cons_of_mem wr hw)
    · intro wc hwc
      rcases mem_append.mp hwc with hwc | hwc
      · exact ⟨(h.polled wc hwc).1, fun hs => hsub _ ((h.polled wc hwc).2 hs)⟩
      · cases mem_singleton.mp hwc
        refine ⟨h.posted wr (hout ▸ mem_cons_self), fun hs => ?_⟩
        rw [if_pos hs]
        exact mem_append_right _ (mem_singleton_self _)
    · exact fun b hb => (h.current b hb).mono hsub
    · intro r hr n hn
      obtain ⟨hall, hsum⟩ := h.credited r hr n hn
      exact ⟨fun i hi => hsub _ (hall i hi), hsum⟩

theorem inv_step (hC : s.OwnCompletions a) (hstep : s.step a = some s') : s'.Inv := by
  cases a with
  | transferBatchAsync ops =>
    cases hstep
    split
    · exact h
    · exact { h with }
  | recv => exact h.recv hC hstep
  | invalidated => exact h.invalidated hstep
  | complete status opcode vendorErr => exact h.complete hstep
  | post | postFails _ _ | startPoll | poll | endPoll | pollFails _ =>
    obtain ⟨b, hb, hstep⟩ := bind_eq_some_iff.mp hstep
    exact h.stepBatch hb hC hstep

end

/-- **Batch credit.**  In every run of the worker and the NIC in which no success left over from
an earlier batch has the id of an operation in flight, a batch that returns `Ok(n)` has
completed all its operations successfully, and `n` is their total length. -/
theorem credited_of_ownCompletions (localQpn : ℕ) (as : List RcAction)
    (h : Along step OwnCompletions (init localQpn) as) : Always step Credited (init localQpn) as :=
  (always_of_along (fun _ _ _ hinv hC hstep => inv_step hinv hC hstep) (inv_init localQpn) h).mono
    fun _ hinv => hinv.credited

/-- A batch of two operations is posted as one chain and completes. -/
def twoOps : List RcAction :=
  [.transferBatchAsync [3, 4], .recv, .post, .startPoll, .complete 0 0 0, .complete 0 0 0, .poll,
    .poll, .endPoll]

theorem credited_twoOps :
    Always step Credited (init 17) twoOps ∧
      (exec step (init 17) twoOps).map reports =
        some [{ batch := 0, ops := [3, 4], result := .ok 7 }] :=
  ⟨credited_of_ownCompletions 17 twoOps (by decide +kernel), by decide +kernel⟩

/-- The last of five operations is too long, so that the batch fails with four work requests
posted.  The next batch posts its only operation, under id 1 again, and sees the completion of
the first work request.  Its own work request then fails. -/
def afterRejected : List RcAction :=
  [.transferBatchAsync [1, 1, 1, 1, 2 ^ 32], .recv, .post, .post,
    .transferBatchAsync [7], .recv, .post, .startPoll, .complete 0 0 0, .poll, .endPoll,
    .complete 0 0 0, .complete 0 0 0, .complete 0 0 0, .complete 12 0 0]

/-- The second batch is reported to have transferred 7 bytes, and its operation failed. -/
theorem not_credited_leftover : ¬ Always step Credited (init 17) afterRejected := by
  refine not_always (fun s => ∀ r ∈ s.reports,
    r = { batch := 1, ops := [7], result := .ok 7 } → (1, 0) ∈ s.completed) ?_ (by decide +kernel)
  rintro s h _ hr rfl
  exact (h _ hr 7 rfl).1 0 (by decide)

end RcWorker

end PegaFlow
