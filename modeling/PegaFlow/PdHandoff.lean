/-
PegaFlow/PdHandoff.lean

Prefill side and decode worker together: what a reported success is worth.

The decode worker at hand waits for its requests, each under an imm id.  A prefill request
carries that id as its handshake.  The prefill scheduler decides what becomes of the
request (pushed, preempted, finished, aborted), and each of its ranks sends what it has to
send on its own: Done when it has pushed everything, the fail or the abort IMM when it
releases the request.  IMMs arrive in any order.
-/
import PegaFlow.DecodeWait
import PegaFlow.PrefillRelease

namespace PegaFlow

open List Function Option

/-! ### The composition -/

/-- The two notices as IMMs. -/
def Notice.immKind : Notice → ImmKind
  | .abort => .abort
  | .fail => .fail

/-- The decode worker, the prefill scheduler with its ranks, and the IMMs on their way.
A handshake is known by its imm id. -/
structure PdPair where
  decode : DecodeWorker ReqId := {}
  scheduler : PrefillScheduler ImmId := .new
  /-- metadata on its way to each rank -/
  queue : ℕ → List (PdConnectorMetadata ImmId) := fun _ => []
  /-- metadata each rank is working off -/
  metadata : ℕ → PdConnectorMetadata ImmId :=
    fun _ => ⟨fun _ => none, fun _ => none, fun _ => false⟩
  /-- the handshakes a rank has open for a request -/
  opened : ℕ → ReqId → List ImmId := fun _ _ => []
  network : List (ImmKind × ImmId) := []

/-- What can happen; a rank is given by its number. -/
inductive PdAction where
  | decode (a : DecodeAction ReqId)
  /-- the `k`-th IMM on its way arrives -/
  | deliver (k : ℕ)
  | updateStateAfterAlloc (l : ReqId) (blocks : BlockIds)
  | requestFinished (l : ReqId) (aborted : Bool) (blocks : BlockIds)
  | updateConnectorOutput (l : ReqId)
  | buildConnectorMeta (cached : List (ReqId × BlockIds)) (preempted : ReqId → Bool)
  | startLoadKv (rank : ℕ)
  | processPush (rank : ℕ) (l : ReqId)
  /-- a release; `sent` are the handshakes whose notice could be sent -/
  | processPreempted (rank : ℕ) (l : ReqId) (sent : ImmId → Bool)
  | processRelease (rank : ℕ) (l : ReqId) (sent : ImmId → Bool)
  | pushDone (rank : ℕ) (l : ReqId) (immId : ImmId)

/-- What the composition is built for: the parameters of each prefill request, the
handshakes among them that a rank pushes to, and the expected IMM count. -/
structure PdConfig where
  params : ReqId → Option (ProducerKvParams ImmId)
  plan : ℕ → List ImmId → List ImmId
  expected : ℕ
  plan_subset : ∀ rank handshakes, plan rank handshakes ⊆ handshakes

namespace PdPair

/-- A rank releases `l`: the notice goes to the handshakes it has open, and they are
closed. -/
def release (s : PdPair) (rank : ℕ) (l : ReqId) (reason : ReleaseReason) (sent : ImmId → Bool) :
    PdPair :=
  { s with
    opened := update s.opened rank (update (s.opened rank) l [])
    network := match reason.notice with
      | none => s.network
      | some notice => s.network ++
          (((s.opened rank l).filter sent).map fun i => (notice.immKind, i)) }

/-- One step of the composition. -/
def step (cfg : PdConfig) (s : PdPair) : PdAction → Option PdPair
  | .decode a =>
      match a with
      -- IMMs come from the network only
      | .imm _ _ => none
      | a => (s.decode.step cfg.expected a).map fun d => { s with decode := d }
  | .deliver k =>
      (s.network[k]?).bind fun m =>
        (s.decode.step cfg.expected (.imm m.1 m.2)).map fun d =>
          { s with decode := d, network := s.network.eraseIdx k }
  | .updateStateAfterAlloc l blocks =>
      some { s with scheduler := s.scheduler.updateStateAfterAlloc l (cfg.params l) blocks }
  | .requestFinished l aborted blocks =>
      some { s with
        scheduler := (s.scheduler.requestFinished l (cfg.params l) aborted blocks).2 }
  | .updateConnectorOutput l => some { s with scheduler := s.scheduler.updateConnectorOutput l }
  | .buildConnectorMeta cached preempted =>
      some { s with
        scheduler := (s.scheduler.buildConnectorMeta cached preempted).2
        queue := fun rank => s.queue rank ++ [(s.scheduler.buildConnectorMeta cached preempted).1] }
  | .startLoadKv rank =>
      match s.queue rank with
      | [] => none
      | m :: queue => some { s with
          queue := update s.queue rank queue
          metadata := update s.metadata rank m }
  | .processPush rank l =>
      ((s.metadata rank).reqsToPush l).map fun pushReq =>
        { s with
          opened := update s.opened rank
            (update (s.opened rank) l (cfg.plan rank pushReq.handshakes)) }
  | .processPreempted rank l sent =>
      if (s.metadata rank).preemptedReqIds l then
        some (s.release rank l .producerPreempted sent)
      else none
  | .processRelease rank l sent =>
      ((s.metadata rank).reqsToRelease l).map fun reason => s.release rank l reason sent
  | .pushDone rank l i =>
      if i ∈ s.opened rank l then some { s with network := s.network ++ [(.done, i)] } else none

/-! ### The property and the condition -/

variable (cfg : PdConfig) (s : PdPair)

/-- The handshakes of a prefill request. -/
def handshakes (cfg : PdConfig) (l : ReqId) : List ImmId :=
  ((cfg.params l).map (·.handshakes)).getD []

/-- The decode side has released every wait that the prefill request is for. -/
def Answered (l : ReqId) : Prop :=
  ∀ i ∈ handshakes cfg l, s.decode.released i

/-- A prefill request whose aborts are answered is aborted only after the decode side has
released it, and the decode worker registers its waits afresh. -/
def AbortsAnswered : PdAction → Prop
  | .decode a => s.decode.FreshWait a
  | .requestFinished l aborted _ =>
      aborted → ∀ producer ∈ cfg.params l, producer.consumerAbortReturnsAck →
        s.Answered cfg l
  | _ => True

instance (l : ReqId) : Decidable (s.Answered cfg l) :=
  inferInstanceAs (Decidable (∀ i ∈ handshakes cfg l, _))

instance (a : PdAction) : Decidable (s.AbortsAnswered cfg a) :=
  match a with
  | .decode a => inferInstanceAs (Decidable (s.decode.FreshWait a))
  | .requestFinished l aborted _ =>
      inferInstanceAs (Decidable (aborted → ∀ producer ∈ cfg.params l, _ → s.Answered cfg l))
  | .deliver _ | .updateStateAfterAlloc .. | .updateConnectorOutput _ | .buildConnectorMeta ..
  | .startLoadKv _ | .processPush .. | .processPreempted .. | .processRelease ..
  | .pushDone .. => .isTrue trivial

/-! ### The scheduler's books -/

/-- Every entry of a book meets `P`. -/
def Book {α : Type*} (P : ReqId → α → Prop) (book : ReqId → Option α) : Prop :=
  ∀ l a, book l = some a → P l a

/-- A push addresses handshakes of its request. -/
def Addressed (l : ReqId) (pushReq : PushReqMeta ImmId) : Prop :=
  pushReq.handshakes ⊆ handshakes cfg l

variable (acked : ReqId → Prop)

/-- A release answers an abort only for the requests in `acked`. -/
def Acked (l : ReqId) (reason : ReleaseReason) : Prop :=
  reason = .consumerAbort → acked l

structure SchedulerOk (s : PrefillScheduler ImmId) : Prop where
  pushes : Book (Addressed cfg) s.reqsToPush
  active : Book (Addressed cfg) s.activePushes
  releases : Book (Acked acked) s.reqsToRelease

structure MetadataOk (m : PdConnectorMetadata ImmId) : Prop where
  pushes : Book (Addressed cfg) m.reqsToPush
  releases : Book (Acked acked) m.reqsToRelease

theorem Book.update {α : Type*} {P : ReqId → α → Prop} {book : ReqId → Option α} {l : ReqId}
    {entry : Option α} (h : Book P book) (hentry : ∀ a, entry = some a → P l a) :
    Book P (update book l entry) := by
  intro l' a ha
  by_cases heq : l' = l
  · subst heq
    exact hentry a (by simpa using ha)
  · exact h l' a (by simpa [heq] using ha)

theorem Book.none {α : Type*} {P : ReqId → α → Prop} : Book P fun _ => none := by
  intro l a ha
  cases ha

variable {cfg : PdConfig} {acked acked' : ReqId → Prop} {sched : PrefillScheduler ImmId}
  {l : ReqId} {blocks : BlockIds}

theorem Book.mono {releases : ReqId → Option ReleaseReason} (h : Book (Acked acked) releases)
    (hle : ∀ l, acked l → acked' l) : Book (Acked acked') releases :=
  fun l reason hl heq => hle l (h l reason hl heq)

section

variable (h : SchedulerOk cfg acked sched) {cached : List (ReqId × BlockIds)}
include h

theorem SchedulerOk.updateStateAfterAlloc :
    SchedulerOk cfg acked (sched.updateStateAfterAlloc l (cfg.params l) blocks) := by
  unfold PrefillScheduler.updateStateAfterAlloc
  split
  · exact h
  case h_2 producer hp =>
    refine ⟨h.pushes.update ?_, h.active.update ?_, h.releases⟩ <;>
    · rintro a ha
      cases ha
      simp [Addressed, handshakes, hp]

theorem SchedulerOk.updateConnectorOutput :
    SchedulerOk cfg acked (sched.updateConnectorOutput l) := by
  refine ⟨h.pushes, h.active.update (by simp), h.releases.update ?_⟩
  rintro a ha
  cases ha
  simp [Acked]

theorem SchedulerOk.requestFinished {aborted : Bool}
    (hack : aborted → ∀ producer ∈ cfg.params l, producer.consumerAbortReturnsAck → acked l) :
    SchedulerOk cfg acked (sched.requestFinished l (cfg.params l) aborted blocks).2 := by
  unfold PrefillScheduler.requestFinished
  split
  · exact h
  case h_2 producer hp =>
    split
    case isTrue hab =>
      refine ⟨h.pushes, h.active.update (by simp), h.releases.update ?_⟩
      rintro a ha heq
      cases ha
      -- the reason is the consumer's abort exactly if aborts are answered
      split at heq
      case isTrue hret => exact hack hab producer hp hret
      case isFalse => cases heq
    case isFalse =>
      split
      · -- a request that keeps its blocks is active with what it had, or with no handshake
        refine { h with active := h.active.update ?_ }
        rintro a ha
        cases ha
        rcases hact : sched.activePushes l with _ | pushReq
        · simp [Addressed]
        · exact h.active l pushReq hact
      · refine ⟨h.pushes, h.active.update (by simp), h.releases.update ?_⟩
        rintro a ha
        cases ha
        simp [Acked]

theorem SchedulerOk.addCachedProducerChunk :
    SchedulerOk cfg acked (sched.addCachedProducerChunk l blocks) := by
  unfold PrefillScheduler.addCachedProducerChunk
  split
  · exact h
  · split
    · exact h
    case h_2 pushReq hact =>
      split
      · refine { h with pushes := h.pushes.update ?_ }
        rintro a ha
        cases ha
        exact h.active l pushReq hact
      · exact h

theorem SchedulerOk.addCached :
    SchedulerOk cfg acked
      (cached.foldl (fun s c => s.addCachedProducerChunk c.1 c.2) sched) := by
  induction cached generalizing sched with
  | nil => exact h
  | cons c cached ih => exact ih h.addCachedProducerChunk

theorem SchedulerOk.buildConnectorMeta {preempted : ReqId → Bool} :
    MetadataOk cfg acked (sched.buildConnectorMeta cached preempted).1 ∧
      SchedulerOk cfg acked (sched.buildConnectorMeta cached preempted).2 := by
  have hc : SchedulerOk cfg acked
      (cached.foldl (fun s c => s.addCachedProducerChunk c.1 c.2) sched) := h.addCached
  refine ⟨⟨?_, ?_⟩, ⟨Book.none, ?_, Book.none⟩⟩
  · intro l a ha
    simp only [PrefillScheduler.buildConnectorMeta] at ha
    split at ha
    · cases ha
    · exact hc.pushes l a ha
  · intro l a ha heq
    obtain ⟨reason, hreason, rfl⟩ := map_eq_some_iff.mp ha
    split at heq
    · cases heq
    · exact hc.releases l reason hreason heq
  · intro l a ha
    simp only [PrefillScheduler.buildConnectorMeta] at ha
    split at ha
    · cases ha
    · exact hc.active l a ha

end

/-! ### The invariant -/

/-- What a wait result means for a sound success. -/
def verdict (expected : ℕ) (d : DecodeWorker ReqId) : DecodeWorker.Verdict where
  won i := d.released i ∨ expected ≤ (d.counts i).done
  lost _ := True
  aborted i := d.released i
  won_of_aborted _ h := .inl h

structure Inv (cfg : PdConfig) (s : PdPair) : Prop where
  decode : s.decode.Inv (verdict cfg.expected s.decode)
  /-- an abort IMM that has been counted, or is on its way, answers a release -/
  aborts : ∀ i, 1 ≤ (s.decode.counts i).abort → s.decode.released i
  network : ∀ i, (.abort, i) ∈ s.network → s.decode.released i
  scheduler : SchedulerOk cfg (s.Answered cfg) s.scheduler
  queue : ∀ rank, ∀ m ∈ s.queue rank, MetadataOk cfg (s.Answered cfg) m
  metadata : ∀ rank, MetadataOk cfg (s.Answered cfg) (s.metadata rank)
  opened : ∀ rank l, s.opened rank l ⊆ handshakes cfg l

variable {s s' : PdPair} {rank : ℕ}

theorem inv_init : Inv cfg {} where
  decode := DecodeWorker.inv_init
  aborts := by simp
  network := by simp
  scheduler := ⟨Book.none, Book.none, Book.none⟩
  queue := by simp
  metadata _ := ⟨Book.none, Book.none⟩
  opened := by simp

theorem le_done_inc (c : ImmCounts) (kind : ImmKind) : c.done ≤ (c.inc kind).done := by
  cases kind <;> simp [ImmCounts.inc]

/-! ### The decode worker moves -/

variable {a : DecodeAction ReqId} {d : DecodeWorker ReqId}

/-- What is known about wait results grows with the decode worker. -/
theorem verdict_le {d' : DecodeWorker ReqId} {V : DecodeWorker.Verdict} {expected : ℕ} (h : d.Inv V)
    (hfresh : d.FreshWait a) (hstep : d.step expected a = some d') :
    (verdict expected d).Le (verdict expected d') := by
  obtain ⟨hreleased, hcounts⟩ := h.frame_of_step hfresh hstep
  refine ⟨?_, fun h => h, hreleased⟩
  rintro i (hrel | hdone)
  · exact .inl (hreleased hrel)
  · refine .inr (hdone.trans ?_)
    rcases hcounts with heq | ⟨kind, j, -, heq⟩
    · rw [heq]
    · rw [heq]
      by_cases hij : i = j
      · subst hij
        simpa using le_done_inc _ _
      · simp [hij]

section

variable (h : Inv cfg s)
include h

/-- Every wait result means what the verdict says: an abort that is counted is one that
answers a release. -/
theorem Inv.justified (hfresh : s.decode.FreshWait a)
    (hstep : s.decode.step cfg.expected a = some d) :
    s.decode.Justified cfg.expected (verdict cfg.expected d) a := by
  have hle := verdict_le h.decode hfresh hstep
  cases a with
  | release r =>
    intro w hw
    obtain ⟨-, hs⟩ := ite_none_right_eq_some.mp hstep
    cases hs
    simp [verdict, DecodeWorker.markAborted, hw]
  | prefillFailed r => exact fun _ _ => trivial
  | waiter k timedOut =>
    intro w i result _ _ hresult
    have hmeets := waitImmOrFail_some hresult
    cases result with
    | done => exact hle.won (.inr hmeets)
    | aborted => exact hle.won (.inl (h.aborts i hmeets))
    | failed => trivial
    | timedOut => trivial
  | registerWait r blocks => trivial
  | imm kind i => trivial
  | getFinished => trivial
  | getBlockIdsWithLoadErrors => trivial
  | buildConnectorWorkerMeta => trivial

/-- The decode worker moves; an abort IMM that arrives answers a release. -/
theorem Inv.stepDecode (hfresh : s.decode.FreshWait a)
    (habort : ∀ i, a = .imm .abort i → s.decode.released i)
    (hstep : s.decode.step cfg.expected a = some d) : Inv cfg { s with decode := d } := by
  obtain ⟨hrel, hcounts⟩ := h.decode.frame_of_step hfresh hstep
  have hans : ∀ l, s.Answered cfg l → Answered cfg { s with decode := d } l := fun l hl i hi =>
    hrel (hl i hi)
  refine ⟨?_, ?_, fun i hi => hrel (h.network i hi), ?_, ?_, ?_, h.opened⟩
  · exact (h.decode.mono (verdict_le h.decode hfresh hstep)).step hfresh
      (h.justified hfresh hstep) hstep
  · intro i hi
    rcases hcounts with heq | ⟨kind, j, rfl, heq⟩
    · exact hrel (h.aborts i (by rwa [heq] at hi))
    · rw [heq] at hi
      by_cases hij : i = j
      · subst hij
        cases kind with
        | abort => exact hrel (habort i rfl)
        | done => exact hrel (h.aborts i (by simpa [ImmCounts.inc] using hi))
        | fail => exact hrel (h.aborts i (by simpa [ImmCounts.inc] using hi))
      · exact hrel (h.aborts i (by simpa [hij] using hi))
  · exact ⟨h.scheduler.pushes, h.scheduler.active, h.scheduler.releases.mono hans⟩
  · exact fun rank m hm => ⟨(h.queue rank m hm).pushes, (h.queue rank m hm).releases.mono hans⟩
  · exact fun rank => ⟨(h.metadata rank).pushes, (h.metadata rank).releases.mono hans⟩

/-! ### The prefill side moves -/

theorem Inv.setScheduler {sched : PrefillScheduler ImmId}
    (hsched : SchedulerOk cfg (s.Answered cfg) sched) : Inv cfg { s with scheduler := sched } :=
  { h with scheduler := hsched }

theorem Inv.setOpened {opened : List ImmId} (hopen : opened ⊆ handshakes cfg l) :
    Inv cfg { s with
      opened := update s.opened rank (update (s.opened rank) l opened) } := by
  refine { h with opened := fun rank' l' => ?_ }
  by_cases hr : rank' = rank
  · subst hr
    by_cases hl : l' = l
    · subst hl
      simpa using hopen
    · simpa [hl] using h.opened rank' l'
  · simpa [hr] using h.opened rank' l'

/-- The notice of a release is the abort IMM only if the decode side has released the
request. -/
theorem Inv.release {reason : ReleaseReason} {sent : ImmId → Bool}
    (hack : Acked (s.Answered cfg) l reason) : Inv cfg (s.release rank l reason sent) := by
  have hclosed : Inv cfg { s with
      opened := update s.opened rank (update (s.opened rank) l []) } :=
    h.setOpened (nil_subset _)
  refine { hclosed with network := ?_ }
  intro i hi
  simp only [PdPair.release] at hi
  split at hi
  · exact h.network i hi
  case h_2 notice hnotice =>
    rcases mem_append.mp hi with hi | hi
    · exact h.network i hi
    · obtain ⟨j, hj, hpair⟩ := mem_map.mp hi
      obtain ⟨hkind, rfl⟩ := Prod.mk.inj hpair
      have hmem : j ∈ handshakes cfg l := h.opened rank l (mem_filter.mp hj).1
      have hreason : reason = .consumerAbort := by
        cases reason <;> cases notice <;> simp_all [ReleaseReason.notice, Notice.immKind]
      exact hack hreason j hmem

/-! ### Runs -/

theorem inv_step {a : PdAction} (hC : s.AbortsAnswered cfg a) (hstep : s.step cfg a = some s') :
    Inv cfg s' := by
  cases a with
  | decode a =>
    have hdecode : ∃ d, s.decode.step cfg.expected a = some d ∧ { s with decode := d } = s' ∧
        ∀ kind i, a ≠ .imm kind i := by
      cases a <;> simp only [step, map_eq_some_iff, reduceCtorEq] at hstep <;>
        simpa using hstep
    obtain ⟨d, hd, rfl, hno⟩ := hdecode
    exact h.stepDecode hC (fun i hi => absurd hi (hno _ i)) hd
  | deliver k =>
    obtain ⟨⟨kind, i⟩, hm, hstep⟩ := bind_eq_some_iff.mp hstep
    obtain ⟨d, hd, rfl⟩ := map_eq_some_iff.mp hstep
    have hmem := mem_of_getElem? hm
    have hdec : Inv cfg { s with decode := d } := by
      refine h.stepDecode (a := .imm kind i) trivial (fun j hj => ?_) hd
      cases hj
      exact h.network i hmem
    exact { hdec with network := fun j hj => hdec.network j (mem_of_mem_eraseIdx hj) }
  | updateStateAfterAlloc l blocks =>
    cases hstep
    exact h.setScheduler h.scheduler.updateStateAfterAlloc
  | requestFinished l aborted blocks =>
    cases hstep
    exact h.setScheduler (h.scheduler.requestFinished hC)
  | updateConnectorOutput l =>
    cases hstep
    exact h.setScheduler h.scheduler.updateConnectorOutput
  | buildConnectorMeta cached preempted =>
    cases hstep
    have hbuild : MetadataOk cfg (s.Answered cfg) (s.scheduler.buildConnectorMeta cached
        preempted).1 ∧ SchedulerOk cfg (s.Answered cfg) (s.scheduler.buildConnectorMeta cached
        preempted).2 := h.scheduler.buildConnectorMeta
    refine { h with scheduler := hbuild.2, queue := fun rank m hm => ?_ }
    rcases mem_append.mp hm with hm | hm
    · exact h.queue rank m hm
    · obtain rfl := mem_singleton.mp hm
      exact hbuild.1
  | startLoadKv rank =>
    simp only [step] at hstep
    split at hstep
    · cases hstep
    case h_2 m queue hq =>
      cases hstep
      refine { h with queue := fun rank' m' hm' => ?_, metadata := fun rank' => ?_ }
      · by_cases hr : rank' = rank
        · subst hr
          exact h.queue rank' m' (hq ▸ mem_cons_of_mem m (by simpa using hm'))
        · exact h.queue rank' m' (by simpa [hr] using hm')
      · show MetadataOk cfg (s.Answered cfg) (update s.metadata rank m rank')
        by_cases hr : rank' = rank
        · subst hr
          simpa using h.queue rank' m (hq ▸ mem_cons_self)
        · simpa [hr] using h.metadata rank'
  | processPush rank l =>
    obtain ⟨pushReq, hpush, rfl⟩ := map_eq_some_iff.mp hstep
    exact h.setOpened fun i hi =>
      (h.metadata rank).pushes l pushReq hpush (cfg.plan_subset rank _ hi)
  | processPreempted rank l sent =>
    obtain ⟨-, hs⟩ := ite_none_right_eq_some.mp hstep
    cases hs
    exact h.release (by simp [Acked])
  | processRelease rank l sent =>
    obtain ⟨reason, hreason, rfl⟩ := map_eq_some_iff.mp hstep
    exact h.release ((h.metadata rank).releases l reason hreason)
  | pushDone rank l i =>
    obtain ⟨-, hs⟩ := ite_none_right_eq_some.mp hstep
    cases hs
    refine { h with network := fun j hj => h.network j ?_ }
    simpa using hj

end

end PdPair

end PegaFlow
