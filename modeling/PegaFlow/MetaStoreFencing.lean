/-
PegaFlow/MetaStoreFencing.lean

Left-over owner records of the MetaServer's store.

* `Reconciled`: a record of a session that is not the current one of its node is on the way of some
  call that will drop it, or the reconcile flag is set.  So with the flag not set and no such call
  in progress, every record is current, and a sweep may skip the scan.
* `Fenced`: after `unregister_node` has removed a session, the records of this session are on the
  way of its scan until the session is registered again.  So none is left when it returns, and none
  appears later.
-/
import PegaFlow.MetaStoreSessions

namespace PegaFlow.MetaStore

open List Function Store

variable {K N S : Type}

/-! ### The reconcile flag -/

variable {owner : K → N → Option (OwnerRecord S)} {keep : Keep N S} {v' : View K N S}

/-- A scan with this test drops every left-over record of `node` that it looks at. -/
def Keep.Cleans (node : N) : Keep N S → Prop
  | .unregister n _ _ => node = n
  | .younger _ _ => False
  | _ => True

/-- The call will look at the record of `node` for `key`, and drop it if it is left over. -/
def Role.Covers (key : K) (node : N) : Role K N S → Prop
  | .nodes (.expired _ reconcile removedNodes) => reconcile ∨ removedNodes ≠ 0
  | .nodes .all => True
  | .scan keep visited holds => keep.Cleans node ∧ Ahead visited holds key node

variable (v : View K N S) {pid : ℕ}

/-- A record of another session than the current one of its node. -/
def View.Stale (key : K) (node : N) : Prop :=
  ∃ owner, v.owner key node = some owner ∧ v.session node ≠ some owner.nodeId

def View.Covered (key : K) (node : N) : Prop :=
  ∃ pid role, v.role pid = some role ∧ role.Covers key node

/-- **The invariant of the flag.**  A left-over record is on the way of some call that drops it, or
the next sweep reconciles. -/
def Reconciled : Prop :=
  ∀ key node, v.Stale key node → v.reconcileNeeded ∨ v.Covered key node

section Flag

variable {v : View K N S} {key : K} {node : N}

theorem View.Covered.setRole (h : v.Covered key node) (pid : ℕ) (role : Option (Role K N S))
    (hrole : ∀ old, v.role pid = some old → old.Covers key node →
      ∃ new, role = some new ∧ new.Covers key node) : (v.setRole pid role).Covered key node := by
  obtain ⟨pid', old, hold, hcovers⟩ := h
  rcases eq_or_ne pid' pid with rfl | hne
  · obtain ⟨new, hnew, hcovers⟩ := hrole old hold hcovers
    exact ⟨pid', new, (update_self _ _ _).trans hnew, hcovers⟩
  · exact ⟨pid', old, (update_of_ne hne _ _).trans hold, hcovers⟩

theorem View.Covered.setRole_of_none (h : v.Covered key node) (hrole : v.role pid = none)
    (role : Option (Role K N S)) : (v.setRole pid role).Covered key node := by
  refine h.setRole pid role ?_
  intro old hold
  rw [hrole] at hold
  cases hold

theorem View.covered_setRole (pid : ℕ) {role : Role K N S} (hcovers : role.Covers key node) :
    (v.setRole pid (some role)).Covered key node :=
  ⟨pid, role, update_self _ _ _, hcovers⟩

theorem View.Stale.of_sheds (h : { v with owner := owner }.Stale key node)
    (howner : Sheds v.owner owner) : v.Stale key node := by
  obtain ⟨o, ho, hsession⟩ := h
  rcases howner key node with hnone | hsame
  · rw [show owner key node = some o from ho] at hnone
    cases hnone
  · exact ⟨o, hsame.symm.trans ho, hsession⟩

theorem Keep.Cleans.not_keeps (h : keep.Cleans node) {owner : OwnerRecord S}
    (hsession : v.session node ≠ some owner.nodeId) : ¬ v.Keeps keep node owner := by
  cases keep with
  | unregister n _ _ =>
    obtain rfl : node = n := h
    exact fun hkeeps => hsession (hkeeps rfl)
  | current => exact hsession
  | younger _ _ => exact h.elim
  | nothing => exact id

theorem ahead_nil : Ahead ([] : List K) none key node :=
  ⟨not_mem_nil, fun nodes h => by cases h⟩

variable [DecidableEq N]

theorem View.Stale.of_endSession {m : N} (h : (v.endSession m).Stale key node) (hne : node ≠ m) :
    v.Stale key node := by
  obtain ⟨owner, howner, hsession⟩ := h
  refine ⟨owner, howner, ?_⟩
  rw [View.session_endSession, if_neg hne] at hsession
  exact hsession

variable [DecidableEq S]

/-- A takeover sets the flag, so only records of other nodes, or of a node without a session, were
left over before. -/
theorem Reconciled.register (h : Reconciled v) (m : N) (nodeId : S) :
    Reconciled (v.register m nodeId) := by
  rintro key node ⟨owner, howner, hsession⟩
  show (v.reconcileNeeded || (v.current m).isSome) ∨ _
  rw [Bool.or_eq_true]
  have hstale : v.Stale key node ∨ (v.current m).isSome := by
    rcases eq_or_ne node m with rfl | hne
    · cases hcurrent : v.current node with
      | some current => exact Or.inr rfl
      | none =>
        refine Or.inl ⟨owner, howner, ?_⟩
        rw [View.session, hcurrent]
        exact fun h => by cases h
    · rw [View.session_register, if_neg hne] at hsession
      exact Or.inl ⟨owner, howner, hsession⟩
  rcases hstale with hstale | hsome
  · rcases h key node hstale with hflag | hcovered
    · exact Or.inl (Or.inl hflag)
    · exact Or.inr hcovered
  · exact Or.inl (Or.inr hsome)

theorem Reconciled.moves [DecidableEq K] (h : Reconciled v) (hmoves : Moves v v') :
    Reconciled v' := by
  cases hmoves with
  | stay => exact h
  | register m nodeId => exact h.register m nodeId
  | unregister pid m nodeId registration hcurrent hrole =>
    intro key node hstale
    rcases eq_or_ne node m with rfl | hne
    · exact Or.inr (View.covered_setRole pid ⟨rfl, ahead_nil⟩)
    · have hstale : (v.endSession m).Stale key node := hstale
      rcases h key node (hstale.of_endSession hne) with hflag | hcovered
      · exact Or.inl hflag
      · exact Or.inr (View.Covered.setRole_of_none (v := v.endSession m) hcovered hrole _)
  | sweep pid now hrole =>
    -- the sweep takes over what the flag said
    intro key node hstale
    right
    rcases h key node hstale with hflag | hcovered
    · exact View.covered_setRole pid (Or.inl hflag)
    · exact View.Covered.setRole_of_none (v := { v with reconcileNeeded := false }) hcovered hrole _
  | invalidate pid hrole =>
    exact fun key node hstale => (h key node hstale).imp_right fun hc => hc.setRole_of_none hrole _
  | cleanup pid now maxAge hrole =>
    exact fun key node hstale => (h key node hstale).imp_right fun hc => hc.setRole_of_none hrole _
  | write k m owner hcurrent =>
    rintro key node ⟨o, ho, hsession⟩
    have ho : (if key = k ∧ node = m then some owner else v.owner key node) = some o := ho
    rcases em (key = k ∧ node = m) with hat | hother
    · rw [if_pos hat] at ho
      cases ho
      obtain ⟨-, rfl⟩ := hat
      exact absurd hcurrent hsession
    · rw [if_neg hother] at ho
      exact h key node ⟨o, ho, hsession⟩
  | shed owner howner => exact fun key node hstale => h key node (hstale.of_sheds howner)
  | dropNode pid m job hrole =>
    -- a call that removed a node record scans afterwards
    intro key node hstale
    refine Or.inr (View.covered_setRole pid ?_)
    cases job with
    | expired now reconcile removedNodes => exact Or.inr (Nat.succ_ne_zero _)
    | all => trivial
  | endNodes pid now hrole =>
    intro key node hstale
    refine (h key node hstale).imp_right fun hc => hc.setRole pid none ?_
    intro old hold hcovers
    rw [hrole] at hold
    cases hold
    rcases hcovers with hflag | hzero
    · cases hflag
    · exact absurd rfl hzero
  | startScan pid job keep hrole hkeep =>
    intro key node hstale
    refine Or.inr (View.covered_setRole pid ⟨?_, ahead_nil⟩)
    rcases hkeep with rfl | rfl
    · trivial
    · trivial
  | scan pid keep visited visited' holds holds' owner hrole howner hahead =>
    intro key node hstale
    have hstale : { v with owner := owner }.Stale key node := hstale
    refine (h key node (hstale.of_sheds howner)).imp_right fun hc => ?_
    refine View.Covered.setRole (v := { v with owner := owner }) hc pid _ ?_
    rintro old hold hcovers
    cases hrole.symm.trans hold
    obtain ⟨o, ho, hsession⟩ := hstale
    exact ⟨_, rfl, hcovers.1, hahead key node o ho (hcovers.1.not_keeps hsession) hcovers.2⟩
  | endScan pid keep visited hrole hall =>
    intro key node hstale
    refine (h key node hstale).imp_right fun hc => ?_
    refine View.Covered.setRole (v := v.fence keep) hc pid none ?_
    rintro old hold hcovers
    cases hrole.symm.trans hold
    obtain ⟨o, ho, -⟩ := hstale
    exact absurd (hall key node o ho) hcovers.2.1

end Flag

section Quiet

variable [DecidableEq K] [DecidableEq N]

theorem reconciled_init : Reconciled (init : Store K N S).view := by
  rintro key node ⟨owner, howner, -⟩
  cases howner

/-- No call that is in progress ends a session or writes an owner record, or drops what they leave
over. -/
def Store.quiet (s : Store K N S) : Bool :=
  s.threads.entries.all fun e =>
    match e.2.proc with
    | .inserting _ _ _ _ => false
    | .scanningNodes _ _ => false
    | .scanning (.younger _ _) _ => true
    | .scanning _ _ => false
    | .checking (.younger _ _) _ _ _ _ => true
    | .checking _ _ _ _ _ => false
    | .removing _ _ _ => true
    | .querying _ _ _ _ _ _ => true

theorem not_covered_of_quiet {s : Store K N S} (h : s.quiet) (key : K) (node : N) :
    ¬ s.view.Covered key node := by
  rintro ⟨pid, role, hrole, hcovers⟩
  obtain ⟨t, ht, hproc⟩ := Option.bind_eq_some_iff.mp hrole
  have hquiet := all_eq_true.mp h _ (AList.mem_lookup_iff.mp ht)
  cases hp : t.proc with
  | inserting _ _ _ _ => rw [hp] at hproc; cases hproc
  | removing _ _ _ => rw [hp] at hproc; cases hproc
  | querying _ _ _ _ _ _ => rw [hp] at hproc; cases hproc
  | scanningNodes _ _ => simp only [hp] at hquiet; cases hquiet
  | scanning keep _ =>
    simp only [hp] at hquiet hproc
    cases hproc
    cases keep with
    | younger _ _ => exact hcovers.1
    | unregister _ _ _ => cases hquiet
    | current => cases hquiet
    | nothing => cases hquiet
  | checking keep _ _ _ _ =>
    simp only [hp] at hquiet hproc
    cases hproc
    cases keep with
    | younger _ _ => exact hcovers.1
    | unregister _ _ _ => cases hquiet
    | current => cases hquiet
    | nothing => cases hquiet

/-- **The reconcile flag.**  When it is not set and no call that cleans or inserts is in progress,
every owner record carries the current session of its node. -/
theorem owners_current_when_reconciled [DecidableEq S] (config : StoreConfig)
    (as : List (Action K N S)) :
    Always (step config) (fun s => s.reconcileNeeded = false → s.quiet = true →
      ∀ key node owner, s.owner key node = some owner → s.session node = some owner.nodeId)
      init as := by
  have hinv : Always (step config) (fun s => Reconciled s.view) init as :=
    always_of_step (fun s a s' h hstep => h.moves (moves_of_step hstep)) reconciled_init
  refine hinv.mono ?_
  intro s h hflag hquiet key node owner howner
  by_contra hsession
  have hstale : s.view.Stale key node := ⟨owner, howner, by rwa [session_view]⟩
  rcases h key node hstale with hset | hcovered
  · rw [show s.view.reconcileNeeded = false from hflag] at hset
    cases hset
  · exact not_covered_of_quiet hquiet key node hcovered

end Quiet

/-! ### Ended sessions -/

/-- The session `nodeId` of `node`, registered as `registration`, has ended; until it is registered
again, its records are at keys where `P` holds. -/
structure Ended (node : N) (nodeId : S) (registration : ℕ) (P : K → Prop) : Prop where
  le : registration ≤ v.registrations
  session : v.lastRegistered node nodeId = registration → v.session node ≠ some nodeId
  owners : v.lastRegistered node nodeId = registration →
    ∀ key owner, v.owner key node = some owner → owner.nodeId = nodeId → P key

/-- **The invariant of ended sessions.** -/
structure Fenced : Prop where
  last_le : ∀ node nodeId, v.lastRegistered node nodeId ≤ v.registrations
  current : ∀ node nodeId registration, v.current node = some (nodeId, registration) →
    v.lastRegistered node nodeId = registration
  scans : ∀ pid node nodeId registration visited holds,
    v.role pid = some (.scan (.unregister node nodeId registration) visited holds) →
      Ended v node nodeId registration (Ahead visited holds · node)
  fenced : ∀ node nodeId registration, (node, nodeId, registration) ∈ v.fenced →
    Ended v node nodeId registration fun _ => False

section Ended

variable {v : View K N S} {node : N} {nodeId : S} {registration : ℕ} {P : K → Prop}

theorem Ended.sheds (h : Ended v node nodeId registration P) (howner : Sheds v.owner owner)
    {Q : K → Prop}
    (hQ : v.session node ≠ some nodeId → ∀ key o, owner key node = some o → o.nodeId = nodeId →
      P key → Q key) : Ended { v with owner := owner } node nodeId registration Q := by
  refine ⟨h.le, h.session, ?_⟩
  intro heq key o ho hid
  refine hQ (h.session heq) key o ho hid (h.owners heq key o ?_ hid)
  rcases howner key node with hnone | hsame
  · rw [show owner key node = some o from ho] at hnone
    cases hnone
  · exact hsame.symm.trans ho

theorem Ended.setRole (h : Ended v node nodeId registration P) (pid : ℕ)
    (role : Option (Role K N S)) : Ended (v.setRole pid role) node nodeId registration P :=
  { h with }

variable [DecidableEq N]

section

variable (h : Ended v node nodeId registration P)
include h

theorem Ended.register [DecidableEq S] (m : N) (i : S) :
    Ended (v.register m i) node nodeId registration P := by
  have hlast : (v.register m i).lastRegistered node nodeId = registration →
      ¬ (node = m ∧ nodeId = i) ∧ v.lastRegistered node nodeId = registration := by
    intro heq
    have heq : (if node = m ∧ nodeId = i then v.registrations + 1
      else v.lastRegistered node nodeId) = registration := heq
    have hle := h.le
    split at heq
    · omega
    · next hother => exact ⟨hother, heq⟩
  refine ⟨Nat.le_succ_of_le h.le, ?_, fun heq => h.owners (hlast heq).2⟩
  intro heq
  obtain ⟨hother, heq⟩ := hlast heq
  rw [View.session_register]
  split
  · next hm => exact fun hi => hother ⟨hm, (Option.some.inj hi).symm⟩
  · exact h.session heq

theorem Ended.endSession (m : N) : Ended (v.endSession m) node nodeId registration P := by
  refine ⟨h.le, ?_, h.owners⟩
  intro heq
  rw [View.session_endSession]
  split
  · exact fun hnone => by cases hnone
  · exact h.session heq

theorem Ended.write [DecidableEq K] {k : K} {m : N} {o : OwnerRecord S}
    (hcurrent : v.session m = some o.nodeId) :
    Ended { v with owner := fun key n => if key = k ∧ n = m then some o else v.owner key n }
      node nodeId registration P := by
  refine ⟨h.le, h.session, ?_⟩
  intro heq key owner howner hid
  have howner : (if key = k ∧ node = m then some o else v.owner key node) = some owner := howner
  rcases em (key = k ∧ node = m) with hat | hother
  · rw [if_pos hat] at howner
    cases howner
    obtain ⟨-, rfl⟩ := hat
    exact absurd (hcurrent.trans (congrArg some hid)) (h.session heq)
  · rw [if_neg hother] at howner
    exact h.owners heq key owner howner hid

end

end Ended

variable {visited : List K}

section Fence

variable {v : View K N S}

theorem Fenced.of_ended (h : Fenced v) (hrole : v'.role = v.role) (hfenced : v'.fenced = v.fenced)
    (hlast : v'.lastRegistered = v.lastRegistered)
    (hregistrations : v'.registrations = v.registrations)
    (hcurrent : ∀ n i r, v'.current n = some (i, r) → v.current n = some (i, r))
    (hended : ∀ n i r P, Ended v n i r P → Ended v' n i r P) : Fenced v' where
  last_le := by
    rw [hlast, hregistrations]
    exact h.last_le
  current n i r hn := by
    rw [hlast]
    exact h.current n i r (hcurrent n i r hn)
  scans pid n i r visited holds hscan := by
    rw [hrole] at hscan
    exact hended _ _ _ _ (h.scans pid n i r visited holds hscan)
  fenced n i r hmem := by
    rw [hfenced] at hmem
    exact hended _ _ _ _ (h.fenced n i r hmem)

theorem Fenced.setRole (h : Fenced v) (pid : ℕ) (role : Option (Role K N S))
    (hrole : ∀ n i r visited holds, role = some (.scan (.unregister n i r) visited holds) →
      Ended v n i r (Ahead visited holds · n)) : Fenced (v.setRole pid role) where
  last_le := h.last_le
  current := h.current
  scans pid' n i r visited holds hscan := by
    have hscan : update v.role pid role pid' = _ := hscan
    rcases eq_or_ne pid' pid with rfl | hne
    · rw [update_self] at hscan
      exact (hrole n i r visited holds hscan).setRole _ _
    · rw [update_of_ne hne] at hscan
      exact (h.scans pid' n i r visited holds hscan).setRole _ _
  fenced n i r hmem := (h.fenced n i r hmem).setRole _ _

theorem Fenced.sheds (h : Fenced v) (howner : Sheds v.owner owner) :
    Fenced { v with owner := owner } :=
  h.of_ended rfl rfl rfl rfl (fun _ _ _ hn => hn)
    fun _ _ _ _ hended => hended.sheds howner fun _ _ _ _ _ hP => hP

/-- A scan that is over has dropped the records of the session. -/
theorem Fenced.endScan (h : Fenced v) (hrole : v.role pid = some (.scan keep visited none))
    (hall : ∀ key node owner, v.owner key node = some owner → key ∈ visited) :
    Fenced (v.fence keep) where
  last_le := h.last_le
  current := h.current
  scans pid' n i r visited' holds hscan :=
    have hended := h.scans pid' n i r visited' holds hscan
    { hended with }
  fenced n i r hmem := by
    rcases mem_append.mp hmem with hnew | hold
    · cases keep with
      | unregister m j r' =>
        cases mem_singleton.mp hnew
        have hended := h.scans pid n i r visited none hrole
        exact { hended with owners := fun heq key owner howner hid =>
          (hended.owners heq key owner howner hid).1 (hall key n owner howner) }
      | current => cases hnew
      | younger _ _ => cases hnew
      | nothing => cases hnew
    · have hended := h.fenced n i r hold
      exact { hended with }

variable [DecidableEq N]

theorem Fenced.endSession (h : Fenced v) (m : N) : Fenced (v.endSession m) := by
  refine h.of_ended rfl rfl rfl rfl ?_ fun n i r P hended => hended.endSession m
  intro n i r hn
  have hn : update v.current m none n = some (i, r) := hn
  rcases eq_or_ne n m with rfl | hne
  · rw [update_self] at hn
    cases hn
  · rwa [update_of_ne hne] at hn

variable [DecidableEq S]

theorem Fenced.register (h : Fenced v) (m : N) (i : S) : Fenced (v.register m i) where
  last_le n j := by
    show (if n = m ∧ j = i then v.registrations + 1 else v.lastRegistered n j) ≤ _
    split
    · exact le_refl _
    · exact Nat.le_succ_of_le (h.last_le n j)
  current n j r hn := by
    have hn : update v.current m (some (i, v.registrations + 1)) n = some (j, r) := hn
    show (if n = m ∧ j = i then v.registrations + 1 else v.lastRegistered n j) = r
    rcases eq_or_ne n m with rfl | hne
    · rw [update_self] at hn
      cases hn
      exact if_pos ⟨rfl, rfl⟩
    · rw [update_of_ne hne] at hn
      rw [if_neg fun hat => hne hat.1]
      exact h.current n j r hn
  scans pid n j r visited holds hscan := (h.scans pid n j r visited holds hscan).register m i
  fenced n j r hmem := (h.fenced n j r hmem).register m i

theorem Fenced.moves [DecidableEq K] (h : Fenced v) (hmoves : Moves v v') : Fenced v' := by
  cases hmoves with
  | stay => exact h
  | register m i => exact h.register m i
  | unregister pid m i r hcurrent hrole =>
    refine (h.endSession m).setRole pid _ ?_
    rintro n j r' visited holds heq
    cases heq
    have hlast := h.current m i r hcurrent
    refine ⟨hlast ▸ h.last_le m i, ?_, fun _ _ _ _ _ => ahead_nil⟩
    intro _
    rw [View.session_endSession, if_pos rfl]
    exact fun hnone => by cases hnone
  | sweep pid now hrole =>
    exact Fenced.setRole (v := { v with reconcileNeeded := false })
      (h.of_ended rfl rfl rfl rfl (fun _ _ _ hn => hn)
        fun _ _ _ _ hended => { hended with })
      pid _ fun _ _ _ _ _ heq => by cases heq
  | invalidate pid hrole => exact h.setRole pid _ fun _ _ _ _ _ heq => by cases heq
  | cleanup pid now maxAge hrole => exact h.setRole pid _ fun _ _ _ _ _ heq => by cases heq
  | write k m o hcurrent =>
    exact h.of_ended rfl rfl rfl rfl (fun _ _ _ hn => hn)
      fun _ _ _ _ hended => hended.write hcurrent
  | shed owner howner => exact h.sheds howner
  | dropNode pid m job hrole =>
    exact (h.endSession m).setRole pid _ fun _ _ _ _ _ heq => by cases heq
  | endNodes pid now hrole => exact h.setRole pid _ fun _ _ _ _ _ heq => by cases heq
  | startScan pid job keep hrole hkeep =>
    refine h.setRole pid _ ?_
    rintro n i r visited holds heq
    cases heq
    rcases hkeep with hkeep | hkeep
    · cases hkeep
    · cases hkeep
  | scan pid keep visited visited' holds holds' owner hrole howner hahead =>
    refine (h.sheds howner).setRole pid _ ?_
    rintro n i r _ _ heq
    cases heq
    refine (h.scans pid n i r visited holds hrole).sheds howner ?_
    intro hsession key o ho hid
    refine hahead key n o ho ?_
    exact fun hkeeps => hsession ((hkeeps rfl).trans (congrArg some hid))
  | endScan pid keep visited hrole hall =>
    exact (h.endScan hrole hall).setRole pid none fun _ _ _ _ _ heq => by cases heq

end Fence

variable [DecidableEq K] [DecidableEq N]

theorem fenced_init : Fenced (init : Store K N S).view where
  last_le _ _ := le_refl 0
  current n i r hn := by cases hn
  scans pid n i r visited holds hscan := by cases hscan
  fenced n i r hmem := by cases hmem

/-! ### Dropped records and reported owners -/

/-- The records that a visit of `unregister_node` is about to drop are not of the session that was
current when they were checked. -/
def Proc.SparesCurrent : Proc K N S → Prop
  | .checking (.unregister _ _ _) _ _ _ dropped => ∀ d ∈ dropped, d.current ≠ some d.owner.nodeId
  | _ => True

structure Noted (s : Store K N S) : Prop where
  threads : ∀ pid t, s.threads.lookup pid = some t → t.proc.SparesCurrent
  drops : ∀ d ∈ s.drops, d.2.current ≠ some d.2.owner.nodeId
  answers : ∀ a ∈ s.answers, a.current = some a.nodeId

section Notes

variable {config : StoreConfig} {s s' : Store K N S} {pid : ℕ} {t : Thread K N S} {key : K}

theorem Noted.setThread (h : Noted s) (ht : t.proc.SparesCurrent) : Noted (s.setThread pid t) := by
  refine ⟨?_, h.drops, h.answers⟩
  intro pid' t' ht'
  rcases of_lookup_insert ht' with ⟨-, rfl⟩ | ⟨-, ht'⟩
  · exact ht
  · exact h.threads pid' t' ht'

theorem Noted.endThread (h : Noted s) : Noted (s.endThread pid) := by
  refine ⟨?_, h.drops, h.answers⟩
  intro pid' t' ht'
  exact h.threads pid' t' (of_lookup_erase ht').2

theorem Noted.writeOwners (h : Noted s) {owners : Owners N S} {next : Proc K N S}
    (hnext : next.SparesCurrent) : Noted (s.writeOwners pid key owners next) := by
  refine Noted.setThread (s := s.setOwners key owners) { h with } ?_
  rw [proc_adjusting]
  exact hnext

omit [DecidableEq K] [DecidableEq N] in
theorem Proc.sparesCurrent {proc : Proc K N S} (h : proc.isChecking = false) :
    proc.SparesCurrent := by
  cases proc with
  | checking => cases h
  | _ => trivial

theorem Noted.same (h : Noted s) (hs : s.Frame s') : Noted s' :=
  ⟨hs.threads ▸ h.threads, hs.drops ▸ h.drops, hs.answers ▸ h.answers⟩

variable [DecidableEq S]

/-- An owner is reported when its record carries the session that is current at the check. -/
theorem session_of_isOwnerVisible {node : N} {owner : OwnerRecord S} {now : ℕ}
    (h : s.isOwnerVisible config node owner now) : s.session node = some owner.nodeId := by
  unfold isOwnerVisible at h
  split at h
  · cases h
  · next record hsome =>
    rw [Bool.and_eq_true] at h
    rw [session, hsome, ← of_decide_eq_true h.1]
    rfl

theorem current_ne_of_check {n node : N} {i : S} {ended : ℕ} :
    ∀ d ∈ s.check (.unregister n i ended) key node, d.current ≠ some d.owner.nodeId := by
  intro d hd
  unfold check at hd
  split at hd
  · cases hd
  · split at hd
    · cases hd
    · next hfails =>
      cases mem_singleton.mp hd
      simp only [keeps, Bool.or_eq_true, decide_eq_true_eq, not_or] at hfails
      obtain ⟨hnode, hcurrent⟩ := hfails
      rwa [← not_not.mp hnode] at hcurrent

theorem Noted.checkOwner (h : Noted s) {todo : List N} {dropped : List (Dropped N S)}
    (ht : s.threads.lookup pid = some t)
    (hproc : t.proc = .checking keep visited key todo dropped) :
    Noted (s.checkOwner pid keep visited key dropped todo) := by
  have hdropped := h.threads pid t ht
  rw [hproc] at hdropped
  cases todo with
  | cons node todo =>
    refine h.setThread ?_
    cases keep with
    | unregister n i ended =>
      intro d hd
      rcases mem_append.mp hd with hnew | hold
      · exact current_ne_of_check d hnew
      · exact hdropped d hold
    | current => trivial
    | younger _ _ => trivial
    | nothing => trivial
  | nil =>
    refine Noted.writeOwners ?_ trivial
    cases keep with
    | unregister n i ended =>
      refine { h with drops := ?_ }
      intro d hd
      rcases mem_append.mp hd with hnew | hold
      · obtain ⟨d', hd', rfl⟩ := mem_map.mp hnew
        exact hdropped d' hd'
      · exact h.drops d hold
    | current => exact h
    | younger _ _ => exact h
    | nothing => exact h

theorem Noted.step (h : Noted s) {a : Action K N S} (hstep : MetaStore.step config s a = some s') :
    Noted s' := by
  cases effect_of_step hstep with
  | frame hs => exact h.same hs
  | next hs _ hproc => exact (h.same hs).setThread (Proc.sparesCurrent hproc)
  | finish hs => exact (h.same hs).endThread
  | write _ _ _ hproc => exact h.writeOwners (Proc.sparesCurrent hproc)
  | visit _ keep =>
    refine h.setThread ?_
    cases keep with
    | unregister _ _ _ => exact fun d hd => by cases hd
    | current => trivial
    | younger _ _ => trivial
    | nothing => trivial
  | check _ ht hproc => exact h.checkOwner ht hproc
  | answer key _ hvisible hproc =>
    refine Noted.setThread ?_ ?_
    rotate_left
    · exact Proc.sparesCurrent hproc
    refine ⟨h.threads, h.drops, ?_⟩
    intro a ha
    rcases mem_cons.mp ha with rfl | ha
    · exact session_of_isOwnerVisible hvisible
    · exact h.answers a ha
  | atomic ht =>
    have hthread := h.threads _ _ ht
    refine Noted.setThread ?_ hthread
    exact { h with }

omit [DecidableEq S] in
theorem noted_init : Noted (init : Store K N S) where
  threads pid t ht := by cases ht
  drops d hd := by cases hd
  answers a ha := by cases ha

end Notes

/-! ### Session fencing -/

/-- What the store promises about ended sessions. -/
structure Fencing (s : Store K N S) : Prop where
  /-- After `unregister_node` has returned, no record of the session is there, unless the session
  was registered again. -/
  ended : ∀ node nodeId registration, (node, nodeId, registration) ∈ s.fenced →
    s.lastRegistered node nodeId = registration →
      ∀ key owner, s.owner key node = some owner → owner.nodeId ≠ nodeId
  /-- `unregister_node` drops no record of the session that is current at the check. -/
  current : ∀ d ∈ s.drops, d.2.current ≠ some d.2.owner.nodeId
  /-- An owner is reported only when its record carries the session that is current then. -/
  visible : ∀ a ∈ s.answers, a.current = some a.nodeId

/-- **Session fencing.** -/
theorem sessions_fenced [DecidableEq S] (config : StoreConfig) (as : List (Action K N S)) :
    Always (step config) Fencing init as := by
  have hstep : ∀ (s : Store K N S) a s', Fenced s.view ∧ Noted s → step config s a = some s' →
      Fenced s'.view ∧ Noted s' := by
    rintro s a s' ⟨hview, hnoted⟩ hstep
    exact ⟨hview.moves (moves_of_step hstep), hnoted.step hstep⟩
  refine (always_of_step hstep ⟨fenced_init, noted_init⟩).mono ?_
  rintro s ⟨hview, hnoted⟩
  refine ⟨?_, hnoted.drops, hnoted.answers⟩
  intro node nodeId registration hmem hlast key owner howner
  exact (hview.fenced node nodeId registration hmem).owners hlast key owner howner

/-- The newer session 2 registers while session 1 is being unregistered, writes a record, and is
itself unregistered; the scan for session 1 drops the record of session 2. -/
theorem newer_session_dropped_by_unregister :
    ¬ ∀ as : List (Action ℕ ℕ ℕ),
      Always (step ⟨10, 20⟩) (fun s => ∀ d ∈ s.drops, d.2.owner.registration ≤ d.1) init as :=
  fun h => not_always (fun s : Store ℕ ℕ ℕ => ∀ d ∈ s.drops, d.2.owner.registration ≤ d.1)
    (fun _ h => h) (by decide)
    (h [.heartbeat 0 1 0, .call 0 (.unregisterNode 0 1), .heartbeat 0 2 0,
      .call 1 (.insertHashes 0 2 [7] 0 0), .step 1 .next, .step 1 .next, .step 1 .next,
      .step 1 .next, .call 2 (.unregisterNode 0 2), .step 0 (.key 7), .step 0 .next,
      .step 0 .next])

end PegaFlow.MetaStore
