/-
PegaFlow/DecodeFanin.lean

Many prefill ranks, one decode rank: when the blocks of a wait are handed back.

Every prefill rank whose push plan targets the decode rank writes into the blocks of a wait
and, when it has no write outstanding any more, sends one IMM: Done, fail or abort.  The
decode worker waits for as many Done IMMs as it expects, but for a single fail or abort IMM.
Once the wait is reported, vLLM may reuse the blocks.
-/
import PegaFlow.DecodeWait
import PegaFlow.Tally

namespace PegaFlow

open Option

/-! ### Ranks and expected counts -/

/-- Who pushes to whom.  `plan p` are the decode ranks in the push plan of prefill rank `p`;
`sourcePlan` are the plans as the decode side computes them for its own configuration. -/
structure FaninConfig where
  rank : ℕ
  prefillTpSize : ℕ
  plan : ℕ → List ℕ
  sourceTpSize : ℕ
  sourcePlan : ℕ → List ℕ
  useMla : Bool

namespace FaninConfig

variable (cfg : FaninConfig)

/-- The prefill ranks that target the decode rank. -/
def writers : List ℕ :=
  (List.range cfg.prefillTpSize).filter fun p => cfg.rank ∈ cfg.plan p

/-- `decode_rank_source_counts`, for the decode rank at hand. -/
def sourceCount : ℕ :=
  tally (fun p => (cfg.sourcePlan p).count cfg.rank) (List.range cfg.sourceTpSize)

/-- `_refresh_expected_imm_counts`: one with MLA; a rank without sources counts as one. -/
def expectedImmCount : ℕ :=
  if cfg.useMla then 1 else if cfg.sourceCount = 0 then 1 else cfg.sourceCount

/-- When the decode side computes the plans that the prefill ranks use, the expected count
covers all of them. -/
theorem covers_of_agree (htp : cfg.sourceTpSize = cfg.prefillTpSize)
    (hplan : cfg.sourcePlan = cfg.plan) (hmla : cfg.useMla = false) :
    cfg.writers.length ≤ cfg.expectedImmCount := by
  have hcount : cfg.writers.length ≤ cfg.sourceCount := by
    rw [writers, length_filter_eq_tally, sourceCount, htp, hplan]
    refine tally_le fun p _ => ?_
    split
    case isTrue hmem => exact List.count_pos_iff.mpr (of_decide_eq_true hmem)
    case isFalse => exact Nat.zero_le _
  simp only [expectedImmCount, hmla, Bool.false_eq_true, if_false]
  split <;> omega

end FaninConfig

/-! ### The composition -/

/-- The decode worker, the IMMs on their way, and the IMM each rank has sent for an imm id. -/
structure Fanin (R : Type*) where
  decode : DecodeWorker R := {}
  network : List (ImmKind × ImmId) := []
  sent : ℕ → ImmId → Option ImmKind := fun _ _ => none

inductive FaninAction (R : Type*) where
  | decode (a : DecodeAction R)
  /-- prefill rank `p` sends its IMM for a wait; it has no write outstanding -/
  | send (p : ℕ) (immId : ImmId) (kind : ImmKind)
  | deliver (k : ℕ)

namespace Fanin

variable {R : Type*}

section Definitions

variable [DecidableEq R]

/-- Rank `p` has sent `kind` for `i`. -/
def noteSent (s : Fanin R) (p : ℕ) (i : ImmId) (kind : ImmKind) : ℕ → ImmId → Option ImmKind :=
  Function.update s.sent p (Function.update (s.sent p) i (some kind))

/-- One step.  A rank sends one IMM for each wait it has been given. -/
def step (cfg : FaninConfig) (s : Fanin R) : FaninAction R → Option (Fanin R)
  | .decode a =>
      match a with
      -- IMMs come from the ranks, and timeouts and failed prefill calls are left out
      | .imm _ _ | .prefillFailed _ | .waiter _ true => none
      | a => (s.decode.step cfg.expectedImmCount a).map fun d => { s with decode := d }
  | .send p i kind =>
      if p ∈ cfg.writers ∧ s.decode.issued i ∧ s.sent p i = none then
        some { s with
          network := s.network ++ [(kind, i)]
          sent := s.noteSent p i kind }
      else none
  | .deliver k =>
      (s.network[k]?).bind fun m =>
        (s.decode.step cfg.expectedImmCount (.imm m.1 m.2)).map fun d =>
          { s with decode := d, network := s.network.eraseIdx k }

/-! ### The property and the condition -/

variable (cfg : FaninConfig) (s : Fanin R)

/-- Every rank that targets the decode rank has sent its IMM for the wait. -/
def SentAll (i : ImmId) : Prop :=
  ∀ p ∈ cfg.writers, (s.sent p i).isSome

/-- **Blocks are handed back when all writers are done**: a wait is reported, as a success or
as a failure, only after every rank has sent its IMM for it. -/
def HandedBack : Prop :=
  ∀ r i failed, s.decode.report r = some (i, failed) → s.SentAll cfg i

/-- The imm id a waiter is blocked on. -/
def waitsOn (k : ℕ) : Option ImmId :=
  (s.decode.waiters[k]?).bind fun w =>
    match w.state with
    | .waiting i => some i
    | _ => none

/-- A waiter that finds a fail or abort IMM finds it only after every rank has sent its IMM,
and waits are registered afresh. -/
def HeldBack : FaninAction R → Prop
  | .decode a =>
      s.decode.FreshWait a ∧
        match a with
        | .waiter k _ => ∀ i ∈ s.waitsOn k,
            1 ≤ (s.decode.counts i).fail ∨ 1 ≤ (s.decode.counts i).abort → s.SentAll cfg i
        | _ => True
  | _ => True

instance (i : ImmId) : Decidable (s.SentAll cfg i) :=
  inferInstanceAs (Decidable (∀ p ∈ cfg.writers, _))

instance (a : FaninAction R) : Decidable (s.HeldBack cfg a) :=
  match a with
  | .decode (.waiter k t) => inferInstanceAs (Decidable
      (s.decode.FreshWait (.waiter k t) ∧ ∀ i ∈ s.waitsOn k,
        1 ≤ (s.decode.counts i).fail ∨ 1 ≤ (s.decode.counts i).abort → s.SentAll cfg i))
  | .decode (.registerWait r b) => inferInstanceAs (Decidable
      (s.decode.FreshWait (.registerWait r b) ∧ True))
  | .decode (.release _) | .decode (.prefillFailed _) | .decode (.imm _ _) | .decode .getFinished
  | .decode .getBlockIdsWithLoadErrors | .decode .buildConnectorWorkerMeta =>
      .isTrue ⟨trivial, trivial⟩
  | .send .. | .deliver _ => .isTrue trivial

end Definitions

/-! ### The invariant -/

/-- Whether rank `p` has sent Done for `i`. -/
def doneBy (s : Fanin R) (i : ImmId) (p : ℕ) : ℕ := if s.sent p i = some .done then 1 else 0

/-- Whether an IMM is a Done IMM for `i`. -/
def doneFor (i : ImmId) (m : ImmKind × ImmId) : ℕ := if m = (.done, i) then 1 else 0

/-- Both a success and a failure mean that all ranks have sent. -/
def verdict (cfg : FaninConfig) (s : Fanin R) : DecodeWorker.Verdict where
  won := s.SentAll cfg
  lost := s.SentAll cfg
  aborted _ := True
  won_of_aborted h _ := h

structure Inv (cfg : FaninConfig) (s : Fanin R) : Prop where
  decode : s.decode.Inv (verdict cfg s)
  /-- a Done IMM that is counted or on its way was sent by a rank of its own -/
  done : ∀ i, (s.decode.counts i).done + tally (doneFor i) s.network ≤
    tally (s.doneBy i) cfg.writers

variable {cfg : FaninConfig} {s s' : Fanin R} {i : ImmId} {a : DecodeAction R}

theorem inv_init : Inv cfg ({} : Fanin R) :=
  ⟨DecodeWorker.inv_init, by simp⟩

theorem Inv.handedBack (h : Inv cfg s) : s.HandedBack cfg := by
  intro r i failed hr
  have := h.decode.report r i failed hr
  cases failed <;> exact this

theorem Inv.sentAll (h : Inv cfg s) (hcover : cfg.writers.length ≤ cfg.expectedImmCount)
    (hdone : cfg.expectedImmCount ≤ (s.decode.counts i).done) : s.SentAll cfg i := by
  have hfull : tally (fun _ => 1) cfg.writers ≤ tally (s.doneBy i) cfg.writers := by
    have := h.done i
    have hlen : tally (fun _ => 1) cfg.writers = cfg.writers.length := by simp [tally]
    omega
  intro p hp
  have hone := eq_of_tally_le (fun q _ => by
    unfold doneBy
    split <;> omega) hfull p hp
  have hsent : s.sent p i = some .done := by
    by_contra hne
    simp [doneBy, hne] at hone
  simp [hsent]

/-! ### Sending -/

theorem noteSent_of_ne {p q : ℕ} {i j : ImmId} (kind : ImmKind) (h : ¬ (q = p ∧ j = i)) :
    s.noteSent p i kind q j = s.sent q j := by
  by_cases hq : q = p
  · subst hq
    have hj : j ≠ i := fun hj => h ⟨rfl, hj⟩
    simp [noteSent, hj]
  · simp [noteSent, hq]

theorem noteSent_self {p : ℕ} (kind : ImmKind) : s.noteSent p i kind p i = some kind := by
  simp [noteSent]

theorem Inv.send {p : ℕ} {kind : ImmKind} (h : Inv cfg s) (hp : p ∈ cfg.writers)
    (hnew : s.sent p i = none) :
    Inv cfg { s with network := s.network ++ [(kind, i)], sent := s.noteSent p i kind } := by
  have hall : ∀ {j}, s.SentAll cfg j → SentAll cfg { s with sent := s.noteSent p i kind } j := by
    intro j hj q hq
    show (s.noteSent p i kind q j).isSome
    by_cases heq : q = p ∧ j = i
    · obtain ⟨rfl, rfl⟩ := heq
      simp [noteSent_self]
    · rw [noteSent_of_ne kind heq]
      exact hj q hq
  have hknow : (verdict cfg s).Le (verdict cfg { s with
      network := s.network ++ [(kind, i)], sent := s.noteSent p i kind }) :=
    ⟨hall, hall, fun h => h⟩
  refine ⟨h.decode.mono hknow, fun j => ?_⟩
  have hold := h.done j
  have hle : ∀ q ∈ cfg.writers,
      s.doneBy j q ≤ doneBy { s with sent := s.noteSent p i kind } j q := by
    intro q _
    simp only [doneBy]
    by_cases heq : q = p ∧ j = i
    · obtain ⟨rfl, rfl⟩ := heq
      simp [hnew]
    · simp [noteSent_of_ne kind heq]
  show (s.decode.counts j).done + tally (doneFor j) (s.network ++ [(kind, i)]) ≤
    tally (doneBy { s with sent := s.noteSent p i kind } j) cfg.writers
  rw [tally_append_singleton]
  by_cases hdone : kind = .done ∧ i = j
  · -- a Done IMM for this wait: one more rank has sent it
    obtain ⟨rfl, rfl⟩ := hdone
    have hlt := tally_lt hle hp (by simp [doneBy, hnew, noteSent_self])
    have : doneFor i (ImmKind.done, i) = 1 := by simp [doneFor]
    omega
  · have := tally_le hle
    have : doneFor j (kind, i) = 0 := by
      simp only [doneFor, Prod.mk.injEq, ite_eq_right_iff]
      exact fun heq => absurd heq hdone
    omega

/-- Every wait result means that all ranks have sent: the Done IMMs cover them, and a fail
or abort IMM is looked at only then. -/
theorem Inv.justified (h : Inv cfg s) (hcover : cfg.writers.length ≤ cfg.expectedImmCount)
    (hC : s.HeldBack cfg (.decode a)) (hfail : ∀ r, a ≠ .prefillFailed r)
    (htime : ∀ k, a ≠ .waiter k true) :
    s.decode.Justified cfg.expectedImmCount (verdict cfg s) a := by
  cases a with
  | prefillFailed r => exact absurd rfl (hfail r)
  | waiter k timedOut =>
    intro w i result hw hstate hresult
    have hon : i ∈ s.waitsOn k := by simp [waitsOn, hw, hstate]
    have hheld := hC.2 i hon
    have hmeets := waitImmOrFail_some hresult
    cases result with
    | done => exact h.sentAll hcover hmeets
    | aborted => exact hheld (.inr hmeets)
    | failed => exact hheld (.inl hmeets)
    | timedOut => exact absurd (by rw [hmeets]) (htime k)
  | release r => exact fun _ _ => trivial
  | registerWait r blocks => trivial
  | imm kind i => trivial
  | getFinished => trivial
  | getBlockIdsWithLoadErrors => trivial
  | buildConnectorWorkerMeta => trivial

section Runs

variable [DecidableEq R] {d : DecodeWorker R}

theorem Inv.stepDecode {network : List (ImmKind × ImmId)} (h : Inv cfg s)
    (hfresh : s.decode.FreshWait a) (hj : s.decode.Justified cfg.expectedImmCount (verdict cfg s) a)
    (hstep : s.decode.step cfg.expectedImmCount a = some d)
    (hdone : ∀ i, (d.counts i).done + tally (doneFor i) network ≤
      (s.decode.counts i).done + tally (doneFor i) s.network) :
    Inv cfg { s with decode := d, network } :=
  ⟨h.decode.step hfresh hj hstep, fun i => (hdone i).trans (h.done i)⟩

theorem Inv.deliver {k : ℕ} {m : ImmKind × ImmId} (h : Inv cfg s) (hm : s.network[k]? = some m)
    (hstep : s.decode.step cfg.expectedImmCount (.imm m.1 m.2) = some d) :
    Inv cfg { s with decode := d, network := s.network.eraseIdx k } := by
  refine h.stepDecode (a := .imm m.1 m.2) trivial trivial hstep fun i => ?_
  have herase := tally_eraseIdx (f := doneFor i) hm
  have hcount : (d.counts i).done ≤ (s.decode.counts i).done + doneFor i m := by
    cases hstep
    split
    · by_cases heq : i = m.2
      · subst heq
        obtain ⟨kind, j⟩ := m
        cases kind <;> simp [ImmCounts.inc, doneFor]
      · simp [heq]
    · omega
  omega

/-! ### Runs -/

theorem inv_step {a : FaninAction R} (hcover : cfg.writers.length ≤ cfg.expectedImmCount)
    (h : Inv cfg s) (hC : s.HeldBack cfg a) (hstep : s.step cfg a = some s') : Inv cfg s' := by
  cases a with
  | decode a =>
    have hdecode : ∃ d, s.decode.step cfg.expectedImmCount a = some d ∧
        { s with decode := d } = s' ∧ (∀ kind i, a ≠ .imm kind i) ∧
        (∀ r, a ≠ .prefillFailed r) ∧ ∀ k, a ≠ .waiter k true := by
      simp only [step] at hstep
      split at hstep
      · cases hstep
      · cases hstep
      · cases hstep
      case h_4 himm hfail htime =>
        obtain ⟨d, hd, hs⟩ := map_eq_some_iff.mp hstep
        exact ⟨d, hd, hs, himm, hfail, htime⟩
    obtain ⟨d, hd, rfl, himm, hfail, htime⟩ := hdecode
    refine h.stepDecode hC.1 (h.justified hcover hC hfail htime) hd fun i => ?_
    rcases (h.decode.frame_of_step hC.1 hd).2 with heq | ⟨kind, j, rfl, -⟩
    · rw [heq]
    · exact absurd rfl (himm kind j)
  | send p i kind =>
    obtain ⟨⟨hp, -, hnew⟩, hs⟩ := ite_none_right_eq_some.mp hstep
    cases hs
    exact h.send hp hnew
  | deliver k =>
    obtain ⟨m, hm, hstep⟩ := bind_eq_some_iff.mp hstep
    obtain ⟨d, hd, rfl⟩ := map_eq_some_iff.mp hstep
    exact h.deliver hm hd

variable {as : List (FaninAction R)}

theorem inv_run (hcover : cfg.writers.length ≤ cfg.expectedImmCount)
    (h : Along (step cfg) (HeldBack cfg) {} as) : Always (step cfg) (Inv (R := R) cfg) {} as :=
  always_of_along (fun _ _ _ hinv hC hstep => inv_step hcover hinv hC hstep) inv_init h

/-- When the decode side computes the plans of the prefill ranks, only fail and abort IMMs have to
be held back. -/
theorem handedBack_of_agree (htp : cfg.sourceTpSize = cfg.prefillTpSize)
    (hplan : cfg.sourcePlan = cfg.plan) (hmla : cfg.useMla = false)
    (h : Along (step cfg) (HeldBack cfg) {} as) :
    Always (step cfg) (HandedBack (R := R) cfg) {} as :=
  (inv_run (cfg.covers_of_agree htp hplan hmla) h).mono fun _ hinv => hinv.handedBack

/-- Two prefill ranks push to the decode rank, and two IMMs are expected. -/
def twoRanks : FaninConfig where
  rank := 0
  prefillTpSize := 2
  plan _ := [0]
  sourceTpSize := 2
  sourcePlan _ := [0]
  useMla := false

end Runs

end Fanin

end PegaFlow
