/-
PegaFlow/LeaseProbes.lean

What the calls of the connector do to its probes.
-/
import PegaFlow.LeaseAccounting

namespace PegaFlow

open List Option

namespace Leases

variable {Hash : Type}

/-! ### Calls that ask nobody -/

section Calm

variable (cfg : LeaseConfig Hash) (s : Connector Hash)

theorem calm_cleanupRequest (reqId : String) : Calm s (s.cleanupRequest cfg reqId) :=
  (calm_releasePending cfg s reqId).trans ⟨rfl, rfl, fun _ _ h => h⟩

theorem calm_requestFinished (reqId : String) : Calm s (s.requestFinished cfg reqId) := by
  unfold Connector.requestFinished
  split
  · exact ⟨rfl, rfl, fun _ _ h => h⟩
  · exact calm_cleanupRequest cfg s reqId

theorem calm_updateConnectorOutput (finishedSending : List String) :
    Calm s (s.updateConnectorOutput cfg finishedSending) := by
  refine foldlRecOn finishedSending _ (.refl s) fun s' hs' reqId _ => hs'.trans ?_
  unfold Connector.savesFinished
  dsimp only
  split
  · have hclean := calm_cleanupRequest cfg
      { s' with pendingSaves := s'.pendingSaves.filter (· ≠ reqId) } reqId
    exact { hclean with }
  · exact ⟨rfl, rfl, fun _ _ h => h⟩

theorem calm_shutdown : Calm s (s.shutdown cfg) := by
  have hall : Calm s (s.pendingQueryProbes.keys.foldl (Connector.releasePendingQueryProbe cfg) s) :=
    foldlRecOn _ _ (.refl s) fun s' hs' reqId _ => hs'.trans (calm_releasePending cfg s' reqId)
  exact hall.trans ⟨rfl, rfl, fun _ _ h => h⟩

variable [DecidableEq Hash]

theorem calm_updateStateAfterAlloc (request : Request Hash)
    (blocks : Option (List (List (ℕ × Bool)))) (numExternalTokens : ℕ) :
    Calm s (s.updateStateAfterAlloc cfg request blocks numExternalTokens).2 := by
  rcases updateStateAfterAlloc_cases cfg s request blocks numExternalTokens with
    hmem | ⟨probe, r, blockIdsByGroup, -, -, heq⟩
  · simp only [mem_cons, not_mem_nil, or_false] at hmem
    rcases hmem with heq | heq
    · rw [heq]
      exact .refl s
    · rw [heq]
      exact calm_releasePending cfg s _
  · rw [heq]
    exact ⟨rfl, rfl, fun _ _ hq => (of_lookup_erase hq).2⟩

variable {cfg s}

theorem calm_step {s' : Connector Hash} {a : Action Hash} (hstep : Connector.step cfg s a = some s')
    (hother : ∀ request numComputedTokens replies,
      a ≠ .getNumNewMatchedTokens request numComputedTokens replies) : Calm s s' := by
  cases a with
  | getNumNewMatchedTokens request numComputedTokens replies => exact absurd rfl (hother _ _ _)
  | updateStateAfterAlloc request blocks numExternalTokens =>
    obtain rfl := some.inj hstep
    exact calm_updateStateAfterAlloc cfg s request blocks numExternalTokens
  | requestFinished reqId =>
    obtain rfl := some.inj hstep
    exact calm_requestFinished cfg s reqId
  | updateConnectorOutput finishedSending =>
    obtain rfl := some.inj hstep
    exact calm_updateConnectorOutput cfg s finishedSending
  | buildConnectorMeta saves =>
    obtain rfl := some.inj hstep
    exact ⟨rfl, rfl, fun _ _ h => h⟩
  | shutdown =>
    obtain rfl := some.inj hstep
    exact calm_shutdown cfg s

end Calm

/-! ### Polls -/

/-- Every ready probe meets `P`. -/
def Probed (P : QueryProbe Hash → ShardedQueryReady → Prop) (s : Connector Hash) : Prop :=
  ∀ reqId probe r, s.pendingQueryProbes.lookup reqId = some probe → probe.result = some r →
    P probe r

/-- The property is kept when a hit with recurrent states is cut back to one of its
checkpoints. -/
structure Shrinks (cfg : LeaseConfig Hash) (P : QueryProbe Hash → ShardedQueryReady → Prop) :
    Prop where
  tail_le : ∀ {probe r}, P probe r → probe.tailTokens ≤ cfg.ctx.virtualBlockSize
  shrink : ∀ {probe r hold hold' blocks}, P probe r → r.recurrentHold = some hold →
    blocks ≤ r.numHitBlocks →
    P { probe with result := some { r with numHitBlocks := blocks, recurrentHold := some hold' } }
      { r with numHitBlocks := blocks, recurrentHold := some hold' }

section Poll

variable {cfg : LeaseConfig Hash} {s s' : Connector Hash} {request : Request Hash}
  {probe : QueryProbe Hash} {r : ShardedQueryReady}
  {P : QueryProbe Hash → ShardedQueryReady → Prop}

theorem Probed.calm (h : Probed P s) (hcalm : Calm s s') : Probed P s' :=
  fun reqId probe r hlookup => h reqId probe r (hcalm.probes reqId probe hlookup)

theorem Probed.setProbe (h : Probed P s) (reqId : String)
    (hprobe : ∀ r, probe.result = some r → P probe r) : Probed P (s.setProbe reqId probe) := by
  intro reqId' probe' r hlookup hresult
  rcases of_lookup_insert hlookup with ⟨rfl, rfl⟩ | ⟨-, hlookup⟩
  · exact hprobe r hresult
  · exact h reqId' probe' r hlookup hresult

theorem hitTokens_le (htail : probe.tailTokens ≤ cfg.ctx.virtualBlockSize) :
    hitTokens cfg request probe r ≤ r.numHitBlocks * (cfg.ctx.virtualBlockSize : ℤ) := by
  have hlast : ∀ last : ℤ, last ≤ cfg.ctx.virtualBlockSize →
      ((r.numHitBlocks : ℤ) - 1) * cfg.ctx.virtualBlockSize + last ≤
        r.numHitBlocks * (cfg.ctx.virtualBlockSize : ℤ) := by
    intro last hle
    rw [Int.sub_mul]
    omega
  refine Int.le_trans (Int.min_le_left _ _) (hlast _ ?_)
  split
  · exact_mod_cast htail
  · exact Int.le_refl _

/-- The tokens a lookup has offered with a probe. -/
structure Offered (cfg : LeaseConfig Hash) (request : Request Hash) (probe : QueryProbe Hash)
    (r : ShardedQueryReady) (tokens : ℤ) : Prop where
  pos : 0 < tokens
  eq : r.recurrentHold = none ∧ tokens = hitTokens cfg request probe r ∨
    r.recurrentHold ≠ none ∧ tokens = r.numHitBlocks * (cfg.ctx.virtualBlockSize : ℤ)

/-- The outcome of a poll: the property is kept, and tokens are offered with the probe of the
query. -/
structure Polled (cfg : LeaseConfig Hash) (P : QueryProbe Hash → ShardedQueryReady → Prop)
    (request : Request Hash) (computedBlocks : ℕ) (queryHashes : List Hash) (tailTokens : ℕ)
    (out : Except String (Option ℤ × Bool) × Connector Hash) : Prop where
  probed : Probed P out.2
  offered : ∀ tokens, out.1 = .ok (some tokens, true) →
    ∃ probe r, out.2.pendingQueryProbes.lookup request.requestId = some probe ∧
      probe.result = some r ∧ probe.computedBlocks = computedBlocks ∧
      probe.queryHashes = queryHashes ∧ probe.tailTokens = tailTokens ∧
      Offered cfg request probe r tokens

theorem polled_settle (h : Probed P s)
    (hlookup : s.pendingQueryProbes.lookup request.requestId = some probe)
    (hresult : probe.result = some r) {tokens : ℤ}
    (htokens : r.recurrentHold = none ∧ tokens = hitTokens cfg request probe r ∨
      r.recurrentHold ≠ none ∧ tokens = r.numHitBlocks * (cfg.ctx.virtualBlockSize : ℤ)) :
    Polled cfg P request probe.computedBlocks probe.queryHashes probe.tailTokens
      (s.settle cfg request.requestId tokens) := by
  refine ⟨h.calm (calm_settle cfg s _ tokens), ?_⟩
  unfold Connector.settle
  split
  · rintro _ ⟨⟩
  · next hpos =>
    rintro _ ⟨⟩
    exact ⟨probe, r, hlookup, hresult, rfl, rfl, rfl, ⟨by omega, htokens⟩⟩

theorem polled_finishCacheLookup (hP : Shrinks cfg P) (h : Probed P s)
    (hlookup : s.pendingQueryProbes.lookup request.requestId = some probe)
    (hresult : probe.result = some r) :
    Polled cfg P request probe.computedBlocks probe.queryHashes probe.tailTokens
      (s.finishCacheLookup cfg request probe) := by
  have hprobe := h _ probe r hlookup hresult
  unfold Connector.finishCacheLookup
  rw [hresult]
  dsimp only
  split
  · next hnone => exact polled_settle h hlookup hresult (.inl ⟨hnone, rfl⟩)
  · next hold hhold =>
    split
    · exact ⟨h.calm (calm_releasePending cfg s _), by rintro _ ⟨⟩⟩
    · next checkpoint hmax =>
      -- the checkpoint is below the blocks of the hit
      have hlt := of_decide_eq_true (mem_filter.mp (max?_mem hmax)).2
      have hvbs : (0 : ℤ) < cfg.ctx.virtualBlockSize := by
        exact_mod_cast cfg.ctx.virtualBlockSize_pos
      have hle : checkpoint + 1 ≤ r.numHitBlocks := by
        have htokens : hitTokens cfg request probe r ≤ _ := hitTokens_le (hP.tail_le hprobe)
        have hdiv := Int.ediv_le_ediv hvbs htokens
        rw [Int.mul_ediv_cancel _ (Int.ne_of_gt hvbs)] at hdiv
        omega
      have hset : Probed P (s.setProbe request.requestId { probe with
          result := some { r with
            numHitBlocks := checkpoint + 1
            recurrentHold := some { hold with checkpoint } } }) := by
        refine h.setProbe _ ?_
        rintro _ ⟨⟩
        exact hP.shrink hprobe hhold hle
      exact polled_settle hset (AList.lookup_insert _) rfl (.inr ⟨some_ne_none _, rfl⟩)

theorem polled_accept (hP : Shrinks cfg P) (h : Probed P s) (hloading : probe.result = none)
    (hr : r.numHitBlocks ≤ probe.queryHashes.length →
      P { probe with result := some r, leasedBlocks := r.numHitBlocks } r) :
    Polled cfg P request probe.computedBlocks probe.queryHashes probe.tailTokens
      (s.accept cfg request probe r) := by
  by_cases hle : r.numHitBlocks ≤ probe.queryHashes.length
  · have hmark : probe.markReady r =
        .ok { probe with result := some r, leasedBlocks := r.numHitBlocks } :=
      if_neg (not_lt.mpr hle)
    rw [Connector.accept, hmark]
    have hset : Probed P (s.setProbe request.requestId
        { probe with result := some r, leasedBlocks := r.numHitBlocks }) := by
      refine h.setProbe _ ?_
      rintro _ ⟨⟩
      exact hr hle
    exact polled_finishCacheLookup hP hset (AList.lookup_insert _) rfl
  · rw [Connector.accept, QueryProbe.markReady, if_pos (not_le.mp hle)]
    refine ⟨h.setProbe _ ?_, by rintro _ ⟨⟩⟩
    rw [hloading]
    rintro _ ⟨⟩

variable {computedBlocks tailTokens : ℕ} {queryHashes : List Hash}

theorem deriveTailBlock_lt {cfg : SchedulerConfig Hash} {key : Hash}
    (h : cfg.deriveTailBlock request = .ok (some (key, tailTokens))) :
    tailTokens < cfg.ctx.virtualBlockSize := by
  unfold SchedulerConfig.deriveTailBlock at h
  dsimp only at h
  split at h
  · cases h
  · split at h
    · cases h
    · split at h
      · cases h
      · obtain ⟨hashes, -, h⟩ := bind_ok h
        split at h
        · cases h
        · obtain ⟨-, rfl⟩ := Prod.mk.inj (some.inj (Except.ok.inj h))
          exact Nat.mod_lt _ cfg.ctx.virtualBlockSize_pos

theorem of_buildQuery {cfg : SchedulerConfig Hash}
    (h : cfg.buildQuery request computedBlocks = .ok (queryHashes, tailTokens)) :
    (∃ hashes, requestBlockHashes cfg.ctx request none = .ok hashes) ∧
      tailTokens < cfg.ctx.virtualBlockSize := by
  obtain ⟨hashes, hhashes, h⟩ := bind_ok h
  refine ⟨⟨hashes, hhashes⟩, ?_⟩
  split at h
  · obtain ⟨-, rfl⟩ := Prod.mk.inj (Except.ok.inj h)
    exact cfg.ctx.virtualBlockSize_pos
  · obtain ⟨tail, htail, h⟩ := bind_ok h
    rcases tail with _ | ⟨key, tokens⟩
    · obtain ⟨-, rfl⟩ := Prod.mk.inj (Except.ok.inj h)
      exact cfg.ctx.virtualBlockSize_pos
    · obtain ⟨-, rfl⟩ := Prod.mk.inj (Except.ok.inj h)
      exact deriveTailBlock_lt htail

variable [DecidableEq Hash]

/-- A poll that asks the backend.  The result of its lookup has to meet the property only if the
calls of the poll are those of the lookup, and a probe that was loading is for the same hashes. -/
theorem polled_askBackend (hP : Shrinks cfg P) (h : Probed P s)
    (hloading : ∀ probe, s.pendingQueryProbes.lookup request.requestId = some probe →
      probe.result = none)
    (hnew : ∀ r, (∀ probe, s.pendingQueryProbes.lookup request.requestId = some probe →
        probe.queryHashes = queryHashes) →
      ((countAvailableBlockPrefix cfg request computedBlocks queryHashes).run
        QueryReply.leased s.ledger).1 = .ok (some r) →
      (s.askBackend cfg request computedBlocks queryHashes tailTokens).2.ledger.log =
        ((countAvailableBlockPrefix cfg request computedBlocks queryHashes).run
          QueryReply.leased s.ledger).2.log →
      P { computedBlocks, queryHashes, tailTokens, result := some r
          leasedBlocks := r.numHitBlocks } r) :
    Polled cfg P request computedBlocks queryHashes tailTokens
      (s.askBackend cfg request computedBlocks queryHashes tailTokens) := by
  obtain ⟨probe, hprobe, hold, hcases⟩ :=
    askBackend_cases cfg s request computedBlocks queryHashes tailTokens hloading
  rcases hcases _ _ rfl with
    ⟨e, -, heq⟩ | ⟨-, heq⟩ | ⟨ready, hready, heq | ⟨⟨rfl, rfl, rfl⟩, heq⟩⟩ <;>
    rw [heq] at hnew ⊢
  · exact ⟨h, by rintro _ ⟨⟩⟩
  · refine ⟨Probed.setProbe (s := (s.runFor _ _).2) h _ ?_, by rintro _ ⟨⟩⟩
    rw [hprobe]
    rintro _ ⟨⟩
  · exact ⟨fun reqId probe r hlookup => h reqId probe r (of_lookup_erase hlookup).2,
      by rintro _ ⟨⟩⟩
  · refine polled_accept (s := (s.runFor _ _).2) hP h hprobe fun _ => hnew ready ?_ hready ?_
    · exact fun old h => congrArg QueryProbe.queryHashes (hold old h)
    · exact (ledger_accept ..).2

/-- **A poll** keeps what holds of all ready probes, if it holds of what its lookup returns, and
offers tokens with the probe of the query. -/
theorem polled_getNumNewMatchedTokens (hP : Shrinks cfg P) (h : Probed P s)
    (request : Request Hash) (numComputedTokens : ℕ)
    (hnew : ∀ s', Calm s s' → ∀ queryHashes tailTokens r,
      cfg.buildQuery request (numComputedTokens / cfg.ctx.virtualBlockSize) =
        .ok (queryHashes, tailTokens) →
      (∀ probe, s.pendingQueryProbes.lookup request.requestId = some probe →
        probe.result = none → probe.queryHashes = queryHashes) →
      let run := (countAvailableBlockPrefix cfg request
        (numComputedTokens / cfg.ctx.virtualBlockSize) queryHashes).run QueryReply.leased s'.ledger
      run.1 = .ok (some r) →
      (s.getNumNewMatchedTokens cfg request numComputedTokens).2.ledger.log = run.2.log →
      P { computedBlocks := numComputedTokens / cfg.ctx.virtualBlockSize, queryHashes, tailTokens
          result := some r, leasedBlocks := r.numHitBlocks } r) :
    ∃ queryHashes tailTokens,
      Polled cfg P request (numComputedTokens / cfg.ctx.virtualBlockSize) queryHashes tailTokens
        (s.getNumNewMatchedTokens cfg request numComputedTokens) ∧
      ∀ tokens, (s.getNumNewMatchedTokens cfg request numComputedTokens).1 =
          .ok (some tokens, true) →
        cfg.buildQuery request (numComputedTokens / cfg.ctx.virtualBlockSize) =
          .ok (queryHashes, tailTokens) := by
  have hcalm : ∀ s' ∈ [s, s.releasePendingQueryProbe cfg request.requestId], Calm s s' :=
    forall_mem_cons.mpr ⟨.refl s, forall_mem_singleton.mpr (calm_releasePending cfg s _)⟩
  rcases getNumNewMatchedTokens_cases cfg s request numComputedTokens with
    ⟨hs', hno⟩ | ⟨queryHashes, tailTokens, hquery, hcases⟩
  · exact ⟨[], 0, ⟨h.calm (hcalm _ hs'), fun tokens hoffer => absurd hoffer (hno tokens)⟩,
      fun tokens hoffer => absurd hoffer (hno tokens)⟩
  · refine ⟨queryHashes, tailTokens, ?_, fun _ _ => hquery⟩
    rcases hcases with ⟨s', hs', hloading, hsame, heq⟩ |
      ⟨probe, r, hlookup, hresult, ⟨hcomputed, rfl, rfl⟩, heq⟩
    · have hnew' := hnew s' (hcalm s' hs') queryHashes tailTokens
      rw [heq] at hnew' ⊢
      refine polled_askBackend hP (h.calm (hcalm s' hs')) hloading fun r hhashes =>
        hnew' r hquery fun probe hlookup hnone => hhashes probe ?_
      rwa [hsame probe hlookup hnone]
    · rw [heq, ← hcomputed]
      exact polled_finishCacheLookup hP h hlookup hresult

/-- A poll adds its calls to the log, and hands out a lease for every answer that comes with
one. -/
theorem exists_log_getNumNewMatchedTokens (cfg : LeaseConfig Hash) (s : Connector Hash)
    (request : Request Hash) (numComputedTokens : ℕ) :
    ∃ log, (s.getNumNewMatchedTokens cfg request numComputedTokens).2.ledger.log =
        s.ledger.log ++ log ∧
      (s.getNumNewMatchedTokens cfg request numComputedTokens).2.ledger.handed =
        s.ledger.handed + log.countP fun e => e.2.leased := by
  have hcalm : ∀ s' ∈ [s, s.releasePendingQueryProbe cfg request.requestId], Calm s s' :=
    forall_mem_cons.mpr ⟨.refl s, forall_mem_singleton.mpr (calm_releasePending cfg s _)⟩
  have hsame : ∀ {s' : Connector Hash}, s'.ledger.log = s.ledger.log →
      s'.ledger.handed = s.ledger.handed → ∃ log, s'.ledger.log = s.ledger.log ++ log ∧
        s'.ledger.handed = s.ledger.handed + log.countP fun e => e.2.leased :=
    fun hlog hhanded => ⟨[], by rw [hlog, append_nil], by rw [hhanded, countP_nil, Nat.add_zero]⟩
  rcases getNumNewMatchedTokens_cases cfg s request numComputedTokens with
    ⟨hs', -⟩ | ⟨queryHashes, tailTokens, -, ⟨s', hs', hloading, -, heq⟩ | ⟨probe, r, -, -, -, heq⟩⟩
  · exact hsame (hcalm _ hs').log (hcalm _ hs').handed
  · rw [heq, ← (hcalm s' hs').log, ← (hcalm s' hs').handed]
    obtain ⟨probe, -, -, hcases⟩ := askBackend_cases cfg s' request
      (numComputedTokens / cfg.ctx.virtualBlockSize) queryHashes tailTokens hloading
    have hlog := Prog.exists_log_run QueryReply.leased (countAvailableBlockPrefix cfg request
      (numComputedTokens / cfg.ctx.virtualBlockSize) probe.queryHashes) s'.ledger
    rcases hcases _ _ rfl with ⟨e, -, heq⟩ | ⟨-, heq⟩ | ⟨ready, -, heq | ⟨-, heq⟩⟩ <;> rw [heq]
    · exact hlog
    · exact hlog
    · rwa [run_releaseLeaseSet]
    · rw [(ledger_accept ..).1, (ledger_accept ..).2]
      exact hlog
  · rw [heq]
    exact hsame (ledger_finishCacheLookup ..).2 (ledger_finishCacheLookup ..).1

end Poll

end Leases

end PegaFlow
