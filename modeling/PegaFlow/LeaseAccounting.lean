/-
PegaFlow/LeaseAccounting.lean

Every lease of the scheduler connector is accounted for.
-/
import PegaFlow.KeyedSums
import PegaFlow.LeaseConnector
import PegaFlow.Run

namespace PegaFlow

open List Option

namespace Leases

variable {Hash : Type}

/-! ### Accounts -/

/-- Each lease that is due was released once or is in one intent, and not both. -/
def Accounted (s : Connector Hash) : Prop :=
  ∀ lease ∈ s.due, s.ledger.released.count lease +
    s.intents.countP (fun intent => intent.Mentions lease) = 1

instance (s : Connector Hash) : Decidable (Accounted s) :=
  inferInstanceAs (Decidable (∀ lease ∈ s.due, _))

/-- The answers to a poll are clean, and no pending intent is overwritten. -/
def Careful [DecidableEq Hash] (cfg : LeaseConfig Hash) (s : Connector Hash) :
    Action Hash → Prop
  | .getNumNewMatchedTokens request numComputedTokens replies =>
      ∀ e ∈ ((s.withReplies replies).getNumNewMatchedTokens cfg request
        numComputedTokens).2.ledger.log, Clean e.1 e.2
  | .updateStateAfterAlloc request _ _ => s.pendingLoadIntents.lookup request.requestId = none
  | _ => True

instance [DecidableEq Hash] (cfg : LeaseConfig Hash) (s : Connector Hash) :
    (a : Action Hash) → Decidable (Careful cfg s a)
  | .getNumNewMatchedTokens .. => inferInstanceAs (Decidable (∀ e ∈ _, Clean _ _))
  | .updateStateAfterAlloc .. => inferInstanceAs (Decidable (_ = none))
  | .requestFinished _ | .updateConnectorOutput _ | .buildConnectorMeta _ | .shutdown =>
      inferInstanceAs (Decidable True)

/-! ### Leases in a result -/

variable (cfg : LeaseConfig Hash) {probe : QueryProbe Hash}

section LeaseSet

variable {n : ℕ} {r : LeaseSet}

theorem LeaseSet.Kept.mem_toRelease (h : r.Kept n) {leases : LeaseTuple} :
    leases ∈ r.toRelease ↔ leases ∈ r.tuples := by
  rw [LeaseSet.toRelease, LeaseSet.tuples, ← cons_append, mem_append, mem_append]
  refine or_congr_left ?_
  rcases hgroups : r.leasesByGroup with _ | byGroup
  · exact Iff.rfl
  · rw [mem_dedup, mem_cons]
    refine ⟨.inr, ?_⟩
    rintro (rfl | hmem)
    · exact h.leases_mem byGroup hgroups
    · exact hmem

theorem LeaseSet.Kept.mem_owned (h : r.Kept n) (lease : ℕ) :
    lease ∈ r.owned n ↔ ∃ leases ∈ r.tuples, some lease ∈ leases := by
  rw [LeaseSet.owned, heldAll, mem_flatMap]
  refine exists_congr fun leases => ?_
  rw [h.mem_toRelease]
  refine and_congr_right fun hleases => ?_
  rw [held_of_le (h.length_le leases hleases), reduceOption_mem_iff]

theorem run_releaseAll (tuples : List LeaseTuple) (w : Ledger QueryCall QueryReply) :
    (releaseAll cfg tuples).run QueryReply.leased w =
      (.ok (), { w with released := w.released ++ heldAll cfg.numShards tuples }) := by
  induction tuples generalizing w with
  | nil =>
    show (Except.ok (), w) = _
    rw [heldAll, flatMap_nil, append_nil]
  | cons leases tuples ih =>
    have hrest := ih { w with released := w.released ++ held cfg.numShards leases }
    refine hrest.trans ?_
    simp only [heldAll, flatMap_cons, append_assoc]

theorem run_releaseLeaseSet (r : LeaseSet) (w : Ledger QueryCall QueryReply) :
    ((releaseLeaseSet cfg r).run QueryReply.leased w).2 =
      { w with released := w.released ++ r.owned cfg.numShards } :=
  congrArg Prod.snd (run_releaseAll cfg r.toRelease w)

end LeaseSet

/-! ### The partition of leases -/

section Tokens

variable {n : ℕ} {probes : AList fun _ : String => QueryProbe Hash} {reqId : String}

/-- The leases of all probes. -/
def probeTokens (n : ℕ) (probes : AList fun _ : String => QueryProbe Hash) : List ℕ :=
  probes.entries.flatMap fun e => e.2.leaseSet.owned n

/-- The leases of the probe of one request. -/
def ownedAt (n : ℕ) (probes : AList fun _ : String => QueryProbe Hash) (reqId : String) : List ℕ :=
  ((probes.lookup reqId).map fun probe => probe.leaseSet.owned n).getD []

theorem mem_probeTokens {lease : ℕ} :
    lease ∈ probeTokens n probes ↔
      ∃ reqId probe, probes.lookup reqId = some probe ∧ lease ∈ probe.leaseSet.owned n := by
  rw [probeTokens, mem_flatMap]
  constructor
  · rintro ⟨⟨reqId, probe⟩, hmem, hlease⟩
    exact ⟨reqId, probe, AList.mem_lookup_iff.mpr hmem, hlease⟩
  · rintro ⟨reqId, probe, hlookup, hlease⟩
    exact ⟨⟨reqId, probe⟩, AList.mem_lookup_iff.mp hlookup, hlease⟩

theorem probeTokens_perm (n : ℕ) (probes : AList fun _ : String => QueryProbe Hash)
    (reqId : String) :
    (probeTokens n probes).Perm (ownedAt n probes reqId ++ probeTokens n (probes.erase reqId)) := by
  by_cases hmem : reqId ∈ probes.keys
  · obtain ⟨probe, l₁, l₂, -, hentries, herase⟩ := exists_of_kerase hmem
    have hlookup : probes.lookup reqId = some probe := by
      refine AList.mem_lookup_iff.mpr ?_
      rw [hentries]
      exact mem_append_right _ mem_cons_self
    have herase' : (probes.erase reqId).entries = l₁ ++ l₂ := herase
    rw [ownedAt, hlookup, probeTokens, probeTokens, herase', hentries,
      flatMap_append, flatMap_append, flatMap_cons]
    exact perm_append_comm_assoc _ _ _
  · have hlookup : probes.lookup reqId = none := AList.lookup_eq_none.mpr hmem
    have herase : (probes.erase reqId).entries = probes.entries :=
      kerase_of_notMem_keys hmem
    rw [ownedAt, hlookup, probeTokens, probeTokens, herase]
    exact .refl _

theorem leaseSet_of_loading (h : probe.result = none) :
    probe.leaseSet.owned n = [] ∧ probe.leaseSet.Kept n := by
  rw [QueryProbe.leaseSet, h]
  refine ⟨?_, ?_, ?_⟩
  · show held n [] ++ [] = []
    rw [held_nil, append_nil]
  · intro leases hleases
    rw [mem_singleton.mp hleases]
    exact Nat.zero_le _
  · exact fun _ hno => absurd hno (some_ne_none _).symm

end Tokens

/-- Every lease was released, is in an intent, in a probe, or is one of the `floating` ones of
the request that is being served.  Probes hold leases of their own request, and no lease that is
due is in a probe. -/
structure Inv (floating : List ℕ) (reqId : String) (s : Connector Hash) : Prop where
  owner_length : s.owner.length = s.ledger.handed
  balanced : (s.ledger.released ++ (s.intents.flatMap (fun i => i.owned cfg.numShards) ++
    (floating ++ probeTokens cfg.numShards s.pendingQueryProbes))).Perm
      (range s.ledger.handed)
  probe_kept : ∀ q probe, s.pendingQueryProbes.lookup q = some probe →
    probe.leaseSet.Kept cfg.numShards ∧
      ∀ lease ∈ probe.leaseSet.owned cfg.numShards, s.owner[lease]? = some q
  floating_owner : ∀ lease ∈ floating, s.owner[lease]? = some reqId
  intent_kept : ∀ intent ∈ s.intents, intent.toLeaseSet.Kept cfg.numShards
  due_lt : ∀ lease ∈ s.due, lease < s.ledger.handed
  due_free : ∀ lease ∈ s.due,
    lease ∉ floating ∧ lease ∉ probeTokens cfg.numShards s.pendingQueryProbes

theorem inv_init (reqId : String) : Inv cfg [] reqId Connector.init where
  owner_length := rfl
  balanced := .refl _
  probe_kept q probe h := absurd h (by simp [Connector.init])
  floating_owner lease h := absurd h not_mem_nil
  intent_kept intent h := absurd h not_mem_nil
  due_lt lease h := absurd h not_mem_nil
  due_free lease h := absurd h not_mem_nil

section Moves

variable {cfg : LeaseConfig Hash} {s : Connector Hash} {floating : List ℕ} {reqId : String}

theorem Inv.of_nil (h : Inv cfg [] reqId s) (reqId' : String) : Inv cfg [] reqId' s :=
  { h with floating_owner := fun _ hmem => absurd hmem not_mem_nil }

theorem Inv.pop (h : Inv cfg floating reqId s) :
    Inv cfg (ownedAt cfg.numShards s.pendingQueryProbes reqId ++ floating) reqId
      { s with pendingQueryProbes := s.pendingQueryProbes.erase reqId } := by
  have hperm := probeTokens_perm cfg.numShards s.pendingQueryProbes reqId
  refine { h with balanced := ?_, probe_kept := ?_, floating_owner := ?_, due_free := ?_ }
  · refine List.Perm.trans ?_ h.balanced
    refine (List.Perm.append_left _ (List.Perm.append_left _ ?_))
    rw [append_assoc]
    exact (perm_append_comm_assoc _ _ _).trans (hperm.symm.append_left _)
  · exact fun q probe hq => h.probe_kept q probe (of_lookup_erase hq).2
  · intro lease hlease
    rcases mem_append.mp hlease with hold | hfloat
    · rcases hlookup : s.pendingQueryProbes.lookup reqId with _ | probe
      · rw [ownedAt, hlookup] at hold
        exact absurd hold not_mem_nil
      · rw [ownedAt, hlookup] at hold
        exact (h.probe_kept reqId probe hlookup).2 lease hold
    · exact h.floating_owner lease hfloat
  · intro lease hdue
    obtain ⟨hfloat, htokens⟩ := h.due_free lease hdue
    rw [hperm.mem_iff, mem_append, not_or] at htokens
    refine ⟨?_, htokens.2⟩
    rw [mem_append, not_or]
    exact ⟨htokens.1, hfloat⟩

theorem Inv.release (h : Inv cfg floating reqId s) :
    Inv cfg [] reqId
      { s with ledger := { s.ledger with released := s.ledger.released ++ floating } } := by
  refine { h with balanced := ?_, floating_owner := ?_, due_free := ?_ }
  · refine List.Perm.trans ?_ h.balanced
    rw [append_assoc]
    exact List.Perm.append_left _ (perm_append_comm_assoc _ _ _)
  · exact fun _ hmem => absurd hmem not_mem_nil
  · exact fun lease hdue => ⟨not_mem_nil, (h.due_free lease hdue).2⟩

theorem Inv.store (h : Inv cfg floating reqId
      { s with pendingQueryProbes := s.pendingQueryProbes.erase reqId })
    (howned : probe.leaseSet.owned cfg.numShards = floating)
    (hkept : probe.leaseSet.Kept cfg.numShards) : Inv cfg [] reqId (s.setProbe reqId probe) := by
  have htokens : probeTokens cfg.numShards (s.pendingQueryProbes.insert reqId probe) =
      floating ++ probeTokens cfg.numShards (s.pendingQueryProbes.erase reqId) :=
    congrArg (· ++ _) howned
  refine { h with balanced := ?_, probe_kept := ?_, floating_owner := ?_, due_free := ?_ }
  · show (s.ledger.released ++ (_ ++ ([] ++
      probeTokens cfg.numShards (s.pendingQueryProbes.insert reqId probe)))).Perm _
    rw [htokens]
    exact h.balanced
  · intro q probe' hq
    rcases of_lookup_insert hq with ⟨rfl, rfl⟩ | ⟨hne, hq⟩
    · exact ⟨hkept, fun lease hlease => h.floating_owner lease (howned ▸ hlease)⟩
    · exact h.probe_kept q probe' ((AList.lookup_erase_ne hne).trans hq)
  · exact fun _ hmem => absurd hmem not_mem_nil
  · intro lease hdue
    refine ⟨not_mem_nil, ?_⟩
    show lease ∉ probeTokens cfg.numShards (s.pendingQueryProbes.insert reqId probe)
    rw [htokens, mem_append, not_or]
    exact h.due_free lease hdue

theorem Inv.handOver {intent : LoadIntent} (h : Inv cfg floating reqId s)
    (howned : intent.owned cfg.numShards = floating) (hkept : intent.toLeaseSet.Kept cfg.numShards)
    (hnew : s.pendingLoadIntents.lookup reqId = none) :
    Inv cfg [] reqId
      { s with pendingLoadIntents := s.pendingLoadIntents.insert reqId intent } := by
  have hintents : ({ s with
      pendingLoadIntents := s.pendingLoadIntents.insert reqId intent } : Connector Hash).intents =
      intent :: s.intents := by
    rw [Connector.intents, AList.entries_insert_of_notMem (AList.lookup_eq_none.mp hnew)]
    rfl
  refine { h with balanced := ?_, floating_owner := ?_, intent_kept := ?_, due_free := ?_ }
  · rw [hintents, flatMap_cons, howned]
    refine List.Perm.trans ?_ h.balanced
    rw [append_assoc]
    exact List.Perm.append_left _ (perm_append_comm_assoc _ _ _)
  · exact fun _ hmem => absurd hmem not_mem_nil
  · intro i hi
    rw [hintents] at hi
    rcases mem_cons.mp hi with rfl | hi
    · exact hkept
    · exact h.intent_kept i hi
  · exact fun lease hdue => ⟨not_mem_nil, (h.due_free lease hdue).2⟩

theorem Inv.runFor {α : Type} {m : Rpc α} {owned : α → List ℕ} {post : α → Prop}
    (h : Inv cfg [] reqId s) (hm : Keeps (fun c reply _ => Clean c reply) cfg m [] owned post True)
    (hlog : ∀ e ∈ (s.runFor reqId m).2.ledger.log, Clean e.1 e.2) :
    ∃ B, Spec.Returns (Fair (fun c reply _ => Clean c reply) cfg) owned post True
      (s.runFor reqId m).1 B ∧ Inv cfg B reqId (s.runFor reqId m).2 := by
  obtain ⟨log, hsplit, -⟩ := Prog.exists_log_run QueryReply.leased m s.ledger
  have hclean : ∀ e ∈ log, Clean e.1 e.2 := fun e he =>
    hlog e (hsplit.symm ▸ mem_append_right _ he)
  obtain ⟨hle, given, B, hgiven, hret, hperm⟩ := Spec.run hm nodup_nil
    (fun _ hmem => absurd hmem not_mem_nil) hsplit
    (Prog.answered_of_forall (fun e he _ => hclean e he) _)
  rw [nil_append] at hperm
  obtain ⟨k, hk⟩ := Nat.exists_eq_add_of_le hle
  have hnew : ∀ lease ∈ B, s.ledger.handed ≤ lease ∧ lease < s.ledger.handed + k := by
    intro lease hlease
    have hrange := hperm.mem_iff.mp (mem_append_right given hlease)
    rw [mem_range'_1, hk, Nat.add_sub_cancel_left] at hrange
    exact hrange
  have howner : ∀ lease < s.owner.length, (s.runFor reqId m).2.owner[lease]? = s.owner[lease]? :=
    fun lease hlt => getElem?_append_left hlt
  refine ⟨B, hret, ?_⟩
  refine
    { owner_length := ?_, balanced := ?_, probe_kept := ?_, floating_owner := ?_
      intent_kept := h.intent_kept, due_lt := fun lease hdue => (h.due_lt lease hdue).trans_le hle
      due_free := ?_ }
  · show (s.owner ++ List.replicate _ reqId).length = _
    rw [length_append, length_replicate, h.owner_length]
    exact Nat.add_sub_cancel' hle
  · refine perm_iff_count.mpr fun lease => ?_
    have hold := h.balanced.count_eq lease
    have hrun := hperm.count_eq lease
    show List.count lease (((m.run QueryReply.leased s.ledger).2.released) ++ _) =
      List.count lease (List.range (m.run QueryReply.leased s.ledger).2.handed)
    have hrange : List.range (m.run QueryReply.leased s.ledger).2.handed =
        List.range s.ledger.handed ++ List.range' s.ledger.handed
          ((m.run QueryReply.leased s.ledger).2.handed - s.ledger.handed) := by
      rw [hk, Nat.add_sub_cancel_left, range_eq_range', range_eq_range']
      have happ := range'_append_1 (s := 0) (m := s.ledger.handed) (n := k)
      rw [Nat.zero_add] at happ
      exact happ.symm
    rw [hgiven, hrange]
    simp only [count_append, nil_append] at hold hrun ⊢
    show _ + (List.count lease (s.intents.flatMap _) + (_ + List.count lease
      (probeTokens cfg.numShards s.pendingQueryProbes))) = _
    omega
  · intro q probe hq
    obtain ⟨hkept, hown⟩ := h.probe_kept q probe hq
    refine ⟨hkept, fun lease hlease => ?_⟩
    have hsome := hown lease hlease
    rw [howner lease (List.getElem?_eq_some_iff.mp hsome).1]
    exact hsome
  · intro lease hlease
    obtain ⟨hge, hlt⟩ := hnew lease hlease
    show (s.owner ++ List.replicate _ reqId)[lease]? = some reqId
    rw [getElem?_append_right (by rw [h.owner_length]; exact hge), h.owner_length, hk,
      Nat.add_sub_cancel_left, getElem?_replicate, if_pos (by omega)]
  · intro lease hdue
    refine ⟨fun hmem => ?_, (h.due_free lease hdue).2⟩
    have hlt := h.due_lt lease hdue
    have hge := (hnew lease hmem).1
    omega

end Moves

/-! ### The calls keep the partition -/

/-- Nothing was asked, and probes were only dropped. -/
structure Calm (s s' : Connector Hash) : Prop where
  handed : s'.ledger.handed = s.ledger.handed
  log : s'.ledger.log = s.ledger.log
  probes : ∀ reqId probe, s'.pendingQueryProbes.lookup reqId = some probe →
    s.pendingQueryProbes.lookup reqId = some probe

theorem Calm.refl (s : Connector Hash) : Calm s s := ⟨rfl, rfl, fun _ _ h => h⟩

theorem Calm.trans {s s' s'' : Connector Hash} (h : Calm s s') (h' : Calm s' s'') : Calm s s'' :=
  ⟨h'.handed.trans h.handed, h'.log.trans h.log,
    fun reqId probe hprobe => h.probes reqId probe (h'.probes reqId probe hprobe)⟩

section Ends

variable (cfg : LeaseConfig Hash) (s : Connector Hash)

theorem calm_releasePending (reqId : String) : Calm s (s.releasePendingQueryProbe cfg reqId) := by
  unfold Connector.releasePendingQueryProbe
  split
  · exact .refl s
  · rw [run_releaseLeaseSet]
    exact ⟨rfl, rfl, fun _ _ hq => (of_lookup_erase hq).2⟩

theorem calm_settle (reqId : String) (hitTokens : ℤ) : Calm s (s.settle cfg reqId hitTokens).2 := by
  unfold Connector.settle
  split
  · exact calm_releasePending cfg s reqId
  · exact .refl s

theorem ledger_finishCacheLookup (request : Request Hash) (probe : QueryProbe Hash) :
    (s.finishCacheLookup cfg request probe).2.ledger.handed = s.ledger.handed ∧
      (s.finishCacheLookup cfg request probe).2.ledger.log = s.ledger.log := by
  have hcalm : ∀ {s' : Connector Hash}, Calm s s' →
      s'.ledger.handed = s.ledger.handed ∧ s'.ledger.log = s.ledger.log :=
    fun h => ⟨h.handed, h.log⟩
  unfold Connector.finishCacheLookup
  split
  · exact ⟨rfl, rfl⟩
  · dsimp only
    split
    · exact hcalm (calm_settle _ _ _ _)
    · split
      · exact hcalm (calm_releasePending _ _ _)
      · exact ⟨(calm_settle _ _ _ _).handed, (calm_settle _ _ _ _).log⟩

theorem ledger_accept (request : Request Hash) (probe : QueryProbe Hash)
    (ready : ShardedQueryReady) :
    (s.accept cfg request probe ready).2.ledger.handed = s.ledger.handed ∧
      (s.accept cfg request probe ready).2.ledger.log = s.ledger.log := by
  unfold Connector.accept
  split
  · exact ⟨rfl, rfl⟩
  · exact ledger_finishCacheLookup _ _ _ _

end Ends

section Calls

variable {cfg : LeaseConfig Hash} {s : Connector Hash} {reqId : String}

theorem Inv.releasePending (h : Inv cfg [] reqId s) :
    Inv cfg [] reqId (s.releasePendingQueryProbe cfg reqId) := by
  unfold Connector.releasePendingQueryProbe
  split
  · exact h
  · next probe hlookup =>
    have hpop := h.pop
    rw [ownedAt, hlookup, append_nil] at hpop
    rw [run_releaseLeaseSet]
    exact hpop.release

theorem lookup_releasePending (cfg : LeaseConfig Hash) (s : Connector Hash) (reqId : String) :
    (s.releasePendingQueryProbe cfg reqId).pendingQueryProbes.lookup reqId = none := by
  unfold Connector.releasePendingQueryProbe
  split
  · assumption
  · exact AList.lookup_erase _ _

theorem Inv.settle (h : Inv cfg [] reqId s) (hitTokens : ℤ) :
    Inv cfg [] reqId (s.settle cfg reqId hitTokens).2 := by
  unfold Connector.settle
  split
  · exact h.releasePending
  · exact h

variable {request : Request Hash} {probe : QueryProbe Hash} {q : String}

theorem Inv.finishCacheLookup (h : Inv cfg [] request.requestId s)
    (hprobe : s.pendingQueryProbes.lookup request.requestId = some probe) :
    Inv cfg [] request.requestId (s.finishCacheLookup cfg request probe).2 := by
  unfold Connector.finishCacheLookup
  split
  · exact h
  · next r hresult =>
    dsimp only
    split
    · exact h.settle _
    · next hold hhold =>
      split
      · exact h.releasePending
      · next checkpoint _ =>
        have hpop := h.pop
        rw [ownedAt, hprobe, append_nil] at hpop
        have hset : probe.leaseSet = r.toLeaseSet := by
          rw [QueryProbe.leaseSet, hresult]
          rfl
        have hkept := (h.probe_kept _ probe hprobe).1
        rw [hset] at hkept
        refine Inv.settle (hpop.store ?_ ⟨?_, ?_⟩) _
        · show LeaseSet.owned _ _ = LeaseSet.owned _ probe.leaseSet
          rw [hset, LeaseSet.owned, LeaseSet.owned, LeaseSet.toRelease, LeaseSet.toRelease, hhold]
          rfl
        · intro leases hleases
          refine hkept.length_le leases ?_
          rw [LeaseSet.tuples, hhold]
          exact hleases
        · exact fun byGroup => hkept.leases_mem byGroup

theorem Inv.accept {ready : ShardedQueryReady}
    (h : Inv cfg (ready.owned cfg.numShards) request.requestId
      { s with pendingQueryProbes := s.pendingQueryProbes.erase request.requestId })
    (hready : ready.Kept cfg probe.queryHashes.length) :
    Inv cfg [] request.requestId (s.accept cfg request probe ready).2 := by
  have hmark : probe.markReady ready =
      .ok { probe with result := some ready, leasedBlocks := ready.numHitBlocks } :=
    if_neg (not_lt.mpr hready.numHitBlocks_le)
  rw [Connector.accept, hmark]
  exact Inv.finishCacheLookup (h.store rfl hready.kept) (AList.lookup_insert _)

section

variable (h : Inv cfg [] reqId s)
include h

theorem Inv.cleanupRequest : Inv cfg [] reqId (s.cleanupRequest cfg reqId) := by
  have hrel := h.releasePending
  have hnone := lookup_releasePending cfg s reqId
  unfold Connector.cleanupRequest
  generalize s.releasePendingQueryProbe cfg reqId = s' at hrel hnone
  have hnew : ∀ lease ∈ (range s'.owner.length).filter
      (fun lease => s'.owner[lease]? = some reqId),
      lease < s'.ledger.handed ∧ s'.owner[lease]? = some reqId := by
    intro lease hlease
    obtain ⟨hlt, howner⟩ := mem_filter.mp hlease
    rw [hrel.owner_length] at hlt
    exact ⟨mem_range.mp hlt, by simpa using howner⟩
  refine { hrel with due_lt := ?_, due_free := ?_ }
  · intro lease hdue
    rcases mem_append.mp hdue with hdue | hdue
    · exact hrel.due_lt lease hdue
    · exact (hnew lease hdue).1
  · intro lease hdue
    refine ⟨not_mem_nil, ?_⟩
    rcases mem_append.mp hdue with hdue | hdue
    · exact (hrel.due_free lease hdue).2
    · intro htoken
      obtain ⟨q, probe, hlookup, hlease⟩ := mem_probeTokens.mp htoken
      have howner := (hrel.probe_kept q probe hlookup).2 lease hlease
      rw [(hnew lease hdue).2] at howner
      have hq : s'.pendingQueryProbes.lookup q = some probe := hlookup
      rw [← some.inj howner, hnone] at hq
      exact absurd hq (some_ne_none _).symm

theorem Inv.requestFinished : Inv cfg [] reqId (s.requestFinished cfg reqId) := by
  unfold Connector.requestFinished
  split
  · exact { h with }
  · exact h.cleanupRequest

theorem Inv.savesFinished : Inv cfg [] reqId (s.savesFinished cfg reqId) := by
  unfold Connector.savesFinished
  dsimp only
  split
  · exact { Inv.cleanupRequest (s := { s with
      pendingSaves := s.pendingSaves.filter (· ≠ reqId) }) { h with } with }
  · exact { h with }

theorem Inv.updateConnectorOutput (finishedSending : List String) :
    Inv cfg [] reqId (s.updateConnectorOutput cfg finishedSending) :=
  foldlRecOn finishedSending _ h fun _ hs q _ => (hs.of_nil q).savesFinished.of_nil reqId

theorem Inv.buildConnectorMeta (saves : List String) :
    Inv cfg [] reqId (s.buildConnectorMeta saves) :=
  { h with }

end

theorem lookup_releasePending_of_none (h : s.pendingQueryProbes.lookup q = none) (reqId : String) :
    (s.releasePendingQueryProbe cfg reqId).pendingQueryProbes.lookup q = none := by
  by_cases heq : q = reqId
  · rw [heq]
    exact lookup_releasePending cfg s reqId
  · unfold Connector.releasePendingQueryProbe
    split
    · exact h
    · exact (AList.lookup_erase_ne heq).trans h

theorem lookup_releaseAllPending {keys : List String}
    (h : q ∈ keys ∨ s.pendingQueryProbes.lookup q = none) :
    (keys.foldl (Connector.releasePendingQueryProbe cfg) s).pendingQueryProbes.lookup q = none := by
  induction keys generalizing s with
  | nil => exact h.resolve_left not_mem_nil
  | cons key keys ih =>
    refine ih ?_
    rcases h with hmem | hnone
    · rcases mem_cons.mp hmem with rfl | hmem
      · exact .inr (lookup_releasePending cfg s q)
      · exact .inl hmem
    · exact .inr (lookup_releasePending_of_none hnone key)

theorem Inv.releaseAllPending (h : Inv cfg [] reqId s) (keys : List String) :
    Inv cfg [] reqId (keys.foldl (Connector.releasePendingQueryProbe cfg) s) :=
  foldlRecOn keys _ h fun _ hs key _ => (hs.of_nil key).releasePending.of_nil reqId

theorem Inv.shutdown (h : Inv cfg [] reqId s) : Inv cfg [] reqId (s.shutdown cfg) := by
  have hrel := h.releaseAllPending s.pendingQueryProbes.keys
  have hnone : ∀ q, (s.pendingQueryProbes.keys.foldl (Connector.releasePendingQueryProbe cfg)
      s).pendingQueryProbes.lookup q = none := by
    intro q
    refine lookup_releaseAllPending ?_
    by_cases hmem : q ∈ s.pendingQueryProbes
    · exact .inl (AList.mem_keys.mp hmem)
    · exact .inr (AList.lookup_eq_none.mpr hmem)
  unfold Connector.shutdown
  refine { hrel with due_lt := fun lease hdue => mem_range.mp hdue, due_free := ?_ }
  intro lease _
  refine ⟨not_mem_nil, fun htoken => ?_⟩
  obtain ⟨q, probe, hlookup, -⟩ := mem_probeTokens.mp htoken
  exact absurd ((hnone q).symm.trans hlookup) (some_ne_none _).symm

variable [DecidableEq Hash]

/-- What asking the backend can do, with no probe or one that is loading: the lookup raises, waits,
or returns a result, which is dropped if the query drifted. -/
theorem askBackend_cases (cfg : LeaseConfig Hash) (s : Connector Hash) (request : Request Hash)
    (computedBlocks : ℕ) (queryHashes : List Hash) (tailTokens : ℕ)
    (hloading : ∀ probe, s.pendingQueryProbes.lookup request.requestId = some probe →
      probe.result = none) :
    ∃ probe, probe.result = none ∧
      (∀ old, s.pendingQueryProbes.lookup request.requestId = some old → old = probe) ∧
      ∀ result s₁, s.runFor request.requestId
        (countAvailableBlockPrefix cfg request computedBlocks probe.queryHashes) = (result, s₁) →
      let out := s.askBackend cfg request computedBlocks queryHashes tailTokens
      (∃ e, result = .error e ∧ out = (.error e, s₁)) ∨
      (result = .ok none ∧ out = (.ok (none, false), s₁.setProbe request.requestId probe)) ∨
      ∃ ready, result = .ok (some ready) ∧
        (out = (.ok (none, false), { s₁ with
            pendingQueryProbes := s₁.pendingQueryProbes.erase request.requestId
            ledger := ((releaseLeaseSet cfg ready.toLeaseSet).run
              QueryReply.leased s₁.ledger).2 }) ∨
          (probe.computedBlocks = computedBlocks ∧ probe.queryHashes = queryHashes ∧
            probe.tailTokens = tailTokens) ∧ out = s₁.accept cfg request probe ready) := by
  refine ⟨_, QueryProbe.result_getD hloading { computedBlocks, queryHashes, tailTokens } rfl,
    fun old hold => by rw [hold]; rfl, fun result s₁ hrun => ?_⟩
  unfold Connector.askBackend
  dsimp only
  rw [hrun]
  match result with
  | .error e => exact .inl ⟨e, rfl, rfl⟩
  | .ok none => exact .inr (.inl ⟨rfl, rfl⟩)
  | .ok (some ready) =>
    refine .inr (.inr ⟨ready, rfl, ?_⟩)
    dsimp only
    split
    · exact .inl rfl
    · next hdrift =>
      rw [Bool.not_eq_true, Bool.not_eq_false'] at hdrift
      exact .inr ⟨of_decide_eq_true hdrift, rfl⟩

theorem Inv.askBackend (hdense : DenseStored cfg) (h : Inv cfg [] request.requestId s)
    (hloading : ∀ probe, s.pendingQueryProbes.lookup request.requestId = some probe →
      probe.result = none) (computedBlocks : ℕ) (queryHashes : List Hash) (tailTokens : ℕ)
    (hlog : ∀ e ∈ (s.askBackend cfg request computedBlocks queryHashes tailTokens).2.ledger.log,
      Clean e.1 e.2) :
    Inv cfg [] request.requestId
      (s.askBackend cfg request computedBlocks queryHashes tailTokens).2 := by
  have hempty : ownedAt cfg.numShards s.pendingQueryProbes request.requestId = [] := by
    rw [ownedAt]
    rcases hlookup : s.pendingQueryProbes.lookup request.requestId with _ | probe
    · rfl
    · exact (leaseSet_of_loading (hloading probe hlookup)).1
  obtain ⟨probe, hprobe, -, hcases⟩ :=
    askBackend_cases cfg s request computedBlocks queryHashes tailTokens hloading
  have hkeeps : Keeps (fun c reply _ => Clean c reply) cfg
      (countAvailableBlockPrefix cfg request computedBlocks probe.queryHashes) []
      (fun o => o.elim [] fun r => r.owned cfg.numShards)
      (fun o => ∀ r, o = some r → r.Kept cfg probe.queryHashes.length) True := by
    refine (countAvailableBlockPrefix_keeps (raises_true request) _ _).conseq ?_
    rintro _ (⟨rfl, -⟩ | ⟨ready, r, rfl, hready, hresult⟩) _ ⟨⟩
    exact hresult.kept hdense hready
  have hrun := fun hclean => h.runFor hkeeps hclean
  rcases hrunFor : s.runFor request.requestId
    (countAvailableBlockPrefix cfg request computedBlocks probe.queryHashes) with ⟨result, s₁⟩
  have hprobes : s₁.pendingQueryProbes = s.pendingQueryProbes :=
    (congrArg (fun out => out.2.pendingQueryProbes) hrunFor).symm
  rw [hrunFor] at hrun
  have hpop : ∀ {B : List ℕ}, Inv cfg B request.requestId s₁ → Inv cfg B request.requestId
      { s₁ with pendingQueryProbes := s₁.pendingQueryProbes.erase request.requestId } := by
    intro B hB
    have hpop := hB.pop
    rwa [hprobes, hempty, ← hprobes] at hpop
  rcases hcases result s₁ hrunFor with
    ⟨e, rfl, heq⟩ | ⟨rfl, heq⟩ | ⟨ready, rfl, heq | ⟨-, heq⟩⟩ <;> rw [heq] at hlog ⊢
  · obtain ⟨B, ⟨hB, -⟩, hinv⟩ := hrun hlog
    rwa [hB fair_clean] at hinv
  · obtain ⟨B, ⟨rfl, -⟩, hinv⟩ := hrun hlog
    exact (hpop hinv).store (leaseSet_of_loading hprobe).1 (leaseSet_of_loading hprobe).2
  · rw [run_releaseLeaseSet] at hlog ⊢
    obtain ⟨B, ⟨rfl, -⟩, hinv⟩ := hrun hlog
    exact (hpop hinv).release
  · rw [(ledger_accept ..).2] at hlog
    obtain ⟨B, ⟨rfl, hready⟩, hinv⟩ := hrun hlog
    exact (hpop hinv).accept (hready ready rfl)

/-- What a poll can do: it asks nobody and offers nothing, asks the backend with no probe or one
that is loading, or ends with the probe of the query. -/
theorem getNumNewMatchedTokens_cases (cfg : LeaseConfig Hash) (s : Connector Hash)
    (request : Request Hash) (numComputedTokens : ℕ) :
    ((s.getNumNewMatchedTokens cfg request numComputedTokens).2 ∈
        [s, s.releasePendingQueryProbe cfg request.requestId] ∧
      ∀ tokens, (s.getNumNewMatchedTokens cfg request numComputedTokens).1 ≠
        .ok (some tokens, true)) ∨
    ∃ queryHashes tailTokens,
      cfg.buildQuery request (numComputedTokens / cfg.ctx.virtualBlockSize) =
        .ok (queryHashes, tailTokens) ∧
      ((∃ s' ∈ [s, s.releasePendingQueryProbe cfg request.requestId],
          (∀ probe, s'.pendingQueryProbes.lookup request.requestId = some probe →
            probe.result = none) ∧
          (∀ probe, s.pendingQueryProbes.lookup request.requestId = some probe →
            probe.result = none → s' = s) ∧
          s.getNumNewMatchedTokens cfg request numComputedTokens = s'.askBackend cfg request
            (numComputedTokens / cfg.ctx.virtualBlockSize) queryHashes tailTokens) ∨
        ∃ probe r, s.pendingQueryProbes.lookup request.requestId = some probe ∧
          probe.result = some r ∧
          (probe.computedBlocks = numComputedTokens / cfg.ctx.virtualBlockSize ∧
            probe.queryHashes = queryHashes ∧ probe.tailTokens = tailTokens) ∧
          s.getNumNewMatchedTokens cfg request numComputedTokens =
            s.finishCacheLookup cfg request probe) := by
  unfold Connector.getNumNewMatchedTokens
  dsimp only
  split
  · exact .inl ⟨by simp, nofun⟩
  · split
    · exact .inl ⟨by simp, nofun⟩
    · next queryHashes tailTokens hquery =>
      split
      · exact .inl ⟨by simp, nofun⟩
      · refine .inr ⟨queryHashes, tailTokens, hquery, ?_⟩
        split
        · next hlookup => exact .inl ⟨s, by simp, by simp [hlookup], fun _ _ _ => rfl, rfl⟩
        · next probe hlookup =>
          split
          · next hloading =>
            refine .inl ⟨s, by simp, fun probe' hprobe' => ?_, fun _ _ _ => rfl, rfl⟩
            rw [hlookup] at hprobe'
            exact some.inj hprobe' ▸ hloading
          · next hready =>
            obtain ⟨r, hresult⟩ := ne_none_iff_exists'.mp hready
            split
            · next hmatch =>
              exact .inr ⟨probe, r, hlookup, hresult, of_decide_eq_true hmatch, rfl⟩
            · refine .inl ⟨_, by simp, by simp [lookup_releasePending],
                fun probe' hprobe' hnone => ?_, rfl⟩
              rw [hlookup] at hprobe'
              exact absurd (some.inj hprobe' ▸ hnone) hready

theorem Inv.getNumNewMatchedTokens (hdense : DenseStored cfg) (h : Inv cfg [] request.requestId s)
    (numComputedTokens : ℕ)
    (hlog : ∀ e ∈ (s.getNumNewMatchedTokens cfg request numComputedTokens).2.ledger.log,
      Clean e.1 e.2) :
    Inv cfg [] request.requestId
      (s.getNumNewMatchedTokens cfg request numComputedTokens).2 := by
  have hinv : ∀ s' ∈ [s, s.releasePendingQueryProbe cfg request.requestId],
      Inv cfg [] request.requestId s' :=
    forall_mem_cons.mpr ⟨h, forall_mem_singleton.mpr h.releasePending⟩
  rcases getNumNewMatchedTokens_cases cfg s request numComputedTokens with
    ⟨hs', -⟩ | ⟨_, _, -, ⟨s', hs', hloading, -, heq⟩ | ⟨probe, r, hlookup, -, -, heq⟩⟩
  · exact hinv _ hs'
  · rw [heq] at hlog ⊢
    exact (hinv s' hs').askBackend hdense hloading _ _ _ hlog
  · rw [heq]
    exact h.finishCacheLookup hlookup

theorem updateStateAfterAlloc_cases (cfg : LeaseConfig Hash) (s : Connector Hash)
    (request : Request Hash) (blocks : Option (List (List (ℕ × Bool)))) (numExternalTokens : ℕ) :
    (s.updateStateAfterAlloc cfg request blocks numExternalTokens).2 ∈
      [s, s.releasePendingQueryProbe cfg request.requestId] ∨
    ∃ probe r blockIdsByGroup,
      s.pendingQueryProbes.lookup request.requestId = some probe ∧ probe.result = some r ∧
      (s.updateStateAfterAlloc cfg request blocks numExternalTokens).2 =
        { s with
          pendingLoadIntents := s.pendingLoadIntents.insert request.requestId
            { r.toLeaseSet with blockIdsByGroup, numTokens := numExternalTokens }
          pendingQueryProbes := s.pendingQueryProbes.erase request.requestId } := by
  unfold Connector.updateStateAfterAlloc
  dsimp only
  split
  · exact .inl (by simp)
  · split
    · exact .inl (by simp)
    · split
      · exact .inl (by simp)
      · split
        · exact .inl (by simp)
        · next blockIdsByGroup _ =>
          split
          · exact .inl (by simp [Connector.storeIntent])
          · next probe hlookup =>
            split
            · exact .inl (by simp)
            · split
              · exact .inl (by simp)
              · split
                · exact .inl (by simp)
                · next r hresult =>
                  split
                  · exact .inl (by simp)
                  · unfold Connector.storeIntent
                    split
                    · exact .inl (by simp)
                    · exact .inr ⟨probe, r, blockIdsByGroup, hlookup, hresult, rfl⟩

theorem Inv.updateStateAfterAlloc (h : Inv cfg [] request.requestId s)
    (hnew : s.pendingLoadIntents.lookup request.requestId = none)
    (blocks : Option (List (List (ℕ × Bool)))) (numExternalTokens : ℕ) :
    Inv cfg [] request.requestId
      (s.updateStateAfterAlloc cfg request blocks numExternalTokens).2 := by
  rcases updateStateAfterAlloc_cases cfg s request blocks numExternalTokens with
    hmem | ⟨probe, r, blockIdsByGroup, hlookup, hresult, heq⟩
  · simp only [mem_cons, not_mem_nil, or_false] at hmem
    rcases hmem with heq | heq
    · rw [heq]
      exact h
    · rw [heq]
      exact h.releasePending
  · rw [heq]
    have hset : probe.leaseSet = r.toLeaseSet := by
      rw [QueryProbe.leaseSet, hresult]
      rfl
    have hpop := h.pop
    rw [ownedAt, hlookup, append_nil] at hpop
    have hkept := (h.probe_kept _ probe hlookup).1
    rw [hset] at hkept
    exact hpop.handOver (congrArg (LeaseSet.owned _) hset.symm) hkept hnew

end Calls

/-! ### All runs -/

section Runs

variable [DecidableEq Hash] {cfg : LeaseConfig Hash} {s s' : Connector Hash}

/-- **The step lemma.**  A careful step keeps the partition. -/
theorem inv_step (hdense : DenseStored cfg) (h : Inv cfg [] "" s) {a : Action Hash}
    (hcareful : Careful cfg s a) (hstep : Connector.step cfg s a = some s') : Inv cfg [] "" s' := by
  cases a with
  | getNumNewMatchedTokens request numComputedTokens replies =>
    obtain rfl := some.inj hstep
    have hstart : Inv cfg [] request.requestId (s.withReplies replies) :=
      { h.of_nil request.requestId with }
    exact (hstart.getNumNewMatchedTokens hdense numComputedTokens hcareful).of_nil ""
  | updateStateAfterAlloc request blocks numExternalTokens =>
    obtain rfl := some.inj hstep
    exact ((h.of_nil request.requestId).updateStateAfterAlloc hcareful blocks
      numExternalTokens).of_nil ""
  | requestFinished reqId =>
    obtain rfl := some.inj hstep
    exact (h.of_nil reqId).requestFinished.of_nil ""
  | updateConnectorOutput finishedSending =>
    obtain rfl := some.inj hstep
    exact h.updateConnectorOutput finishedSending
  | buildConnectorMeta saves =>
    obtain rfl := some.inj hstep
    exact h.buildConnectorMeta saves
  | shutdown =>
    obtain rfl := some.inj hstep
    exact h.shutdown

theorem count_flatMap_eq_countP (intents : List LoadIntent) (f : LoadIntent → List ℕ) (lease : ℕ)
    (hmem : ∀ intent ∈ intents, lease ∈ f intent ↔ intent.Mentions lease)
    (hone : (intents.flatMap f).count lease ≤ 1) :
    (intents.flatMap f).count lease = intents.countP (fun intent => intent.Mentions lease) := by
  induction intents with
  | nil => rfl
  | cons intent intents ih =>
    rw [flatMap_cons, count_append] at hone ⊢
    have hrest := ih (fun i hi => hmem i (mem_cons_of_mem _ hi)) (by omega)
    have hhead := hmem intent mem_cons_self
    rw [countP_cons]
    by_cases hin : lease ∈ f intent
    · have hpos := count_pos_iff.mpr hin
      rw [if_pos (decide_eq_true (hhead.mp hin))]
      omega
    · have hzero := count_eq_zero.mpr hin
      rw [if_neg (by simpa using fun hm => hin (hhead.mpr hm))]
      omega

omit [DecidableEq Hash] in
theorem accounted_of_inv {reqId : String} (h : Inv cfg [] reqId s) : Accounted s := by
  intro lease hdue
  have htotal := h.balanced.count_eq lease
  rw [count_eq_one_of_mem nodup_range (mem_range.mpr (h.due_lt lease hdue)),
    nil_append, count_append, count_append,
    count_eq_zero.mpr (h.due_free lease hdue).2, add_zero] at htotal
  rw [← count_flatMap_eq_countP s.intents (fun i => i.owned cfg.numShards) lease
    (fun intent hintent => (h.intent_kept intent hintent).mem_owned lease) (by omega)]
  exact htotal

/-- **Every lease is accounted for.**  In every run of careful steps, each lease that is due was
released once or is in one intent, and not both. -/
theorem leases_accounted (cfg : LeaseConfig Hash) (hdense : DenseStored cfg)
    (as : List (Action Hash)) (h : Along (Connector.step cfg) (Careful cfg) Connector.init as) :
    Always (Connector.step cfg) Accounted Connector.init as :=
  (always_of_along (fun _ _ _ hinv hcareful hstep => inv_step hdense hinv hcareful hstep)
    (inv_init cfg "") h).mono fun _ hinv => accounted_of_inv hinv

end Runs

/-- One scheduler block per hash, and the given groups. -/
def smallLeaseConfig (groups : List CacheGroup) (numShards : ℕ) (hpos : 0 < numShards) :
    LeaseConfig ℕ where
  ctx := .whole 1 Nat.one_pos
  cacheGroups := { groups, hashGroupIndex := 0 }
  tailSaveEnabled := false
  tailLoadEnabled := false
  hashBlockTokens := fun parent _ => parent
  noneHash := 0
  tail_dense := by simp
  numShards
  numShards_pos := hpos

/-- A request with the given hashes and one more token. -/
def smallRequest (requestId : String) (blockHashes : List ℕ) : Request ℕ where
  requestId
  numTokens := blockHashes.length + 1
  promptTokenIds := replicate (blockHashes.length + 1) 0
  blockHashes
  loraRequest := false
  cacheSalt := false
  mmFeatures := false

/-- Two shards: one request is narrowed to two blocks and loaded; for the other the second shard
raises. -/
def narrowedLeases : List (Action ℕ) :=
  [.getNumNewMatchedTokens (smallRequest "a" [10, 11, 12]) 0
      [.ready 3 [] true, .ready 2 [] true, .ready 2 [] true],
    .updateStateAfterAlloc (smallRequest "a" [10, 11, 12])
      (some [[(5, false), (6, false), (7, false)]]) 2,
    .getNumNewMatchedTokens (smallRequest "b" [20, 21]) 0 [.ready 2 [] true, .raises "timeout"],
    .requestFinished "b", .buildConnectorMeta ["a"], .requestFinished "a",
    .updateConnectorOutput ["a"], .shutdown]

theorem leases_accounted_narrowed :
    Always (Connector.step (smallLeaseConfig [⟨.dense, 1⟩] 2 (by decide))) Accounted
      Connector.init narrowedLeases :=
  leases_accounted _ (by decide) _ (by decide +kernel)

/-- A hybrid hit of two blocks has a recurrent state only after the first, and the query for the
shorter prefix raises. -/
def raisingExact : List (Action ℕ) :=
  [.getNumNewMatchedTokens (smallRequest "a" [10, 11]) 0
      [.ready 2 [] true, .ready 1 [0] true, .raises "timeout"],
    .requestFinished "a"]

theorem not_accounted_raisingExact :
    ¬ Always (Connector.step
        (smallLeaseConfig [⟨.dense, 1⟩, ⟨.recurrent, 1⟩] 1 (by decide))) Accounted
      Connector.init raisingExact :=
  not_always Accounted (fun _ => id) (by decide +kernel)

end Leases

end PegaFlow
