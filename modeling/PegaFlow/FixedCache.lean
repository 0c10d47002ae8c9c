/-
PegaFlow/FixedCache.lean

Queries of a cache that does not change (`connector/tp_shards.py`).
-/
import PegaFlow.LeaseLookups

namespace PegaFlow

open List

namespace Leases

/-! ### Answers -/

/-- Where in the keys of the request a query begins. -/
def QueryId.start : QueryId → ℕ
  | .groupSpan _ _ start _ => start
  | _ => 0

/-- What the shards have: the length of the prefix, and the blocks of each storage group by their
place among the keys of the request.  `call` only records which query a lease is for. -/
structure Stored where
  prefixBlocks : ℕ → ℕ
  members : ℕ → ℕ → List ℕ
  call : ℕ → QueryCall

namespace Stored

variable (stored : Stored)

/-- The positions a membership query finds. -/
def found (c : QueryCall) (group : ℕ) : List ℕ :=
  ((stored.members group c.shard).filter fun p =>
    c.id.start ≤ p ∧ p < c.id.start + c.numHashes).map (· - c.id.start)

/-- The answers of the shards: hits come with a lease. -/
structure Answers (c : QueryCall) (reply : QueryReply) (lease : Option ℕ) : Prop where
  dense : c.groupId = none → ∃ positions leased,
    reply = .ready (min c.numHashes (stored.prefixBlocks c.shard)) positions leased ∧
      (min c.numHashes (stored.prefixBlocks c.shard) ≠ 0 → lease ≠ none)
  member : ∀ group, c.groupId = some group → ∃ leased,
    reply = .ready (stored.found c group).length (stored.found c group) leased ∧
      (stored.found c group ≠ [] → ∃ n, lease = some n ∧ stored.call n = c)

/-- What a shard returns for its part of a membership query. -/
structure Finds (c : QueryCall) (group : ℕ) (m : Membership) : Prop where
  positions : m.positions = stored.found c group
  lease : m.positions ≠ [] → ∃ n, m.lease = some n ∧ stored.call n = c

/-- All shards have position `p` of a query for `n` keys. -/
def InPrefix (numShards n p : ℕ) : Prop :=
  p < n ∧ ∀ shard < numShards, p < stored.prefixBlocks shard

theorem mem_found {stored : Stored} {c : QueryCall} {group p : ℕ} :
    p ∈ stored.found c group ↔
      p < c.numHashes ∧ c.id.start + p ∈ stored.members group c.shard := by
  rw [found, mem_map]
  constructor
  · rintro ⟨q, hq, rfl⟩
    obtain ⟨hmem, hrange⟩ := mem_filter.mp hq
    have hrange := of_decide_eq_true hrange
    exact ⟨by omega, by rwa [Nat.add_sub_cancel' hrange.1]⟩
  · rintro ⟨hlt, hmem⟩
    exact ⟨c.id.start + p, mem_filter.mpr ⟨hmem, decide_eq_true (by omega)⟩,
      Nat.add_sub_cancel_left ..⟩

end Stored

/-! ### Queries -/

variable {Hash : Type} {stored : Stored} {cfg : LeaseConfig Hash} {id : QueryId}
  {n group shard common : ℕ}

theorem not_waits_stored : ¬ Waits stored.Answers id n := by
  rintro ⟨shard, hanswer⟩
  obtain ⟨_, _, ⟨⟩, -⟩ := hanswer.dense rfl

theorem Accepted.numHitBlocks_eq {result : QueryReady}
    (h : Accepted stored.Answers (denseCall id n shard) result) :
    result.numHitBlocks = min n (stored.prefixBlocks shard) := by
  obtain ⟨_, _, heq, -⟩ := h.meets.dense rfl
  exact (QueryReply.ready.inj heq).1

theorem Accepted.finds {m : Membership}
    (h : Accepted stored.Answers (memberCall id n group shard) m.ready) :
    stored.Finds (memberCall id n group shard) group m := by
  obtain ⟨_, heq, hlease⟩ := h.meets.member group rfl
  have hpositions : m.positions = _ := (QueryReply.ready.inj heq).2.1
  exact ⟨hpositions, fun hne => hlease (hpositions ▸ hne)⟩

theorem not_refused_dense (h : id.isCommon → n ≤ stored.prefixBlocks shard) :
    ¬ Refused stored.Answers (denseCall id n shard) := by
  rintro ⟨_, lease, hanswer, hleased, hraises⟩
  obtain ⟨positions, leased, rfl, hlease⟩ := hanswer.dense rfl
  rcases of_decide_eq_true hraises with hover | ⟨hpos, rfl⟩ | ⟨hcommon, hne⟩
  · exact absurd hover (not_lt.mpr (min_le_left _ _))
  · exact hlease hpos (by simpa [QueryReply.leased] using hleased)
  · exact hne (min_eq_left (h hcommon))

theorem not_refused_member : ¬ Refused stored.Answers (memberCall id n group shard) := by
  rintro ⟨_, lease, hanswer, hleased, hraises⟩
  obtain ⟨leased, rfl, hlease⟩ := hanswer.member group rfl
  rcases of_decide_eq_true hraises with hcount | ⟨p, hp, hge⟩ | ⟨hne, rfl⟩
  · exact hcount rfl
  · exact absurd (Stored.mem_found.mp hp).1 (not_lt.mpr hge)
  · obtain ⟨k, rfl, -⟩ := hlease hne
    cases hleased

/-- **A prefix query** finds the blocks that all shards have. -/
theorem Agree.lt_iff (h : Agree stored.Answers cfg id n common) (p : ℕ) :
    p < common ↔ stored.InPrefix cfg.numShards n p := by
  obtain ⟨results, hresults, hmin⟩ := h
  rw [map_eq_of_forall₂ hresults fun _ _ h => h.numHitBlocks_eq] at hmin
  obtain ⟨hmem, hle⟩ := min?_eq_some_iff.mp hmin
  obtain ⟨least, hleast, heq⟩ := mem_map.mp hmem
  have hbound : ∀ shard < cfg.numShards, common ≤ n ∧ common ≤ stored.prefixBlocks shard :=
    fun shard hlt => Nat.le_min.mp (hle _ (mem_map_of_mem (mem_range.mpr hlt)))
  constructor
  · intro hp
    exact ⟨hp.trans_le (hbound 0 cfg.numShards_pos).1,
      fun shard hlt => hp.trans_le (hbound shard hlt).2⟩
  · rintro ⟨hp, hall⟩
    exact heq ▸ Nat.lt_min.mpr ⟨hp, hall least (mem_range.mp hleast)⟩

theorem not_queryFails_stored (hid : id.isCommon = false) :
    ¬ QueryFails stored.Answers cfg id n := by
  rintro (⟨shard, h⟩ | ⟨common, hagree, shard, hlt, h⟩)
  · exact not_refused_dense (fun hcommon => by cases hid.symm.trans hcommon) h
  · refine not_refused_dense (fun _ => ?_) h
    cases common with
    | zero => exact Nat.zero_le _
    | succ k => exact ((hagree.lt_iff k).mp (Nat.lt_succ_self k)).2 shard hlt

theorem raises_stored {request : Request Hash} {hashes : List Hash}
    (h : requestBlockHashes cfg.ctx request none = .ok hashes) :
    Raises stored.Answers cfg request False where
  member := fun _ _ _ _ => not_refused_member
  query := fun _ _ => not_queryFails_stored
  hashes := by
    intro size e
    unfold requestBlockHashes at h ⊢
    dsimp only at h ⊢
    split_ifs at h ⊢ <;> exact nofun

end Leases

end PegaFlow
