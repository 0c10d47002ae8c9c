/-
PegaFlow/LeaseQueries.lean

Leases of prefix queries over all shards (`connector/tp_shards.py`).

A shard answers a query with a lease on the blocks it found.  `query` asks all shards, and asks
again those that hold more than the common prefix; `queryGroupMembership` asks all shards which
blocks of a storage group they have.  Any call may raise, and answers may be refused, so every
exit has to release what was leased until then.
-/
import Mathlib.Data.List.ReduceOption
import PegaFlow.BlockHashes
import PegaFlow.Ledger
import PegaFlow.Loops

namespace PegaFlow

open List Spec Prog

namespace Leases

/-- What a scheduler connector with `numShards` shards is configured with, and the windows of its
cache groups. -/
structure LeaseConfig (Hash : Type) extends SchedulerConfig Hash where
  numShards : ℕ
  numShards_pos : 0 < numShards
  slidingWindowOf : ℕ → Option ℕ := fun _ => none
  extraRetainedTokensOf : ℕ → ℕ := fun _ => 0

/-- The tokens vLLM keeps for a sliding-window group. -/
def LeaseConfig.slidingRetainedTokensOf {Hash : Type} (cfg : LeaseConfig Hash) (group : ℕ) :
    Option ℕ :=
  (cfg.slidingWindowOf group).map fun window => window + cfg.extraRetainedTokensOf group - 1

variable {Hash : Type}

/-! ### Queries of one shard -/

/-- The request ids of queries: `req_id` itself, and what is derived from it. -/
inductive QueryId where
  | request (reqId : String)
  | tpCommon (id : QueryId) (commonBlocks : ℕ)
  | group (reqId : String) (group : ℕ)
  | groupSpan (reqId : String) (group start stop : ℕ)
  | denseShrunk (reqId : String) (blocks : ℕ)
  | hmaExact (reqId : String) (blocks : ℕ)
deriving DecidableEq, Repr

/-- A call of `query_prefetch`: the shard, the request id, how many hashes are asked for, and
the group of a membership query. -/
structure QueryCall where
  shard : ℕ
  id : QueryId
  numHashes : ℕ
  groupId : Option ℕ
deriving DecidableEq, Repr

/-- What `query_prefetch` returns or raises. -/
inductive QueryReply where
  | loading
  | ready (numHitBlocks : ℕ) (hitPositions : List ℕ) (leased : Bool)
  | unexpected (typeName : String)
  | raises (message : String)
deriving DecidableEq, Repr

instance : Inhabited QueryReply := ⟨.raises "connection closed"⟩

def QueryReply.leased : QueryReply → Bool
  | .ready _ _ leased => leased
  | _ => false

/-- `QueryReady`.  A lease that is empty is `none`. -/
structure QueryReady where
  numHitBlocks : ℕ
  hitPositions : List ℕ
  lease : Option ℕ
deriving DecidableEq, Repr

inductive QueryOutcome where
  | loading
  | ready (result : QueryReady)
  | unexpected (typeName : String)
deriving DecidableEq, Repr

abbrev Rpc := Prog QueryCall QueryReply

def queryPrefetch (c : QueryCall) : Rpc QueryOutcome := do
  match ← call c with
  | (.loading, _) => return .loading
  | (.ready numHitBlocks hitPositions _, lease) =>
      return .ready { numHitBlocks, hitPositions, lease }
  | (.unexpected typeName, _) => return .unexpected typeName
  | (.raises message, _) => throw message

/-! ### Queries of all shards -/

/-- One lease per shard. -/
abbrev LeaseTuple := List (Option ℕ)

/-- The leases that `release` releases: `zip(self._clients, leases)` leaves out what is beyond
the shards. -/
def held (numShards : ℕ) (leases : LeaseTuple) : List ℕ := (leases.take numShards).reduceOption

def release (cfg : LeaseConfig Hash) (leases : LeaseTuple) : Rpc Unit :=
  Prog.release (held cfg.numShards leases)

def releaseOne (lease : Option ℕ) : Rpc Unit := Prog.release lease.toList

def validateReady (result : QueryReady) (queriedBlocks shardIndex : ℕ) : Rpc Unit :=
  if queriedBlocks < result.numHitBlocks then
    throw (s!"TP shard {shardIndex} reported {result.numHitBlocks} hits for " ++
      s!"a {queriedBlocks}-block query")
  else if result.numHitBlocks ≠ 0 ∧ result.lease = none then
    throw s!"TP shard {shardIndex} returned {result.numHitBlocks} hits without a lease"
  else return ()

def unexpectedOutcome (typeName : String) : String :=
  s!"query_prefetch returned unexpected outcome {typeName}"

/-- The first loop of `TpShardQueryClient.query`; no results if a shard is loading. -/
def collect (cfg : LeaseConfig Hash) (id : QueryId) (queriedBlocks : ℕ) :
    List ℕ → List QueryReady → Rpc (Option (List QueryReady))
  | [], results => return some results
  | shard :: shards, results => do
      let outcome ← (queryPrefetch
        { shard, id, numHashes := queriedBlocks, groupId := none }).onError
          (release cfg (results.map QueryReady.lease))
      match outcome with
      | .loading =>
          release cfg (results.map QueryReady.lease)
          return none
      | .unexpected typeName =>
          release cfg (results.map QueryReady.lease)
          throw (unexpectedOutcome typeName)
      | .ready result =>
          (validateReady result queriedBlocks shard).onError
            (release cfg ((results ++ [result]).map QueryReady.lease))
          collect cfg id queriedBlocks shards (results ++ [result])

def commonPrefixFailed (shard commonBlocks : ℕ) : String :=
  s!"TP shard {shard} could not lease the common {commonBlocks}-block prefix"

/-- The second loop: shards that hold more than the common prefix are asked again for exactly
that, and their first lease is released. -/
def narrow (cfg : LeaseConfig Hash) (id : QueryId) (exactBlocks commonBlocks : ℕ) :
    List (QueryReady × ℕ) → LeaseTuple → Rpc LeaseTuple
  | [], leases => return leases
  | (result, shard) :: rest, leases =>
      if result.numHitBlocks = commonBlocks then
        narrow cfg id exactBlocks commonBlocks rest leases
      else do
        let outcome ← (queryPrefetch
          { shard, id := .tpCommon id commonBlocks, numHashes := exactBlocks
            groupId := none }).onError (release cfg leases)
        match outcome with
        | .ready exact =>
            let checks : Rpc Unit := do
              validateReady exact commonBlocks shard
              if exact.numHitBlocks ≠ commonBlocks then
                throw (commonPrefixFailed shard commonBlocks)
            (checks.onError (releaseOne exact.lease)).onError (release cfg leases)
            releaseOne (leases.getD shard none)
            narrow cfg id exactBlocks commonBlocks rest (leases.set shard exact.lease)
        | _ =>
            release cfg leases
            throw (commonPrefixFailed shard commonBlocks)

structure RecurrentLoadHold where
  leases : List LeaseTuple
  hitPositions : List (List (List ℕ))
  checkpoint : ℕ
deriving DecidableEq, Repr

/-- The leases of a query result: of the prefix, of each cache group (with sliding-window groups),
and of recurrent states. -/
structure LeaseSet where
  leases : LeaseTuple
  leasesByGroup : Option (List LeaseTuple) := none
  recurrentHold : Option RecurrentLoadHold := none
deriving DecidableEq, Repr

structure ShardedQueryReady extends LeaseSet where
  numHitBlocks : ℕ
  blockRangesByGroup : Option (List (ℕ × ℕ)) := none
  usablePositions : List ℕ := []
deriving DecidableEq, Repr

/-- No hit: empty leases. -/
def noHit (leases : LeaseTuple) : ShardedQueryReady :=
  { numHitBlocks := 0, leases := leases.map fun _ => none }

/-- `TpShardQueryClient.query`; no result while a shard is loading. -/
def query (cfg : LeaseConfig Hash) (id : QueryId) (blockHashes : List Hash) :
    Rpc (Option ShardedQueryReady) := do
  match ← collect cfg id blockHashes.length (range cfg.numShards) [] with
  | none => return none
  | some results =>
      let leases := results.map QueryReady.lease
      match (results.map QueryReady.numHitBlocks).min? with
      | none => throw "ValueError: min() arg is an empty sequence"
      | some 0 =>
          release cfg leases
          return some (noHit leases)
      | some commonBlocks =>
          let leases ← narrow cfg id (blockHashes.take commonBlocks).length commonBlocks
            results.zipIdx leases
          return some { numHitBlocks := commonBlocks, leases }

/-- A result of `query_group_membership`. -/
structure Membership where
  positions : List ℕ
  lease : Option ℕ
deriving DecidableEq, Repr

/-- The leases of a membership query. -/
def memberLeases (results : List Membership) : LeaseTuple := results.map Membership.lease

/-- One round of `query_group_membership`. -/
def queryMember (id : QueryId) (queriedBlocks groupId shard : ℕ) : Rpc Membership := do
  match ← queryPrefetch { shard, id, numHashes := queriedBlocks, groupId := some groupId } with
  | .loading =>
      throw (s!"TP shard {shard} membership query for group {groupId} " ++
        "returned Loading; membership queries are local-only")
  | .unexpected typeName => throw (unexpectedOutcome typeName)
  | .ready result =>
      let positions := result.hitPositions
      if positions.length ≠ result.numHitBlocks then
        throw (s!"TP shard {shard} reported {result.numHitBlocks} hits " ++
          s!"but returned {positions.length} positions")
      else if ∃ position ∈ positions, queriedBlocks ≤ position then
        throw (s!"TP shard {shard} returned hit positions outside " ++
          s!"a {queriedBlocks}-hash query")
      else if positions ≠ [] ∧ result.lease = none then
        throw s!"TP shard {shard} returned {positions.length} hits without a lease"
      else return { positions, lease := result.lease }

def queryMembers (cfg : LeaseConfig Hash) (id : QueryId) (queriedBlocks groupId : ℕ) :
    List ℕ → List Membership → Rpc (List Membership)
  | [], results => return results
  | shard :: shards, results => do
      let result ← (queryMember id queriedBlocks groupId shard).onError
        (release cfg (memberLeases results))
      queryMembers cfg id queriedBlocks groupId shards (results ++ [result])

def queryGroupMembership (cfg : LeaseConfig Hash) (id : QueryId) (blockHashes : List Hash)
    (groupId : ℕ) : Rpc (List Membership) :=
  queryMembers cfg id blockHashes.length groupId (range cfg.numShards) []

/-! ### Answers that are refused -/

/-- The id of the query for the exact prefix of a hybrid hit, or of a query made for it. -/
def QueryId.isExact : QueryId → Bool
  | .hmaExact _ _ => true
  | .tpCommon id _ => id.isExact
  | _ => false

/-- The id of a query for the common prefix. -/
def QueryId.isCommon : QueryId → Bool
  | .tpCommon _ _ => true
  | _ => false

/-- The call raises, or its answer is refused by an exception. -/
def QueryCall.raises (c : QueryCall) : QueryReply → Bool
  | .raises _ | .unexpected _ => true
  | .loading => c.groupId.isSome || c.id.isCommon
  | .ready numHitBlocks hitPositions leased =>
      if c.groupId.isSome then
        decide (hitPositions.length ≠ numHitBlocks ∨ (∃ p ∈ hitPositions, c.numHashes ≤ p) ∨
          (hitPositions ≠ [] ∧ leased = false))
      else
        decide (c.numHashes < numHitBlocks ∨ (numHitBlocks ≠ 0 ∧ leased = false) ∨
          (c.id.isCommon ∧ numHitBlocks ≠ c.numHashes))

/-- Nothing is raised by the exact query of a hybrid hit, and no lease is lost with a membership
answer that is refused. -/
def Clean (c : QueryCall) (reply : QueryReply) : Prop :=
  (c.id.isExact → c.raises reply = false) ∧
    (c.groupId.isSome → c.raises reply → reply.leased = false)

instance (c : QueryCall) (reply : QueryReply) : Decidable (Clean c reply) :=
  inferInstanceAs (Decidable (_ ∧ _))

/-! ### What answers lead to -/

/-- The lease that comes with an outcome. -/
def QueryOutcome.lease : QueryOutcome → Option ℕ
  | .ready result => result.lease
  | _ => none

/-- The answer an outcome stands for. -/
def QueryOutcome.reply : QueryOutcome → QueryReply
  | .loading => .loading
  | .ready result => .ready result.numHitBlocks result.hitPositions result.lease.isSome
  | .unexpected typeName => .unexpected typeName

/-- The query of a shard for a prefix. -/
abbrev denseCall (id : QueryId) (numHashes shard : ℕ) : QueryCall :=
  { shard, id, numHashes, groupId := none }

/-- The query of a shard for the blocks of a storage group. -/
abbrev memberCall (id : QueryId) (numHashes groupId shard : ℕ) : QueryCall :=
  { shard, id, numHashes, groupId := some groupId }

/-- The answers, each with its lease, that a query may get. -/
abbrev Answers := QueryCall → QueryReply → Option ℕ → Prop

section Answers

variable (R : Answers) (cfg : LeaseConfig Hash)

/-- The call has an answer that raises or is refused. -/
def Refused (c : QueryCall) : Prop :=
  ∃ reply lease, R c reply lease ∧ lease.isSome = reply.leased ∧ c.raises reply

/-- The result is an answer to the call, and not refused. -/
structure Accepted (c : QueryCall) (result : QueryReady) : Prop where
  meets : R c (QueryOutcome.ready result).reply result.lease
  accepted : c.raises (QueryOutcome.ready result).reply = false

/-- A shard is still loading. -/
def Waits (id : QueryId) (numHashes : ℕ) : Prop :=
  ∃ shard, R (denseCall id numHashes shard) .loading none

/-- The shards have `common` blocks of the query in common. -/
def Agree (id : QueryId) (numHashes common : ℕ) : Prop :=
  ∃ results, Forall₂ (fun shard => Accepted R (denseCall id numHashes shard))
    (range cfg.numShards) results ∧
      (results.map QueryReady.numHitBlocks).min? = some common

/-- The answer of a shard is refused, to the query or to that for the common prefix. -/
def QueryFails (id : QueryId) (numHashes : ℕ) : Prop :=
  (∃ shard, Refused R (denseCall id numHashes shard)) ∨
    ∃ common, Agree R cfg id numHashes common ∧
      ∃ shard < cfg.numShards, Refused R (denseCall (.tpCommon id common) common shard)

/-- No lease is lost with a membership answer that is refused, and the exact query of a hybrid hit
does not fail. -/
structure Fair : Prop where
  member : ∀ c reply lease, R c reply lease → lease.isSome = reply.leased →
    c.groupId.isSome → c.raises reply → lease = none
  exact : ∀ reqId blocks numHashes, ¬ QueryFails R cfg (.hmaExact reqId blocks) numHashes

/-- Started with the leases `A`, the program returns with the leases `owned`; all others it has
released, also if it raises and answers are fair. -/
abbrev Keeps {α : Type} (m : Rpc α) (A : List ℕ) (owned : α → List ℕ) (post : α → Prop)
    (raises : Prop) : Prop :=
  Spec QueryReply.leased R m A (Spec.Returns (Fair R cfg) owned post raises)

end Answers

variable {R : Answers} {cfg : LeaseConfig Hash}

theorem fair_clean : Fair (fun c reply _ => Clean c reply) cfg where
  member := by
    intro c reply lease hclean hlease hgroup hraises
    rw [hclean.2 hgroup hraises] at hlease
    simpa using hlease
  exact := by
    rintro reqId blocks n (⟨shard, reply, lease, hclean, -, hraises⟩ |
      ⟨common, -, shard, -, reply, lease, hclean, -, hraises⟩) <;>
    exact Bool.false_ne_true ((hclean.1 rfl).symm.trans hraises)

theorem Refused.of_outcome {c : QueryCall} {outcome : QueryOutcome}
    (h : R c outcome.reply outcome.lease) (hraises : c.raises outcome.reply) : Refused R c :=
  ⟨_, _, h, by cases outcome <;> rfl, hraises⟩

variable {id : QueryId} {result : QueryReady} {n common : ℕ}

theorem raises_dense_iff {n shard : ℕ} :
    (denseCall id n shard).raises (QueryOutcome.ready result).reply = false ↔
      result.numHitBlocks ≤ n ∧ (result.numHitBlocks ≠ 0 → result.lease ≠ none) ∧
        (id.isCommon → result.numHitBlocks = n) := by
  simp [QueryCall.raises, QueryOutcome.reply]

/-- A membership result as an answer. -/
def Membership.ready (m : Membership) : QueryReady :=
  { numHitBlocks := m.positions.length, hitPositions := m.positions, lease := m.lease }

/-- The answers of all shards to a membership query. -/
def MembersFound (R : Answers) (cfg : LeaseConfig Hash) (id : QueryId)
    (numHashes groupId : ℕ) : List Membership → Prop :=
  Forall₂ (fun shard m => Accepted R (memberCall id numHashes groupId shard) m.ready)
    (range cfg.numShards)

/-! ### Leases of all shards -/

section Held

variable {n : ℕ} {leases : LeaseTuple}

theorem held_nil : held n [] = [] := by
  rw [held, take_nil, reduceOption_nil]

theorem held_of_le (h : leases.length ≤ n) : held n leases = leases.reduceOption := by
  rw [held, take_of_length_le h]

theorem held_append (lease : Option ℕ) (h : leases.length < n) :
    held n (leases ++ [lease]) = held n leases ++ lease.toList := by
  have hlen : (leases ++ [lease]).length ≤ n := by
    rw [length_append]
    exact h
  rw [held_of_le hlen, held_of_le (le_of_lt h), reduceOption_append,
    reduceOption_singleton]

theorem held_set_perm (lease : Option ℕ) (h : leases.length ≤ n) {i : ℕ} (hi : i < leases.length) :
    (lease.toList ++ held n leases).Perm
      ((leases.getD i none).toList ++ held n (leases.set i lease)) := by
  rw [held_of_le h, held_of_le (by rwa [length_set]), getD_eq_getElem?_getD,
    getElem?_eq_getElem hi, Option.getD_some,
    ← reduceOption_singleton, ← reduceOption_singleton, ← reduceOption_append,
    ← reduceOption_append]
  refine List.Perm.filterMap id ?_
  calc (lease :: leases).Perm (lease :: leases[i] :: leases.eraseIdx i) :=
        (getElem_cons_eraseIdx_perm hi).symm.cons lease
    List.Perm _ (leases[i] :: lease :: leases.eraseIdx i) := .swap _ _ _
    List.Perm _ (leases[i] :: leases.set i lease) :=
        (set_perm_cons_eraseIdx hi lease).symm.cons _

theorem held_map_none : held n (leases.map fun _ => none) = [] := by
  rw [held, ← map_take, map_const', reduceOption_replicate_none]

variable {raises : Prop} {F : List ℕ}

theorem release_keeps :
    Keeps R cfg (release cfg leases) (held cfg.numShards leases ++ F) (fun _ => F)
      (fun _ => True) raises :=
  Spec.release (.refl _)

theorem release_keeps_nil :
    Keeps R cfg (release cfg leases) (held cfg.numShards leases) (fun _ => []) (fun _ => True)
      raises :=
  Spec.release (.of_eq (append_nil _).symm)

end Held

/-! ### One shard -/

theorem queryPrefetch_keeps (c : QueryCall) :
    Keeps R cfg (queryPrefetch c) [] (fun outcome => outcome.lease.toList)
      (fun outcome => R c outcome.reply outcome.lease) (Refused R c) := by
  refine seq (call c) ?_
  rintro ⟨reply, lease⟩ ⟨hR, hlease⟩
  have hnone : lease.isSome = false → lease = none := by
    cases lease <;> simp
  cases reply with
  | loading =>
    obtain rfl := hnone hlease
    exact pure (.refl _) hR
  | ready numHitBlocks hitPositions leased =>
    obtain rfl : lease.isSome = leased := hlease
    exact pure (.refl _) hR
  | unexpected typeName =>
    obtain rfl := hnone hlease
    exact pure (.refl _) hR
  | raises message =>
    obtain rfl := hnone hlease
    exact throw message (fun _ => rfl) ⟨_, _, hR, hlease, rfl⟩

theorem validateReady_keeps {n shard : ℕ}
    (hR : R (denseCall id n shard) (QueryOutcome.ready result).reply result.lease) :
    Keeps R cfg (validateReady result n shard) [] (fun _ => [])
      (fun _ => result.numHitBlocks ≤ n ∧ (result.numHitBlocks ≠ 0 → result.lease ≠ none))
      (Refused R (denseCall id n shard)) := by
  unfold validateReady
  split_ifs with hover hnone
  · exact throw _ (fun _ => rfl) (.of_outcome hR (decide_eq_true (.inl hover)))
  · refine throw _ (fun _ => rfl) (.of_outcome hR (decide_eq_true (.inr (.inl ⟨hnone.1, ?_⟩))))
    rw [hnone.2]
    rfl
  · exact pure (.refl _) ⟨Nat.le_of_not_lt hover, fun hpos hlease => hnone ⟨hpos, hlease⟩⟩

/-! ### All shards -/

/-- The leases of results. -/
def heldBy (numShards : ℕ) (results : List QueryReady) : List ℕ :=
  held numShards (results.map QueryReady.lease)

theorem collect_keeps (hid : id.isCommon = false) (n : ℕ) (shards : List ℕ)
    (results : List QueryReady) (hlen : results.length + shards.length ≤ cfg.numShards) :
    Keeps R cfg (collect cfg id n shards results) (heldBy cfg.numShards results)
      (fun o => o.elim [] (heldBy cfg.numShards))
      (fun o => o = none ∧ Waits R id n ∨ ∃ new, o = some (results ++ new) ∧
        Forall₂ (fun shard => Accepted R (denseCall id n shard)) shards new)
      (∃ shard, Refused R (denseCall id n shard)) := by
  induction shards generalizing results with
  | nil => exact pure (.refl _) (.inr ⟨[], by rw [append_nil], .nil⟩)
  | cons shard shards ih =>
    have hlt : (results.map QueryReady.lease).length < cfg.numShards := by
      rw [length_map]
      rw [length_cons] at hlen
      omega
    refine seq (guarded ((queryPrefetch_keeps (denseCall id n shard)).weaken
      fun h => ⟨shard, h⟩) release_keeps_nil) ?_
    rintro (_ | result | typeName) hR
    · exact seq release_keeps_nil fun _ _ => pure (.refl _) (.inl ⟨rfl, shard, hR⟩)
    · have hheld : held cfg.numShards ((results ++ [result]).map QueryReady.lease) =
          heldBy cfg.numShards results ++ result.lease.toList := by
        rw [map_append]
        exact held_append _ hlt
      have hrelease : Keeps R cfg (release cfg ((results ++ [result]).map QueryReady.lease)) _
          (fun _ => []) (fun _ => True) (∃ shard, Refused R (denseCall id n shard)) :=
        release_keeps_nil
      refine seq ((guarded ((validateReady_keeps hR).weaken fun h => ⟨shard, h⟩)
        hrelease).perm ?_) ?_
      · rw [nil_append, hheld]
        exact perm_append_comm
      · rintro _ ⟨hle, hlease⟩
        have haccepted : Accepted R (denseCall id n shard) result :=
          ⟨hR, raises_dense_iff.mpr ⟨hle, hlease, fun h => absurd (hid.symm.trans h) nofun⟩⟩
        refine (ih (results ++ [result]) (by simp at hlen ⊢; omega)).conseq ?_
        rintro o (hwaits | ⟨new, rfl, hnew⟩)
        · exact .inl hwaits
        · exact .inr ⟨result :: new, by rw [append_assoc]; rfl, .cons haccepted hnew⟩
    · exact seq release_keeps_nil fun _ _ =>
        throw _ (fun _ => rfl) ⟨shard, .of_outcome hR rfl⟩

/-- A lease on `common` blocks of the prefix, from a shard. -/
def LeaseOn (R : Answers) (common shard : ℕ) (lease : Option ℕ) : Prop :=
  ∃ id n result, Accepted R (denseCall id n shard) result ∧
    result.numHitBlocks = common ∧ result.lease = lease

/-- The second loop exchanges leases one by one: a lease is one of the common prefix, or its turn
is still to come. -/
theorem narrow_keeps {raises : Prop} (hfails : ∀ shard < cfg.numShards,
      Refused R (denseCall (.tpCommon id common) common shard) → raises)
    (rest : List (QueryReady × ℕ)) (leases : LeaseTuple) (hlen : leases.length ≤ cfg.numShards)
    (hrest : ∀ e ∈ rest, e.2 < leases.length ∧ Accepted R (denseCall id n e.2) e.1)
    (hleases : ∀ i lease, leases[i]? = some lease →
      LeaseOn R common i lease ∨ ∃ result, (result, i) ∈ rest ∧ result.lease = lease) :
    Keeps R cfg (narrow cfg id common common rest leases) (held cfg.numShards leases)
      (held cfg.numShards)
      (fun leases' => leases'.length = leases.length ∧
        ∀ i lease, leases'[i]? = some lease → LeaseOn R common i lease) raises := by
  induction rest generalizing leases with
  | nil =>
    refine pure (.refl _) ⟨rfl, fun i lease hi => ?_⟩
    rcases hleases i lease hi with hon | ⟨result, hresult, -⟩
    · exact hon
    · cases hresult
  | cons e rest ih =>
    obtain ⟨result, shard⟩ := e
    obtain ⟨hshard, haccepted⟩ := hrest _ mem_cons_self
    have hrest' := fun e he => hrest e (mem_cons_of_mem _ he)
    rw [narrow]
    split
    · next hcommon =>
      refine ih leases hlen hrest' fun i lease hi => ?_
      rcases hleases i lease hi with hon | ⟨result', hmem, hlease⟩
      · exact .inl hon
      · rcases mem_cons.mp hmem with heq | hmem
        · cases heq
          exact .inl ⟨_, _, _, haccepted, hcommon, hlease⟩
        · exact .inr ⟨result', hmem, hlease⟩
    · have hfails := hfails shard (hshard.trans_le hlen)
      refine seq (guarded ((queryPrefetch_keeps _).weaken hfails) release_keeps_nil) ?_
      rintro (_ | exact | typeName) hR
      · exact seq release_keeps_nil fun _ _ =>
          throw _ (fun _ => rfl) (hfails (.of_outcome hR rfl))
      · have hchecks : Keeps R cfg (do
            validateReady exact common shard
            if exact.numHitBlocks ≠ common then
              throw (commonPrefixFailed shard common)) [] (fun _ => [])
              (fun _ => LeaseOn R common shard exact.lease) raises := by
          refine seq ((validateReady_keeps hR).weaken hfails) ?_
          rintro _ ⟨hle, hlease⟩
          split
          · next hne => exact throw _ (fun _ => rfl) (hfails (.of_outcome hR
              (decide_eq_true (.inr (.inr ⟨rfl, hne⟩)))))
          · next heq =>
            rw [not_not] at heq
            exact pure (.refl _) ⟨_, _, exact,
              ⟨hR, raises_dense_iff.mpr ⟨hle, hlease, fun _ => heq⟩⟩, heq, rfl⟩
        have hone : Keeps R cfg (releaseOne exact.lease) exact.lease.toList (fun _ => [])
            (fun _ => True) raises :=
          Spec.release (.of_eq (append_nil _).symm)
        refine seq (guarded (guarded hchecks hone) release_keeps_nil) fun _ hon => ?_
        refine Spec.seq (Spec.release (held_set_perm exact.lease hlen hshard)) fun _ _ => ?_
        have hnext := ih (leases.set shard exact.lease) (by rwa [length_set])
          (by simpa only [length_set] using hrest') ?_
        · rwa [length_set] at hnext
        · intro i lease hi
          rw [getElem?_set] at hi
          split at hi
          · next heq =>
            subst heq
            cases hi
            exact .inl hon
          · next hne =>
            rcases hleases i lease hi with hon' | ⟨result', hmem, heq⟩
            · exact .inl hon'
            · rcases mem_cons.mp hmem with hmem | hmem
              · exact absurd (Prod.mk.inj hmem).2.symm hne
              · exact .inr ⟨result', hmem, heq⟩
      · exact seq release_keeps_nil fun _ _ =>
          throw _ (fun _ => rfl) (hfails (.of_outcome hR rfl))

/-- A result with one lease per shard and nothing else. -/
structure ShardedQueryReady.Plain (cfg : LeaseConfig Hash) (r : ShardedQueryReady) : Prop where
  length_leases : r.leases.length = cfg.numShards
  leasesByGroup : r.leasesByGroup = none
  blockRanges : r.blockRangesByGroup = none
  recurrentHold : r.recurrentHold = none
  usable : r.usablePositions = []

/-- What a query over all shards returns: what they have in common, and leases on it. -/
structure QueryHit (R : Answers) (cfg : LeaseConfig Hash) (id : QueryId)
    (numHashes : ℕ) (r : ShardedQueryReady) : Prop extends r.Plain cfg where
  agree : Agree R cfg id numHashes r.numHitBlocks
  lease : ∀ shard lease, r.leases[shard]? = some lease →
    r.numHitBlocks = 0 ∧ lease = none ∨ LeaseOn R r.numHitBlocks shard lease

theorem Agree.le (h : Agree R cfg id n common) : common ≤ n := by
  obtain ⟨results, hresults, hmin⟩ := h
  obtain ⟨result, hmem, rfl⟩ := mem_map.mp (min?_eq_some_iff.mp hmin).1
  obtain ⟨shard, -, haccepted⟩ := forall₂_mem_right hresults hmem
  exact (raises_dense_iff.mp haccepted.accepted).1

theorem QueryHit.le {n : ℕ} {r : ShardedQueryReady} (h : QueryHit R cfg id n r) :
    r.numHitBlocks ≤ n :=
  h.agree.le

/-- **A query over all shards** returns with the leases of its result; all others it has
released, also if it raises. -/
theorem query_keeps (id : QueryId) (hid : id.isCommon = false) (blockHashes : List Hash) :
    Keeps R cfg (query cfg id blockHashes) []
      (fun o => o.elim [] fun r => held cfg.numShards r.leases)
      (fun o => o = none ∧ Waits R id blockHashes.length ∨
        ∃ r, o = some r ∧ QueryHit R cfg id blockHashes.length r)
      (QueryFails R cfg id blockHashes.length) := by
  refine seq (((collect_keeps hid blockHashes.length (List.range cfg.numShards) []
    (by simp)).weaken Or.inl).perm (.of_eq (by simp [heldBy, held]))) ?_
  rintro _ (⟨rfl, hwaits⟩ | ⟨results, rfl, hresults⟩)
  · exact pure (.refl _) (.inl ⟨rfl, hwaits⟩)
  · have hlen : (results.map QueryReady.lease).length = cfg.numShards := by
      rw [length_map, ← hresults.length_eq, length_range]
    dsimp only
    rw [nil_append]
    split
    · next hmin =>
      -- there is a shard
      rw [min?_eq_none_iff, map_eq_nil_iff] at hmin
      rw [hmin] at hlen
      exact absurd hlen (Nat.ne_of_lt cfg.numShards_pos)
    · next hmin =>
      refine seq release_keeps_nil fun _ _ => pure (.of_eq held_map_none.symm)
        (.inr ⟨_, rfl, ⟨by rw [noHit, length_map, hlen], rfl, rfl, rfl, rfl⟩,
          ⟨results, hresults, hmin⟩, fun shard lease hlease => .inl ⟨rfl, ?_⟩⟩)
      obtain ⟨-, -, rfl⟩ := mem_map.mp (mem_of_getElem? hlease)
      rfl
    · next common _ hmin =>
      have hagree : Agree R cfg id blockHashes.length common := ⟨results, hresults, hmin⟩
      rw [length_take, Nat.min_eq_left hagree.le]
      refine seq (narrow_keeps (n := blockHashes.length) (fun shard hlt h =>
        .inr ⟨common, hagree, shard, hlt, h⟩) results.zipIdx _ (Nat.le_of_eq hlen) ?_ ?_) ?_
      · intro e he
        have hget := mem_zipIdx_iff_getElem?.mp he
        obtain ⟨shard, hshard, haccepted⟩ := forall₂_getElem? hresults.flip hget
        obtain ⟨_, rfl⟩ := List.getElem?_eq_some_iff.mp hshard
        rw [getElem_range] at haccepted
        exact ⟨by rw [length_map]; exact (List.getElem?_eq_some_iff.mp hget).1, haccepted⟩
      · intro i lease hi
        rw [getElem?_map] at hi
        obtain ⟨result, hresult, rfl⟩ := Option.map_eq_some_iff.mp hi
        exact .inr ⟨result, mem_zipIdx_iff_getElem?.mpr hresult, rfl⟩
      · rintro leases ⟨hleases, hon⟩
        exact pure (.refl _) (.inr ⟨_, rfl, ⟨hleases.trans hlen, rfl, rfl, rfl, rfl⟩, hagree,
          fun shard lease hlease => .inr (hon shard lease hlease)⟩)

/-! ### Membership -/

theorem queryMember_keeps (id : QueryId) (n groupId shard : ℕ) :
    Keeps R cfg (queryMember id n groupId shard) [] (fun m => m.lease.toList)
      (fun m => Accepted R (memberCall id n groupId shard) m.ready)
      (Refused R (memberCall id n groupId shard)) := by
  refine seq (queryPrefetch_keeps _) ?_
  rintro (_ | result | typeName) hR
  · exact throw _ (fun _ => rfl) (.of_outcome hR rfl)
  · have hrefused : ∀ message, (result.hitPositions.length ≠ result.numHitBlocks ∨
        (∃ p ∈ result.hitPositions, n ≤ p) ∨
        (result.hitPositions ≠ [] ∧ result.lease.isSome = false)) →
        Keeps R cfg (throw message) result.lease.toList (fun m : Membership => m.lease.toList)
          (fun m => Accepted R (memberCall id n groupId shard) m.ready)
          (Refused R (memberCall id n groupId shard)) := by
      intro message hbad
      refine throw message (fun hfair => ?_) (.of_outcome hR (decide_eq_true hbad))
      have hnone : result.lease = none := hfair.member _ _ _ hR rfl rfl (decide_eq_true hbad)
      rw [hnone]
      rfl
    dsimp only
    split_ifs with hcount hrange hnone
    · exact hrefused _ (.inl hcount)
    · exact hrefused _ (.inr (.inl hrange))
    · exact hrefused _ (.inr (.inr ⟨hnone.1, by rw [hnone.2]; rfl⟩))
    · rw [not_not] at hcount
      obtain ⟨_, positions, lease⟩ := result
      obtain rfl : positions.length = _ := hcount
      refine pure (.refl _) ⟨hR, decide_eq_false ?_⟩
      rintro (h | h | h)
      · exact h rfl
      · exact hrange h
      · exact hnone ⟨h.1, by simpa [Membership.ready] using h.2⟩
  · exact throw _ (fun _ => rfl) (.of_outcome hR rfl)

theorem queryMembers_keeps (id : QueryId) (n groupId : ℕ) (shards : List ℕ)
    (results : List Membership) (hlen : results.length + shards.length ≤ cfg.numShards) :
    Keeps R cfg (queryMembers cfg id n groupId shards results)
      (held cfg.numShards (memberLeases results))
      (fun rs => held cfg.numShards (memberLeases rs))
      (fun rs => ∃ new, rs = results ++ new ∧ Forall₂
        (fun shard m => Accepted R (memberCall id n groupId shard) m.ready) shards new)
      (∃ shard, Refused R (memberCall id n groupId shard)) := by
  induction shards generalizing results with
  | nil => exact pure (.refl _) ⟨[], (append_nil _).symm, .nil⟩
  | cons shard shards ih =>
    have hlt : (memberLeases results).length < cfg.numShards := by
      rw [memberLeases, length_map]
      rw [length_cons] at hlen
      omega
    refine seq (guarded ((queryMember_keeps id n groupId shard).weaken
      fun h => ⟨shard, h⟩) release_keeps_nil) ?_
    intro result hresult
    have hrest := ih (results ++ [result]) (by simp at hlen ⊢; omega)
    refine (hrest.perm ?_).conseq ?_
    · rw [memberLeases, map_append]
      exact (List.Perm.of_eq (held_append _ hlt)).trans perm_append_comm
    · rintro _ ⟨new, rfl, hnew⟩
      exact ⟨result :: new, append_assoc .., .cons hresult hnew⟩

theorem queryGroupMembership_keeps (id : QueryId) (blockHashes : List Hash) (groupId : ℕ) :
    Keeps R cfg (queryGroupMembership cfg id blockHashes groupId) []
      (fun rs => held cfg.numShards (memberLeases rs))
      (MembersFound R cfg id blockHashes.length groupId)
      (∃ shard, Refused R (memberCall id blockHashes.length groupId shard)) := by
  refine ((queryMembers_keeps id blockHashes.length groupId (range cfg.numShards) []
    (by simp)).perm (.of_eq (by simp [memberLeases, held]))).conseq ?_
  rintro _ ⟨new, rfl, hnew⟩
  exact hnew

end Leases

end PegaFlow
