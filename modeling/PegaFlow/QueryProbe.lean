/-
PegaFlow/QueryProbe.lean

Prefix queries end to end: the scheduler connector of `PegaFlow.LeaseConnector` and one
`PrefetchScheduler` per shard.

A poll of a request may find its query loading on some shard; the connector then keeps a
probe with the hashes it asked for and polls again later.  Once all shards are ready the
probe holds one lease per shard.  Between any two calls to a shard the shards go on by
themselves: lookups end, die or are swept away.
-/
import PegaFlow.LeaseProbes
import PegaFlow.Prefetch

namespace PegaFlow

open List Function Option

namespace Leases

variable {Hash Block : Type}

/-! ### The shards -/

/-- The request id a shard sees. -/
def QueryId.text : QueryId → String
  | .request reqId => reqId
  | .tpCommon id commonBlocks => id.text ++ s!":tp-common-{commonBlocks}"
  | .group reqId storageGroup => s!"{reqId}:g{storageGroup}"
  | .groupSpan reqId storageGroup start stop => s!"{reqId}:g{storageGroup}:{start}-{stop}"
  | .denseShrunk reqId blocks => s!"{reqId}:dense-shrunk-{blocks}"
  | .hmaExact reqId blocks => s!"{reqId}:hma-exact-{blocks}"

/-- The call raises at the client. -/
def QueryReply.fails : QueryReply → Bool
  | .raises _ | .unexpected _ => true
  | _ => false

/-- What happens at the shards. -/
inductive Exchange (Hash : Type) where
  /-- The next call is answered: how many hashes are found resident, and whether there is a tier to
  fetch the rest from. -/
  | answered (hit : ℕ) (backing : Bool)
  /-- The next call raises at the client, after or without having been served. -/
  | raised (served : Option (ℕ × Bool))
  /-- The next call asks for the blocks of a storage group; such queries are local. -/
  | member
  | finishTask (shard : ℕ) (reqId : String) (source : Option PrefetchSource) (found : ℕ)
      (delivered : List Hash)
  | failTask (shard : ℕ) (reqId : String)
  | gcStaleEntry (shard : ℕ) (reqId : String)

/-- The shards while calls are answered. -/
structure Serving (Hash Block : Type) where
  /-- The calls to come, with the answers the connector gets. -/
  calls : List (QueryCall × QueryReply)
  shards : ℕ → PrefetchScheduler Hash Block
  /-- The blocks of all leases on a prefix, by the number of the lease. -/
  leased : List (List Block)

namespace Serving

variable [DecidableEq Hash] (stored : ℕ → Hash → Block) (asked : List Hash)
  (v : Serving Hash Block)

def setShard (shard : ℕ) (sched : PrefetchScheduler Hash Block) : Serving Hash Block :=
  { v with shards := update v.shards shard sched }

/-- `check_and_prefetch` for a call: all queries of a poll are for first hashes of `asked`. -/
def serve (call : QueryCall) (hit : ℕ) (backing : Bool) :
    PrefetchStatus Block × PrefetchScheduler Hash Block :=
  let hashes := asked.take call.numHashes
  (v.shards call.shard).checkAndPrefetch call.id.text hashes
    ((hashes.take hit).map (stored call.shard)) backing

/-- The next call is over. -/
def next (calls : List (QueryCall × QueryReply)) (reply : QueryReply) (blocks : List Block) :
    Serving Hash Block :=
  { v with calls, leased := if reply.leased then v.leased ++ [blocks] else v.leased }

/-- One event; `none` if the answer is not the one the connector got. -/
def step : Exchange Hash → Option (Serving Hash Block)
  | .answered hit backing =>
      match v.calls with
      | [] => none
      | (call, reply) :: calls =>
        let served := serve stored asked v call hit backing
        let v := v.setShard call.shard served.2
        match call.groupId, served.1, reply with
        | none, .loading, .loading => some (v.next calls .loading [])
        | none, .ready blocks _, .ready numHitBlocks positions leased =>
            if numHitBlocks = blocks.length then
              some (v.next calls (.ready numHitBlocks positions leased) blocks)
            else none
        | _, _, _ => none
  | .raised served =>
      match v.calls with
      | [] => none
      | (call, reply) :: calls =>
        let shards := served.elim v.shards fun (hit, backing) =>
          (v.setShard call.shard (serve stored asked v call hit backing).2).shards
        if reply.fails then some (next { v with shards } calls reply []) else none
  | .member =>
      match v.calls with
      | [] => none
      | (call, reply) :: calls =>
        if call.groupId.isSome then some (v.next calls reply []) else none
  | .finishTask shard reqId source found delivered =>
      some (v.setShard shard ((v.shards shard).finishTask reqId fun entry =>
        buildReadyResult entry.prefixBlocks entry.hashes.length source found
          ((entry.hashes.drop entry.prefixBlocks.length).take found)
          (delivered.map fun hash => (hash, stored shard hash))))
  | .failTask shard reqId => some (v.setShard shard ((v.shards shard).failTask reqId))
  | .gcStaleEntry shard reqId => some (v.setShard shard ((v.shards shard).gcStaleEntry reqId))

/-- An answered call finds no finished lookup under its id, or one for the same hashes. -/
def SameCall (asked : List Hash) (v : Serving Hash Block) : Exchange Hash → Prop
  | .answered _ _ => ∀ c ∈ v.calls.head?, ∀ entry ∈ (v.shards c.1.shard).active c.1.id.text,
      entry.result ≠ none → entry.hashes = asked.take c.1.numHashes
  | _ => True

instance (asked : List Hash) (v : Serving Hash Block) :
    (e : Exchange Hash) → Decidable (SameCall asked v e)
  | .answered _ _ => inferInstanceAs (Decidable (∀ c ∈ v.calls.head?,
      ∀ entry ∈ (v.shards c.1.shard).active c.1.id.text,
        entry.result ≠ none → entry.hashes = asked.take c.1.numHashes))
  | .raised _ | .member | .finishTask .. | .failTask .. | .gcStaleEntry .. => .isTrue trivial

/-! ### What the calls of a poll get -/

variable {stored asked} {v v' : Serving Hash Block}

/-- The lookups of all shards are about the queries they were started for. -/
def Sound (stored : ℕ → Hash → Block) (v : Serving Hash Block) : Prop :=
  ∀ shard, (v.shards shard).Sound (stored shard)

omit [DecidableEq Hash] in
theorem Sound.setShard (h : Sound stored v) {shard : ℕ} {sched : PrefetchScheduler Hash Block}
    (hsched : sched.Sound (stored shard)) : Sound stored (v.setShard shard sched) := by
  intro i
  show (update v.shards shard sched i).Sound (stored i)
  by_cases hi : i = shard
  · subst hi
    rwa [update_self]
  · rw [update_of_ne hi]
    exact h i

/-- The blocks are what the call has found. -/
def Found (stored : ℕ → Hash → Block) (asked : List Hash) (call : QueryCall) (reply : QueryReply)
    (blocks : List Block) : Prop :=
  call.groupId = none → ∀ numHitBlocks positions leased,
    reply = .ready numHitBlocks positions leased →
      numHitBlocks = blocks.length ∧ StoredUnder (stored call.shard) blocks asked

/-- **The step lemma.**  An event keeps the shards sound; if it ends a call, the blocks of the lease
are those found under the hashes that were asked for. -/
theorem Sound.step {e : Exchange Hash} (h : Sound stored v) (hsame : SameCall asked v e)
    (hstep : v.step stored asked e = some v') :
    Sound stored v' ∧ (v'.calls = v.calls ∧ v'.leased = v.leased ∨
      ∃ call reply calls blocks, v.calls = (call, reply) :: calls ∧ v'.calls = calls ∧
        v'.leased = (if reply.leased then v.leased ++ [blocks] else v.leased) ∧
        Found stored asked call reply blocks) := by
  have hserve : ∀ call hit backing,
      ((serve stored asked v call hit backing).2).Sound (stored call.shard) := fun call _ _ =>
    PrefetchScheduler.Sound.checkAndPrefetch (h call.shard) _ ⟨_, rfl⟩ _
  unfold Serving.step at hstep
  cases e with
  | answered hit backing =>
    dsimp only at hstep
    split at hstep
    · cases hstep
    · next call reply calls hcalls =>
      split at hstep
      · obtain rfl := some.inj hstep
        exact ⟨h.setShard (hserve call hit backing), .inr ⟨call, _, calls, [], hcalls, rfl, rfl,
          fun _ _ _ _ heq => by cases heq⟩⟩
      · next blocks missing numHitBlocks positions leased _ hready =>
        obtain ⟨hlength, hstep⟩ := ite_none_right_eq_some.mp hstep
        obtain rfl := some.inj hstep
        refine ⟨h.setShard (hserve call hit backing), .inr ⟨call, _, calls, blocks, hcalls, rfl,
          rfl, fun _ _ _ _ heq => ?_⟩⟩
        cases heq
        exact ⟨hlength, (PrefetchScheduler.checkAndPrefetch_ready (h call.shard) ⟨_, rfl⟩
          (hsame _ (by rw [hcalls]; rfl)) (Prod.ext hready rfl)).of_take⟩
      · cases hstep
  | raised served =>
    dsimp only at hstep
    split at hstep
    · cases hstep
    · next call reply calls hcalls =>
      obtain ⟨hfails, hstep⟩ := ite_none_right_eq_some.mp hstep
      obtain rfl := some.inj hstep
      refine ⟨?_, .inr ⟨call, reply, calls, [], hcalls, rfl, rfl, fun _ _ _ _ heq => ?_⟩⟩
      · cases served with
        | none => exact h
        | some answer => exact h.setShard (hserve call answer.1 answer.2)
      · rw [heq] at hfails
        cases hfails
  | member =>
    dsimp only at hstep
    split at hstep
    · cases hstep
    · next call reply calls hcalls =>
      obtain ⟨hgroup, hstep⟩ := ite_none_right_eq_some.mp hstep
      obtain rfl := some.inj hstep
      refine ⟨h, .inr ⟨call, reply, calls, [], hcalls, rfl, rfl, fun hnone => ?_⟩⟩
      rw [hnone] at hgroup
      cases hgroup
  | finishTask shard reqId source found delivered =>
    obtain rfl := some.inj hstep
    exact ⟨h.setShard ((h shard).finishTask reqId fun entry hentry =>
      PrefetchScheduler.storedUnder_buildReadyResult hentry ..), .inl ⟨rfl, rfl⟩⟩
  | failTask shard reqId =>
    obtain rfl := some.inj hstep
    exact ⟨h.setShard ((h shard).finishTask reqId fun _ _ => ⟨0, rfl⟩), .inl ⟨rfl, rfl⟩⟩
  | gcStaleEntry shard reqId =>
    obtain rfl := some.inj hstep
    exact ⟨h.setShard ((h shard).gcStaleEntry reqId), .inl ⟨rfl, rfl⟩⟩

/-- What the answers of a poll leave: the lease of a prefix call holds what the call has found. -/
def Served (stored : ℕ → Hash → Block) (asked : List Hash) (leased : List (List Block)) : Answers :=
  fun call reply lease => ∀ k, lease = some k →
    ∃ blocks, leased[k]? = some blocks ∧ Found stored asked call reply blocks

/-- **The run lemma.**  When all calls have been answered, the shards are sound, and there is a
lease for every answer that came with one. -/
theorem Sound.run {exchanges : List (Exchange Hash)} (h : Sound stored v)
    (hsame : Along (Serving.step stored asked) (SameCall asked) v exchanges)
    (hrun : exec (Serving.step stored asked) v exchanges = some v') (hend : v'.calls = []) :
    Sound stored v' ∧ v.leased <+: v'.leased ∧
      v'.leased.length = v.leased.length + v.calls.countP (fun c => c.2.leased) ∧
      Prog.Answered QueryReply.leased (Served stored asked v'.leased) v.leased.length v.calls := by
  induction exchanges generalizing v with
  | nil =>
    obtain rfl := some.inj hrun
    rw [hend]
    exact ⟨h, prefix_rfl, rfl, trivial⟩
  | cons e exchanges ih =>
    obtain ⟨w, hstep, hrest⟩ := exec_cons_some hrun
    obtain ⟨hcall, halong⟩ := (along_cons hstep).mp hsame
    obtain ⟨hsound, hcases⟩ := h.step hcall hstep
    obtain ⟨hsound', hprefix, hlength, hanswered⟩ := ih hsound halong hrest
    rcases hcases with
      ⟨hcalls, hleased⟩ | ⟨call, reply, calls, blocks, hcalls, rfl, hleased, hfound⟩
    · rw [hcalls, hleased] at hanswered hlength
      exact ⟨hsound', hleased ▸ hprefix, hlength, hanswered⟩
    · rw [hcalls, Prog.Answered, countP_cons]
      rw [hleased] at hprefix hlength hanswered
      dsimp only
      cases hreply : reply.leased with
      | false =>
        rw [hreply] at hprefix hlength hanswered
        exact ⟨hsound', hprefix, hlength, by rintro _ ⟨⟩, hanswered⟩
      | true =>
        rw [hreply, if_pos rfl] at hprefix hlength hanswered
        rw [length_append] at hlength hanswered
        refine ⟨hsound', ( prefix_append _ _).trans hprefix, ?_, ?_, hanswered⟩
        · rw [hlength, length_singleton, if_pos rfl]
          omega
        · rintro _ ⟨⟩
          obtain ⟨rest, hrest⟩ := hprefix
          refine ⟨blocks, ?_, hfound⟩
          rw [← hrest, append_assoc, getElem?_append_right le_rfl, Nat.sub_self]
          rfl

end Serving

/-! ### The connector with its shards -/

structure QueryState (Hash Block : Type) where
  connector : Connector Hash
  shards : ℕ → PrefetchScheduler Hash Block
  leased : List (List Block)

section System

variable [DecidableEq Hash] (cfg : LeaseConfig Hash) (stored : ℕ → Hash → Block)

/-- The hashes a poll asks the backend for: those of the probe that is loading, or its own. -/
def asked (s : Connector Hash) : Action Hash → List Hash
  | .getNumNewMatchedTokens request numComputedTokens _ =>
      match s.pendingQueryProbes.lookup request.requestId,
        cfg.buildQuery request (numComputedTokens / cfg.ctx.virtualBlockSize) with
      | some { result := none, queryHashes, .. }, _ => queryHashes
      | _, .ok (queryHashes, _) => queryHashes
      | _, .error _ => []
  | _ => []

namespace QueryState

def init : QueryState Hash Block where
  connector := .init
  shards _ := .new
  leased := []

variable (s : QueryState Hash Block)

/-- The shards after a call of the connector: only polls make calls to them. -/
def serving (a : Action Hash) (connector : Connector Hash) : Serving Hash Block where
  calls := match a with
    | .getNumNewMatchedTokens _ _ _ => connector.ledger.log
    | _ => []
  shards := s.shards
  leased := s.leased

/-- A call of the connector, with what happens at the shards meanwhile; `none` if the answers of the
shards are not those that the connector gets. -/
def step (x : Action Hash × List (Exchange Hash)) : Option (QueryState Hash Block) := do
  let connector ← Connector.step cfg s.connector x.1
  let v ← exec (Serving.step stored (asked cfg s.connector x.1)) (s.serving x.1 connector) x.2
  if v.calls = [] then return { connector, shards := v.shards, leased := v.leased } else none

/-- **The condition**: no answered call finds a finished lookup for other hashes under its id. -/
def SameQuery (x : Action Hash × List (Exchange Hash)) : Prop :=
  ∀ connector ∈ Connector.step cfg s.connector x.1,
    Along (Serving.step stored (asked cfg s.connector x.1))
      (Serving.SameCall (asked cfg s.connector x.1)) (s.serving x.1 connector) x.2

instance (x : Action Hash × List (Exchange Hash)) : Decidable (SameQuery cfg stored s x) :=
  inferInstanceAs (Decidable (∀ connector ∈ _, Along _ _ _ _))

end QueryState

/-! ### Ready probes hold the blocks of their own query -/

/-- On every shard the probe holds a lease whose first blocks, as many as the hit, are those stored
under the first hashes of its query. -/
def ProbeHolds (leased : List (List Block)) (probe : QueryProbe Hash) (r : ShardedQueryReady) :
    Prop :=
  ∀ shard < cfg.numShards, ∀ i < r.numHitBlocks, ∃ lease blocks hash,
    r.leases[shard]? = some (some lease) ∧ leased[lease]? = some blocks ∧
      probe.queryHashes[i]? = some hash ∧ blocks[i]? = some (stored shard hash)

def ProbesHold (s : QueryState Hash Block) : Prop :=
  Probed (ProbeHolds cfg stored s.leased) s.connector

variable {cfg stored} {s s' : QueryState Hash Block} {leased : List (List Block)}

omit [DecidableEq Hash] in
theorem ProbeHolds.mono {probe : QueryProbe Hash} {r : ShardedQueryReady}
    {leased' : List (List Block)} (h : ProbeHolds cfg stored leased probe r)
    (hextends : leased <+: leased') : ProbeHolds cfg stored leased' probe r := by
  intro shard hshard i hi
  obtain ⟨lease, blocks, hash, hlease, hblocks, hhash⟩ := h shard hshard i hi
  obtain ⟨new, rfl⟩ := hextends
  exact ⟨lease, blocks, hash, hlease,
    (getElem?_append_left (List.getElem?_eq_some_iff.mp hblocks).1).trans hblocks, hhash⟩

/-- What holds of all ready probes. -/
def Holding (cfg : LeaseConfig Hash) (stored : ℕ → Hash → Block) (leased : List (List Block))
    (probe : QueryProbe Hash) (r : ShardedQueryReady) : Prop :=
  probe.tailTokens ≤ cfg.ctx.virtualBlockSize ∧ ProbeHolds cfg stored leased probe r

omit [DecidableEq Hash] in
theorem shrinks_holding : Shrinks cfg (Holding cfg stored leased) where
  tail_le h := h.1
  shrink h _ hle := ⟨h.1, fun shard hshard i hi => h.2 shard hshard i (hi.trans_le hle)⟩

omit [DecidableEq Hash] in
/-- **A lookup** whose calls were served makes a probe that holds the blocks of its query. -/
theorem LookupResult.probeHolds {request : Request Hash} {ready r : ShardedQueryReady}
    {id : QueryId} {queryHashes : List Hash} {probe : QueryProbe Hash} {computedBlocks : ℕ}
    (hready : QueryHit (Serving.Served stored queryHashes leased) cfg id queryHashes.length ready)
    (h : LookupResult (Serving.Served stored queryHashes leased) cfg request computedBlocks
      queryHashes ready r) (hprobe : probe.queryHashes = queryHashes) :
    ProbeHolds cfg stored leased probe r := by
  obtain ⟨hlength, hleases⟩ := h.lease hready
  intro shard hshard i hi
  have hget := getElem?_eq_getElem (hlength ▸ hshard)
  rcases hleases shard _ hget with ⟨hzero, -⟩ | ⟨id', n, result, haccepted, hblocks, hlease⟩
  · omega
  · obtain ⟨lease, hsome⟩ := ne_none_iff_exists'.mp
      ((raises_dense_iff.mp haccepted.accepted).2.1 (by omega))
    obtain ⟨blocks, hleased, hfound⟩ := haccepted.meets lease hsome
    obtain ⟨hcount, hstored⟩ := hfound rfl _ _ _ rfl
    obtain ⟨hash, hhash, hblock⟩ := hstored.getElem? (show i < blocks.length by omega)
    exact ⟨lease, blocks, hash, by rw [hget, ← hlease, hsome], hleased, hprobe ▸ hhash, hblock⟩

structure QueryState.Inv (cfg : LeaseConfig Hash) (stored : ℕ → Hash → Block)
    (s : QueryState Hash Block) : Prop where
  sound : ∀ shard, (s.shards shard).Sound (stored shard)
  length_eq : s.leased.length = s.connector.ledger.handed
  probes : Probed (Holding cfg stored s.leased) s.connector

namespace QueryState

omit [DecidableEq Hash] in
theorem inv_init : Inv cfg stored (init : QueryState Hash Block) where
  sound _ := PrefetchScheduler.sound_new
  length_eq := rfl
  probes reqId probe r h := absurd h (by simp [init, Connector.init])

theorem inv_step {x : Action Hash × List (Exchange Hash)} (h : Inv cfg stored s)
    (hsame : SameQuery cfg stored s x) (hstep : step cfg stored s x = some s') :
    Inv cfg stored s' := by
  obtain ⟨a, exchanges⟩ := x
  obtain ⟨connector, hconnector, hstep⟩ := bind_eq_some_iff.mp hstep
  obtain ⟨v, hrun, hstep⟩ := bind_eq_some_iff.mp hstep
  obtain ⟨hend, hstep⟩ := ite_none_right_eq_some.mp hstep
  obtain rfl := some.inj hstep
  obtain ⟨hsound, hprefix, hlength, hanswered⟩ :=
    Serving.Sound.run (v := s.serving a connector) h.sound (hsame connector hconnector) hrun hend
  have hbefore : Probed (Holding cfg stored v.leased) s.connector :=
    fun reqId probe r hlookup hresult =>
      ⟨(h.probes reqId probe r hlookup hresult).1,
        (h.probes reqId probe r hlookup hresult).2.mono hprefix⟩
  cases a with
  | getNumNewMatchedTokens request numComputedTokens replies =>
    obtain rfl := some.inj hconnector
    obtain ⟨log, hlog, hhanded⟩ := exists_log_getNumNewMatchedTokens cfg
      (s.connector.withReplies replies) request numComputedTokens
    rw [show (s.connector.withReplies replies).ledger.log = [] from rfl, nil_append] at hlog
    refine ⟨hsound, ?_, ?_⟩
    · rw [hlength, hhanded, ← hlog]
      exact congrArg (· + _) h.length_eq
    suffices hnew : _ from (polled_getNumNewMatchedTokens (s := s.connector.withReplies replies)
      shrinks_holding hbefore request numComputedTokens hnew).choose_spec.choose_spec.1.probed
    intro s₁ hcalm queryHashes tailTokens r hquery hhashes run hok hrunLog
    refine ⟨(of_buildQuery hquery).2.le, ?_⟩
    -- the poll asks for the hashes of its own query
    have hasked : asked cfg s.connector
        (.getNumNewMatchedTokens request numComputedTokens replies) = queryHashes := by
      unfold asked
      dsimp only
      rw [hquery]
      split
      · next hprobe => exact hhashes _ hprobe rfl
      · next heq _ => exact (congrArg Prod.fst (Except.ok.inj heq)).symm
      · next heq _ => cases heq
    rw [hasked] at hanswered
    obtain ⟨-, -, B, -, hret, -⟩ := (countAvailableBlockPrefix_keeps (raises_true request)
      (numComputedTokens / cfg.ctx.virtualBlockSize) queryHashes).run nodup_nil (by simp)
        (by rw [← hrunLog, hcalm.log]; rfl) (by rw [hcalm.handed]; exact h.length_eq ▸ hanswered)
    rw [show (Prog.run QueryReply.leased _ s₁.ledger).1 = .ok (some r) from hok] at hret
    obtain ⟨-, ⟨⟨⟩, -⟩ | ⟨ready, _, ⟨⟩, hready, hresult⟩⟩ := hret
    exact hresult.probeHolds hready rfl
  | updateStateAfterAlloc | requestFinished | updateConnectorOutput | buildConnectorMeta
  | shutdown =>
    have hcalm := calm_step hconnector fun _ _ _ => nofun
    exact ⟨hsound, hlength.trans (h.length_eq.trans hcalm.handed.symm), hbefore.calm hcalm⟩

/-- **Query identity.**  In every run in which no answered call finds a lookup for other
hashes under its id, every ready probe holds on every shard the blocks of its own query. -/
theorem probesHold_of_sameQuery (cfg : LeaseConfig Hash) (stored : ℕ → Hash → Block)
    (xs : List (Action Hash × List (Exchange Hash)))
    (h : Along (step cfg stored) (SameQuery cfg stored) init xs) :
    Always (step cfg stored) (ProbesHold cfg stored) init xs :=
  (always_of_along (fun _ _ _ hinv hC hstep => inv_step hinv hC hstep) inv_init h).mono
    fun _ hinv reqId probe r hlookup hresult => (hinv.probes reqId probe r hlookup hresult).2

/-- Shard 0 has to load and ends up with three blocks, shard 1 has two: shard 0 is asked
again for two. -/
def narrowedRun : List (Action ℕ × List (Exchange ℕ)) :=
  [(.getNumNewMatchedTokens (smallRequest "r" [1, 2, 3]) 0 [.loading], [.answered 1 true]),
    (.getNumNewMatchedTokens (smallRequest "r" [1, 2, 3]) 0
        [.ready 3 [] true, .ready 2 [] true, .ready 2 [] true],
      [.finishTask 0 "r" (some .ssd) 2 [3, 2], .answered 0 true, .answered 2 false,
        .answered 2 false])]

/-- Blocks are named by shard and hash. -/
theorem probesHold_narrowed :
    let cfg := smallLeaseConfig [⟨.dense, 1⟩] 2 (by decide)
    Always (step cfg Prod.mk) (ProbesHold cfg Prod.mk) init narrowedRun ∧
      (exec (step cfg Prod.mk) init narrowedRun).bind (fun s =>
          (s.connector.pendingQueryProbes.lookup "r").bind fun probe => probe.result.map
            fun r => (r.numHitBlocks, r.leases, s.leased)) =
        some (2, [some 2, some 1],
          [[(0, 1), (0, 2), (0, 3)], [(1, 1), (1, 2)], [(0, 1), (0, 2)]]) :=
  ⟨probesHold_of_sameQuery _ _ narrowedRun (by decide +kernel), by decide +kernel⟩

/-- A query for hashes 1, 2 is loading when the request computes both blocks itself, so that
the probe is dropped.  Preempted and resumed with one block computed, the request asks for
hashes 2, 3 under the same id. -/
def droppedProbeRun : List (Action ℕ × List (Exchange ℕ)) :=
  [(.getNumNewMatchedTokens (smallRequest "r" [1, 2]) 0 [.loading], [.answered 0 true]),
    (.getNumNewMatchedTokens (smallRequest "r" [1, 2]) 2 [], []),
    (.getNumNewMatchedTokens (smallRequest "r" [1, 2, 3]) 1 [.ready 2 [] true],
      [.finishTask 0 "r" (some .ssd) 2 [1, 2], .answered 0 true])]

/-- It is given the blocks 1, 2. -/
theorem not_probesHold_droppedProbe :
    let cfg := smallLeaseConfig [⟨.dense, 1⟩] 1 (by decide)
    ¬ Always (step cfg fun _ hash => hash) (ProbesHold cfg fun _ hash => hash) init
      droppedProbeRun := by
  intro cfg h
  have hprobe : (exec (step cfg fun _ hash => hash) init droppedProbeRun).bind (fun s =>
      (s.connector.pendingQueryProbes.lookup "r").bind fun probe => probe.result.map
        fun r => (probe.queryHashes, r.numHitBlocks, r.leases, s.leased)) =
      some ([2, 3], 2, [some 0], [[1, 2]]) := by decide +kernel
  obtain ⟨s, hs, hprobe⟩ := bind_eq_some_iff.mp hprobe
  obtain ⟨probe, hlookup, hprobe⟩ := bind_eq_some_iff.mp hprobe
  obtain ⟨r, hresult, heq⟩ := map_eq_some_iff.mp hprobe
  obtain ⟨hhashes, hhit, hleases, hleased⟩ : _ ∧ _ ∧ _ ∧ _ := by simpa using heq
  obtain ⟨lease, blocks, hash, hlease, hblocks, hhash, hblock⟩ :=
    h.exec hs "r" probe r hlookup hresult 0 (by decide) 0 (by omega)
  rw [hleases] at hlease
  cases hlease
  rw [hleased] at hblocks
  cases hblocks
  rw [hhashes] at hhash
  cases hhash
  cases hblock

end QueryState

end System

end Leases

end PegaFlow
