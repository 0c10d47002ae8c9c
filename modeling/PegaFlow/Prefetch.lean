/-
PegaFlow/Prefetch.lean

`PrefetchScheduler` (`storage/prefetch.rs`): prefix queries of one PegaFlow server.

A query names a request id and a list of block hashes.  The server keeps at most one
background lookup per request id and remembers it by that id only: while the lookup runs
every query under the id is told to come back, and the first query after its end gets its
result, whatever hashes it asks for.  Without a lookup the resident prefix is scanned, and
if blocks are missing and there is a backing tier a lookup is started.
-/
import PegaFlow.Loops

namespace PegaFlow

open List Function

variable {Hash Block : Type*}

/-! ### The result of a lookup -/

inductive PrefetchSource where
  | rdma
  | ssd
deriving DecidableEq, Repr

structure PrefetchTaskResult (Hash Block : Type*) where
  source : Option PrefetchSource
  found : ℕ
  cacheInserts : List (Hash × Block)
  readyBlocks : List Block
  missing : ℕ
deriving DecidableEq, Repr

section Result

variable [BEq Hash]

/-- The block a list of inserts holds for a key; later ones replace earlier ones. -/
def insertFor (cacheInserts : List (Hash × Block)) (key : Hash) : Option Block :=
  cacheInserts.reverse.lookup key

def buildReadyResult (prefixBlocks : List Block) (total : ℕ) (source : Option PrefetchSource)
    (found : ℕ) (requestedKeys : List Hash) (cacheInserts : List (Hash × Block)) :
    PrefetchTaskResult Hash Block :=
  let readyBlocks := prefixBlocks ++ mapWhile (insertFor cacheInserts) requestedKeys
  { source, found, cacheInserts, readyBlocks, missing := total - readyBlocks.length }

variable [LawfulBEq Hash] {cacheInserts : List (Hash × Block)} {key : Hash} {block : Block}

theorem mem_of_insertFor (h : insertFor cacheInserts key = some block) :
    (key, block) ∈ cacheInserts := by
  obtain ⟨front, back, hsplit, -⟩ := lookup_eq_some_iff.mp h
  rw [← mem_reverse, hsplit]
  exact mem_append_right _ mem_cons_self

theorem isSome_insertFor (h : (key, block) ∈ cacheInserts) :
    (insertFor cacheInserts key).isSome := by
  cases hlookup : insertFor cacheInserts key with
  | some _ => rfl
  | none =>
    have hne := lookup_eq_none_iff.mp hlookup (key, block) (mem_reverse.mpr h)
    rw [bne_self_eq_false] at hne
    cases hne

end Result

/-! ### The request table -/

/-- A background lookup: the query it was started for and the resident prefix. -/
structure PrefetchEntry (Hash Block : Type*) where
  hashes : List Hash
  prefixBlocks : List Block
  /-- What the task has returned, once it has ended. -/
  result : Option (PrefetchTaskResult Hash Block)

/-- `active` of `PrefetchState`: the lookups by request id. -/
structure PrefetchScheduler (Hash Block : Type*) where
  active : String → Option (PrefetchEntry Hash Block)

inductive PrefetchStatus (Block : Type*) where
  | loading
  | ready (blocks : List Block) (missing : ℕ)

variable (stored : Hash → Block)

/-- The blocks are those stored under the first hashes, in order. -/
def StoredUnder (blocks : List Block) (hashes : List Hash) : Prop :=
  ∃ n, blocks = (hashes.take n).map stored

variable {blocks more : List Block} {hashes : List Hash}

theorem StoredUnder.getElem? {stored : Hash → Block} (h : StoredUnder stored blocks hashes) {i : ℕ}
    (hi : i < blocks.length) :
    ∃ hash, hashes[i]? = some hash ∧ blocks[i]? = some (stored hash) := by
  obtain ⟨n, rfl⟩ := h
  rw [length_map, length_take] at hi
  have hlt : i < hashes.length := by omega
  refine ⟨hashes[i], getElem?_eq_getElem hlt, ?_⟩
  rw [getElem?_map, getElem?_take, if_pos (by omega), getElem?_eq_getElem hlt]
  rfl

theorem StoredUnder.of_take {stored : Hash → Block} {n : ℕ}
    (h : StoredUnder stored blocks (hashes.take n)) : StoredUnder stored blocks hashes := by
  obtain ⟨m, rfl⟩ := h
  exact ⟨min m n, by rw [take_take]⟩

theorem StoredUnder.append {stored : Hash → Block} (h : StoredUnder stored blocks hashes)
    (hmore : StoredUnder stored more (hashes.drop blocks.length)) :
    StoredUnder stored (blocks ++ more) hashes := by
  obtain ⟨m, rfl⟩ := h
  obtain ⟨n, rfl⟩ := hmore
  refine ⟨min m hashes.length + n, ?_⟩
  rw [length_map, length_take, take_add, map_append,
    take_eq_take_iff.mpr (show min m _ = min (min m hashes.length) _ by omega)]

theorem storedUnder_mapWhile {stored : Hash → Block} {f : Hash → Option Block}
    (h : ∀ hash block, f hash = some block → block = stored hash) (hashes : List Hash) :
    StoredUnder stored (mapWhile f hashes) hashes := by
  induction hashes with
  | nil => exact ⟨0, rfl⟩
  | cons hash rest ih =>
    cases hf : f hash with
    | none => exact ⟨0, mapWhile_cons_none hf rest⟩
    | some block =>
      obtain ⟨n, hn⟩ := ih
      refine ⟨n + 1, ?_⟩
      rw [mapWhile_cons_some hf, hn, h hash block hf]
      rfl

/-- The blocks of a lookup are those of the query it was started for. -/
structure PrefetchEntry.Sound (stored : Hash → Block) (entry : PrefetchEntry Hash Block) :
    Prop where
  prefixBlocks : StoredUnder stored entry.prefixBlocks entry.hashes
  result : ∀ result, entry.result = some result →
    StoredUnder stored result.readyBlocks entry.hashes

namespace PrefetchScheduler

def new : PrefetchScheduler Hash Block where
  active _ := none

variable (s : PrefetchScheduler Hash Block)

/-- `start_prefetch_task`, for an id without a lookup. -/
def startPrefetchTask (reqId : String) (hashes : List Hash) (prefixBlocks : List Block) :
    PrefetchScheduler Hash Block where
  active := update s.active reqId (some { hashes, prefixBlocks, result := none })

/-- `check_and_prefetch`: poll the lookup of this id, or scan.  `prefixBlocks` are the blocks of
the leading hashes found resident, `backing` says whether there is a tier to fetch the rest from. -/
def checkAndPrefetch (reqId : String) (hashes : List Hash) (prefixBlocks : List Block)
    (backing : Bool) : PrefetchStatus Block × PrefetchScheduler Hash Block :=
  match s.active reqId with
  | some entry =>
      match entry.result with
      | none => (.loading, s)
      | some result =>
          (.ready result.readyBlocks result.missing, { active := update s.active reqId none })
  | none =>
      if hashes.drop prefixBlocks.length ≠ [] ∧ backing then
        (.loading, s.startPrefetchTask reqId hashes prefixBlocks)
      else (.ready prefixBlocks (hashes.length - prefixBlocks.length), s)

/-- A lookup ends, once, with the result of its task. -/
def finishTask (reqId : String)
    (run : PrefetchEntry Hash Block → PrefetchTaskResult Hash Block) :
    PrefetchScheduler Hash Block where
  active := update s.active reqId ((s.active reqId).map fun entry =>
    { entry with result := entry.result.or (some (run entry)) })

/-- A lookup dies; polling it then gives an empty result. -/
def failTask (reqId : String) : PrefetchScheduler Hash Block :=
  s.finishTask reqId fun _ =>
    { source := none, found := 0, cacheInserts := [], readyBlocks := [], missing := 0 }

/-- `gc_stale_entries`, for one entry that has become stale. -/
def gcStaleEntry (reqId : String) : PrefetchScheduler Hash Block where
  active := update s.active reqId none

theorem active_startPrefetchTask (reqId : String) (hashes : List Hash) (prefixBlocks : List Block) :
    (s.startPrefetchTask reqId hashes prefixBlocks).active reqId =
      some { hashes, prefixBlocks, result := none } :=
  update_self ..

theorem active_finishTask (reqId : String)
    (run : PrefetchEntry Hash Block → PrefetchTaskResult Hash Block) :
    (s.finishTask reqId run).active reqId = (s.active reqId).map fun entry =>
      { entry with result := entry.result.or (some (run entry)) } :=
  update_self ..

/-! ### What lookups return -/

variable {stored : Hash → Block} {s : PrefetchScheduler Hash Block} {prefixBlocks : List Block}
  {entry : PrefetchEntry Hash Block}

/-- The lookups of a server are about the query they were started for. -/
def Sound (stored : Hash → Block) (s : PrefetchScheduler Hash Block) : Prop :=
  ∀ reqId entry, s.active reqId = some entry → entry.Sound stored

theorem sound_new : Sound stored (new : PrefetchScheduler Hash Block) :=
  fun _ _ h => by cases h

/-- Replacing one entry by a sound one, or by none, keeps the server sound. -/
theorem Sound.update (h : Sound stored s) (reqId : String)
    {entry : Option (PrefetchEntry Hash Block)} (hentry : ∀ e, entry = some e → e.Sound stored) :
    Sound stored { active := update s.active reqId entry } := by
  intro id e he
  dsimp only at he
  by_cases hid : id = reqId
  · rw [hid, update_self] at he
    exact hentry e he
  · rw [update_of_ne hid] at he
    exact h id e he

/-- A finished lookup has fetched the blocks of its own query. -/
theorem storedUnder_buildReadyResult [BEq Hash] [LawfulBEq Hash] (h : entry.Sound stored)
    (total : ℕ) (source : Option PrefetchSource) (found : ℕ) (delivered : List Hash) :
    StoredUnder stored (buildReadyResult entry.prefixBlocks total source found
      ((entry.hashes.drop entry.prefixBlocks.length).take found)
      (delivered.map fun hash => (hash, stored hash))).readyBlocks entry.hashes := by
  refine h.prefixBlocks.append (storedUnder_mapWhile (fun hash block hinsert => ?_) _).of_take
  obtain ⟨_, -, heq⟩ := mem_map.mp (mem_of_insertFor hinsert)
  obtain ⟨rfl, rfl⟩ := Prod.mk.inj heq
  rfl

section

variable (h : Sound stored s)
include h

/-- **A ready answer is about the query of the lookup**, or about the query itself if no
lookup was running under its id. -/
theorem checkAndPrefetch_ready {reqId : String} {backing : Bool} {missing : ℕ}
    {s' : PrefetchScheduler Hash Block} (hscan : StoredUnder stored prefixBlocks hashes)
    (hsame : ∀ entry ∈ s.active reqId, entry.result ≠ none → entry.hashes = hashes)
    (hready : s.checkAndPrefetch reqId hashes prefixBlocks backing = (.ready blocks missing, s')) :
    StoredUnder stored blocks hashes := by
  unfold checkAndPrefetch at hready
  split at hready
  · next entry hentry =>
    split at hready
    · cases hready
    · next result hresult =>
      cases hready
      rw [← hsame entry hentry (by simp [hresult])]
      exact (h reqId entry hentry).result _ hresult
  · split at hready
    · cases hready
    · cases hready
      exact hscan

variable (reqId : String)

theorem Sound.checkAndPrefetch (hscan : StoredUnder stored prefixBlocks hashes) (backing : Bool) :
    Sound stored (s.checkAndPrefetch reqId hashes prefixBlocks backing).2 := by
  unfold PrefetchScheduler.checkAndPrefetch
  split
  · split
    · exact h
    · exact h.update reqId (by simp)
  · split
    · refine h.update reqId ?_
      rintro e ⟨⟩
      exact ⟨hscan, by rintro _ ⟨⟩⟩
    · exact h

/-- A lookup ends with a result about its own query, unless it has one already. -/
theorem Sound.finishTask {run : PrefetchEntry Hash Block → PrefetchTaskResult Hash Block}
    (hrun : ∀ entry : PrefetchEntry Hash Block, entry.Sound stored →
      StoredUnder stored (run entry).readyBlocks entry.hashes) :
    Sound stored (s.finishTask reqId run) := by
  refine h.update reqId ?_
  intro e he
  obtain ⟨entry, hentry, rfl⟩ := Option.map_eq_some_iff.mp he
  have hold := h reqId entry hentry
  refine ⟨hold.prefixBlocks, fun result hresult => ?_⟩
  rcases Option.or_eq_some_iff.mp hresult with hresult | ⟨-, hnew⟩
  · exact hold.result result hresult
  · cases hnew
    exact hrun entry hold

theorem Sound.gcStaleEntry : Sound stored (s.gcStaleEntry reqId) :=
  h.update reqId (by simp)

end

end PrefetchScheduler

end PegaFlow
