/-
PegaFlow/PrefetchResults.lean

What a prefix query returns in the end, whichever tier answered.
-/
import PegaFlow.SsdPrefetchTask

namespace PegaFlow.SsdPrefetch

open List

variable {n : ℕ} {source : Option PrefetchSource}

/-! ### Tiers -/

structure TierAttribution where
  ram : ℕ
  rdma : ℕ
  ssd : ℕ
  miss : ℕ

namespace TierAttribution

/-- `none` where the subtraction underflows, or an assertion fails. -/
def classify (total hit loading : ℕ) (loadingSource : Option PrefetchSource) :
    Option TierAttribution :=
  if hit + loading ≤ total then
    let miss := total - (hit + loading)
    match loadingSource with
    | some .rdma => some ⟨hit, loading, 0, miss⟩
    | some .ssd => some ⟨hit, 0, loading, miss⟩
    | none => if loading = 0 then some ⟨hit, 0, 0, miss⟩ else none
  else none

def sum (t : TierAttribution) : ℕ := t.ram + t.rdma + t.ssd + t.miss

theorem exists_classify {total hit loading : ℕ} (hle : hit + loading ≤ total)
    (hnone : source = none → loading = 0) :
    ∃ t, classify total hit loading source = some t ∧ t.sum = total := by
  unfold classify
  rw [if_pos hle]
  rcases source with - | - | -
  · refine ⟨_, if_pos (hnone rfl), ?_⟩
    show hit + 0 + 0 + (total - (hit + loading)) = total
    rw [hnone rfl]
    omega
  · refine ⟨_, rfl, ?_⟩
    show hit + loading + 0 + (total - (hit + loading)) = total
    omega
  · refine ⟨_, rfl, ?_⟩
    show hit + 0 + loading + (total - (hit + loading)) = total
    omega

end TierAttribution

/-! ### The tier that answers -/

variable (deps : PrefetchTaskDeps n) (input : PrefetchTaskInput)

/-- The tier whose answer the task takes, the number of keys asked of it and the blocks it
delivered: the first remote fetch that answers at once, else the SSD store, else, for the full
prefix, the first remote fetch that answers before the timeout, else none. -/
def tierAnswer : Option PrefetchSource × ℕ × List (BlockKey × SealedBlock) :=
  match deps.rdmaFirst, ssdAnswer deps input,
    if input.waitForFullPrefix then deps.rdmaPolls.findSome? id else none with
  | some fetched, _, _ => (some .rdma, fetched)
  | none, some fetched, _ => (some .ssd, fetched)
  | none, none, some fetched => (some .rdma, fetched)
  | none, none, none => (none, 0, [])

/-- **The task** builds its result from the answer of one tier. -/
theorem runPrefetchTask_eq :
    runPrefetchTask deps input =
      let answer := tierAnswer deps input
      buildReadyResult input.prefixBlocks input.total answer.1 answer.2.1
        (input.remainingKeys.take answer.2.1) answer.2.2 := by
  unfold runPrefetchTask tierAnswer
  rw [ssdAttempt_eq]
  generalize deps.rdmaFirst = first
  generalize ssdAnswer deps input = ssd
  generalize (if input.waitForFullPrefix then deps.rdmaPolls.findSome? id else none) = later
  rcases first with _ | fetched
  · rcases ssd with _ | fetched
    · rcases later with _ | fetched <;> rfl
    · rfl
  · rfl

/-- A tier is asked for no more keys than there are, if the plan of a remote fetch is not longer
than its request; without a tier there is nothing to fetch. -/
theorem tierAnswer_found (hplan : (tierAnswer deps input).1 = some .rdma →
      (tierAnswer deps input).2.1 ≤ input.remainingKeys.length) :
    (tierAnswer deps input).2.1 ≤ input.remainingKeys.length ∧
      ((tierAnswer deps input).1 = none → (tierAnswer deps input).2.1 = 0) := by
  unfold tierAnswer at hplan ⊢
  generalize deps.rdmaFirst = first at hplan ⊢
  generalize hssd : ssdAnswer deps input = ssd at hplan ⊢
  generalize (if input.waitForFullPrefix then deps.rdmaPolls.findSome? id else none) = later
    at hplan ⊢
  rcases first with _ | fetched
  · rcases ssd with _ | fetched
    · rcases later with _ | fetched
      · exact ⟨Nat.zero_le _, fun _ => rfl⟩
      · exact ⟨hplan rfl, nofun⟩
    · obtain ⟨ssd, -, hssd⟩ := Option.bind_eq_some_iff.mp hssd
      obtain ⟨-, hfetched⟩ := Option.ite_none_right_eq_some.mp hssd
      obtain rfl := Option.some.inj hfetched
      exact ⟨(prefetchPrefix_le _ _).trans (length_take_le' _ _), nofun⟩
  · exact ⟨hplan rfl, nofun⟩

/-! ### Polling -/

inductive LookupEvent where
  | poll
  /-- The background task ends. -/
  | finish

section Poll

variable (reqId : String) (keys : List BlockKey) (prefixBlocks : List SealedBlock)
  (backing waitForFullPrefix : Bool)

/-- The first answer that is ready when a lookup is polled with the same arguments: the blocks, and
the number missing.  `backing` says whether there is a tier to ask. -/
def firstReady : PrefetchScheduler BlockKey SealedBlock → List LookupEvent →
    Option (List SealedBlock × ℕ)
  | _, [] => none
  | s, .poll :: events =>
    match s.checkAndPrefetch reqId keys prefixBlocks backing with
    | (.ready blocks missing, _) => some (blocks, missing)
    | (.loading, s) => firstReady s events
  | s, .finish :: events =>
    firstReady (s.finishTask reqId fun entry =>
      runPrefetchTask deps (scanInput entry.hashes entry.prefixBlocks waitForFullPrefix)) events

/-- The answer a query ends with: that of the task, if one is started. -/
def queryAnswer : Option PrefetchSource × ℕ × List (BlockKey × SealedBlock) :=
  if keys.drop prefixBlocks.length ≠ [] ∧ backing then
    tierAnswer deps (scanInput keys prefixBlocks waitForFullPrefix)
  else (none, 0, [])

variable {deps reqId keys prefixBlocks backing waitForFullPrefix}
  {s : PrefetchScheduler BlockKey SealedBlock} {events : List LookupEvent}

/-- The lookup is not started, or it is the one of this query, with its own result. -/
def Started (deps : PrefetchTaskDeps n) (reqId : String) (keys : List BlockKey)
    (prefixBlocks : List SealedBlock) (backing waitForFullPrefix : Bool)
    (s : PrefetchScheduler BlockKey SealedBlock) : Prop :=
  ∀ entry, s.active reqId = some entry →
    (keys.drop prefixBlocks.length ≠ [] ∧ backing) ∧ entry.hashes = keys ∧
      entry.prefixBlocks = prefixBlocks ∧ ∀ result, entry.result = some result →
        result = runPrefetchTask deps (scanInput keys prefixBlocks waitForFullPrefix)

theorem Started.finish (h : Started deps reqId keys prefixBlocks backing waitForFullPrefix s) :
    Started deps reqId keys prefixBlocks backing waitForFullPrefix
      (s.finishTask reqId fun entry =>
        runPrefetchTask deps (scanInput entry.hashes entry.prefixBlocks waitForFullPrefix)) := by
  intro entry' hentry'
  rw [PrefetchScheduler.active_finishTask] at hentry'
  obtain ⟨entry, hentry, rfl⟩ := Option.map_eq_some_iff.mp hentry'
  obtain ⟨hbacking, hkeys, hprefix, hresult⟩ := h entry hentry
  refine ⟨hbacking, hkeys, hprefix, fun result hor => ?_⟩
  rcases Option.or_eq_some_iff.mp hor with hold | ⟨-, hnew⟩
  · exact hresult result hold
  · rw [← Option.some.inj hnew, hkeys, hprefix]

/-- **What is ready** is built from the answer of the query. -/
theorem firstReady_eq {ready : List SealedBlock × ℕ}
    (hstarted : Started deps reqId keys prefixBlocks backing waitForFullPrefix s)
    (h : firstReady deps reqId keys prefixBlocks backing waitForFullPrefix s events = some ready) :
    let answer := queryAnswer deps keys prefixBlocks backing waitForFullPrefix
    let blocks := prefixBlocks ++
      mapWhile (insertFor answer.2.2) ((keys.drop prefixBlocks.length).take answer.2.1)
    ready = (blocks, keys.length - blocks.length) := by
  induction events generalizing s with
  | nil => cases h
  | cons event events ih =>
    cases event with
    | finish => exact ih hstarted.finish h
    | poll =>
      rw [firstReady] at h
      unfold PrefetchScheduler.checkAndPrefetch at h
      rcases hactive : s.active reqId with _ | entry <;> rw [hactive] at h <;> dsimp only at h
      · by_cases hbacking : keys.drop prefixBlocks.length ≠ [] ∧ backing
        · rw [if_pos hbacking] at h
          refine ih (fun entry hentry => ?_) h
          rw [PrefetchScheduler.active_startPrefetchTask] at hentry
          obtain rfl := Option.some.inj hentry
          exact ⟨hbacking, rfl, rfl, nofun⟩
        · rw [if_neg hbacking] at h
          obtain rfl := Option.some.inj h
          rw [queryAnswer, if_neg hbacking]
          simp [mapWhile]
      · obtain ⟨hbacking, -, -, hresult⟩ := hstarted entry hactive
        rcases hdone : entry.result with _ | result <;> rw [hdone] at h
        · exact ih hstarted h
        · obtain rfl := Option.some.inj h
          rw [hresult result hdone, runPrefetchTask_eq, queryAnswer, if_pos hbacking]
          rfl

/-- Once a task runs, the poll after its end is answered. -/
theorem firstReady_running (hrunning : s.active reqId ≠ none) (polls : ℕ) :
    (firstReady deps reqId keys prefixBlocks backing waitForFullPrefix s
      (replicate polls .poll ++ [.finish, .poll])).isSome := by
  obtain ⟨entry, hentry⟩ := Option.ne_none_iff_exists'.mp hrunning
  induction polls with
  | zero =>
    rw [replicate_zero, nil_append, firstReady, firstReady, PrefetchScheduler.checkAndPrefetch,
      PrefetchScheduler.active_finishTask, hentry]
    dsimp only [Option.map_some]
    cases entry.result <;> rfl
  | succ polls ih =>
    rw [replicate_succ, cons_append, firstReady, PrefetchScheduler.checkAndPrefetch, hentry]
    dsimp only
    cases entry.result with
    | none => exact ih
    | some result => rfl

end Poll

/-! ### The result -/

variable {deps} {delivered : List (BlockKey × SealedBlock)} {remaining : List BlockKey} {found : ℕ}

/-- Beyond the keys that were asked for, nothing continues the run. -/
theorem mapWhile_requested (hnodup : remaining.Nodup)
    (h : ∀ e ∈ delivered, e.1 ∈ remaining.take found) :
    mapWhile (insertFor delivered) (remaining.take found) =
      mapWhile (insertFor delivered) remaining := by
  refine mapWhile_take fun key hkey => ?_
  cases hinsert : insertFor delivered key with
  | none => rfl
  | some block =>
    exact absurd hkey (disjoint_take_drop hnodup (le_refl found)
      (h _ (mem_of_insertFor hinsert)))

/-- **The result of a query.**  With the answer of the tier that is chosen, the blocks are the
resident prefix and then those of the longest run of delivered keys, in the order of the query;
with the number missing they make up the query, and the tiers account for every hash.  The tier
delivers keys that it was asked for, and the plan of a remote fetch is not longer than its request
(`validate_fetch_plan`).  The query is answered as soon as it is polled after the end of the
task. -/
theorem prefetch_result (deps : PrefetchTaskDeps n) (reqId : String)
    (backing waitForFullPrefix : Bool) (keys : List BlockKey) (prefixBlocks : List SealedBlock)
    (hhit : prefixBlocks.length ≤ keys.length)
    (hplan : (tierAnswer deps (scanInput keys prefixBlocks waitForFullPrefix)).1 = some .rdma →
      (tierAnswer deps (scanInput keys prefixBlocks waitForFullPrefix)).2.1 ≤
        (keys.drop prefixBlocks.length).length)
    (hrequested : ∀ e ∈ (tierAnswer deps (scanInput keys prefixBlocks waitForFullPrefix)).2.2,
      e.1 ∈ (keys.drop prefixBlocks.length).take
        (tierAnswer deps (scanInput keys prefixBlocks waitForFullPrefix)).2.1) :
    (∀ events blocks missing,
      firstReady deps reqId keys prefixBlocks backing waitForFullPrefix .new events =
        some (blocks, missing) →
      let answer := queryAnswer deps keys prefixBlocks backing waitForFullPrefix
      blocks = prefixBlocks ++ mapWhile (insertFor answer.2.2)
          ((keys.drop prefixBlocks.length).take answer.2.1) ∧
        (keys.Nodup → blocks = prefixBlocks ++
          mapWhile (insertFor answer.2.2) (keys.drop prefixBlocks.length)) ∧
        blocks.length + missing = keys.length ∧
        ∃ tiers, TierAttribution.classify keys.length prefixBlocks.length answer.2.1 answer.1 =
          some tiers ∧ tiers.sum = keys.length) ∧
    ∀ polls, (firstReady deps reqId keys prefixBlocks backing waitForFullPrefix .new
      (List.replicate (polls + 1) .poll ++ [.finish, .poll])).isSome = true := by
  constructor
  · intro events blocks missing hready answer
    obtain ⟨rfl, rfl⟩ := Prod.mk.inj (firstReady_eq (fun _ h => by cases h) hready)
    obtain ⟨⟨hle, hnone⟩, hdelivered⟩ : (answer.2.1 ≤ (keys.drop prefixBlocks.length).length ∧
        (answer.1 = none → answer.2.1 = 0)) ∧
        ∀ e ∈ answer.2.2, e.1 ∈ (keys.drop prefixBlocks.length).take answer.2.1 := by
      unfold answer queryAnswer
      split
      · exact ⟨tierAnswer_found _ _ hplan, hrequested⟩
      · exact ⟨⟨Nat.zero_le _, fun _ => rfl⟩, by rintro _ ⟨⟩⟩
    have hrun := (length_mapWhile_le (insertFor answer.2.2)
      ((keys.drop prefixBlocks.length).take answer.2.1)).trans (length_take_le' _ _)
    rw [length_drop] at hle hrun
    refine ⟨rfl, fun hnodup => ?_, ?_, TierAttribution.exists_classify (by omega) hnone⟩
    · exact congrArg _ (mapWhile_requested (hnodup.sublist (drop_sublist _ _)) hdelivered)
    · rw [length_append]
      refine Nat.add_sub_of_le ?_
      exact (Nat.add_le_add_left hrun _).trans_eq (Nat.add_sub_of_le hhit)
  · intro polls
    rw [replicate_succ, cons_append, firstReady, PrefetchScheduler.checkAndPrefetch]
    dsimp only [PrefetchScheduler.new]
    by_cases hbacking : keys.drop prefixBlocks.length ≠ [] ∧ backing
    · rw [if_pos hbacking]
      refine firstReady_running ?_ polls
      rw [PrefetchScheduler.active_startPrefetchTask]
      exact Option.some_ne_none _
    · rw [if_neg hbacking]
      rfl

/-- No remote fetch answers, and the SSD store has the first of two keys: its block is the result,
with one missing. -/
theorem prefetch_result_lone :
    ∃ blocks missing,
      firstReady (loneDeps (some 64) 0) "r" [loneKey, ⟨"ns", [2]⟩] [] true false .new
        [.poll, .finish, .poll] = some (blocks, missing) ∧
      blocks.length = 1 ∧ blocks.length + missing = 2 := by
  obtain ⟨hresult, hready⟩ := prefetch_result (loneDeps (some 64) 0) "r" true false
    [loneKey, ⟨"ns", [2]⟩] [] (by decide) (by decide) (by decide)
  obtain ⟨⟨blocks, missing⟩, h⟩ := Option.isSome_iff_exists.mp (hready 0)
  obtain ⟨hblocks, -, hlength, -⟩ := hresult _ _ _ h
  exact ⟨blocks, missing, h, by rw [hblocks]; decide, hlength⟩

end PegaFlow.SsdPrefetch
