/-
PegaFlow/BackupDispatch.lean

Which blocks the backup planner hands to which target (`report`, `plan` and `take_batch` in the
MetaServer's `backup.rs`).

A source reports groups of blocks, and the blocks that no target holds yet are queued.  A target
that calls `plan` gets the next batch: round-robin over its sources, the oldest blocks of one
namespace that the target owns among the targets paired with that source.  On the way it drops
blocks that the source no longer holds or that a target already has, and it stops at the byte limit
of the call.  The planner holds one lock for a whole call, so a run is a sequence of calls; roles
and ownership of the blocks do not change (`Cluster`).
-/
import Mathlib.Data.Prod.Lex
import PegaFlow.BackupPairing
import PegaFlow.Run
import PegaFlow.SharedQueue
import PegaFlow.Tally

namespace PegaFlow.Backup

open List Function Option

/-! ### Roles, owners and candidates -/

section Model

variable {N S H : Type} [LinearOrder N]

/-- What the planner reads and does not change: the roles of the nodes, the rendezvous scores of a
source and a target and of a target and a block, and the visible owners of each block.  The roles
are sorted, so `binary_search` finds exactly their members. -/
structure Cluster (N S H : Type) [LinearOrder N] where
  sources : List N
  sources_sorted : sources.Pairwise (· ≤ ·)
  targets : List N
  targets_sorted : targets.Pairwise (· ≤ ·)
  nodeScore : N → N → ℕ
  blockScore : N → H → ℕ
  owners : S × H → List N

/-- Blocks of one namespace, in the order of a report. -/
structure QueuedGroup (S H : Type) where
  space : S
  blockBytes : ℕ
  hashes : List H

/-- Without candidates a source is absent from the map of the source code, and so is a target
without a cursor. -/
structure PlannerState (N S H : Type) where
  candidates : N → List (QueuedGroup S H)
  cursor : N → ℕ

structure OwnerRoles where
  source : Bool
  target : Bool


variable (c : Cluster N S H)

def ownerRoles (source : N) (key : S × H) : OwnerRoles where
  source := (c.owners key).any fun owner => owner = source
  target := (c.owners key).any fun owner => c.targets.contains owner

variable (state : PlannerState N S H)

def report (source : N)
    (groups : List (QueuedGroup S H)) : PlannerState N S H × List (QueuedGroup S H) :=
  let backedUp (group : QueuedGroup S H) (hash : H) :=
    (ownerRoles c source (group.space, hash)).target
  let backed := groups.map fun group =>
    { group with hashes := group.hashes.filter (backedUp group) }
  let queued := groups.map fun group =>
    { group with hashes := group.hashes.filter fun hash => !backedUp group hash }
  ({ state with
      candidates := update state.candidates source
        (queued.filter fun group => !group.hashes.isEmpty) },
    backed.filter fun group => !group.hashes.isEmpty)

/-! ### Shards and batches -/

/-- The peer with the highest score for the block; the greater name among equal scores. -/
def winner (peers : List N) (hash : H) : Option N :=
  maxBy (fun p q => c.blockScore q hash < c.blockScore p hash ||
    (c.blockScore q hash = c.blockScore p hash && q ≤ p)) peers

/-- `Shard::owns`. -/
def owns (target : N) (peers : List N) (hash : H) : Bool :=
  if peers.length ≤ 1 then true else winner c peers hash = some target

/-- The accumulators of the scan of one group. -/
structure Scan (H : Type) where
  kept : List H
  taken : List H
  full : Bool

/-- The closure of `retain_mut`. -/
def Scan.visit (mine dead : H → Bool) (blockBytes maxBytes : ℕ) (scan : Scan H) (hash : H) :
    Scan H :=
  if scan.full || !mine hash then { scan with kept := scan.kept ++ [hash] }
  else if dead hash then scan
  else
    let bytes := saturatingMul blockBytes scan.taken.length
    if !scan.taken.isEmpty && maxBytes < saturatingAdd bytes blockBytes then
      { scan with kept := scan.kept ++ [hash], full := true }
    else { scan with taken := scan.taken ++ [hash] }

def scanGroup (mine dead : H → Bool) (blockBytes maxBytes : ℕ) (hashes : List H) : Scan H :=
  hashes.foldl (Scan.visit mine dead blockBytes maxBytes) ⟨[], [], false⟩

/-- The loop over the groups: it ends with the first group from which something was taken. -/
def takeGroups (mine : H → Bool) (dead : S × H → Bool) (maxBytes : ℕ) :
    List (QueuedGroup S H) → List (QueuedGroup S H) × Option (S × ℕ × List H)
  | [] => ([], none)
  | group :: groups =>
    let scan := scanGroup mine (fun hash => dead (group.space, hash)) group.blockBytes maxBytes
      group.hashes
    let left := { group with hashes := scan.kept }
    if scan.taken.isEmpty then
      let rest := takeGroups mine dead maxBytes groups
      (left :: rest.1, rest.2)
    else (left :: groups, some (group.space, group.blockBytes, scan.taken))

/-- The source is gone as an owner of the block, or a target has it. -/
def droppable (source : N) (key : S × H) : Bool :=
  let owners := ownerRoles c source key
  !owners.source || owners.target

def takeBatch (source target : N)
    (peers : List N) (maxBytes : ℕ) : PlannerState N S H × Option (S × ℕ × List H) :=
  let taken := takeGroups (owns c target peers) (droppable c source) maxBytes
    (state.candidates source)
  ({ state with
      candidates := update state.candidates source
        (taken.1.filter fun group => !group.hashes.isEmpty) }, taken.2)

/-! ### Plans -/

/-- The response of a call, with the size of its blocks. -/
structure Batch (N S H : Type) where
  source : N
  space : S
  blockBytes : ℕ
  hashes : List H

/-- Targets that share the source. -/
def peersOf (pairs : List (N × N)) (source : N) : List N :=
  (pairs.filter fun p => p.1 = source).map Prod.snd

/-- The loop over the target's sources. -/
def planFrom (c : Cluster N S H) (pairs : List (N × N)) (target : N)
    (maxBytes start : ℕ) (sources : List N) :
    List ℕ → PlannerState N S H → PlannerState N S H × Option (Batch N S H)
  | [], state => (state, none)
  | offset :: offsets, state =>
    let index := (start + offset) % sources.length
    match sources[index]? with
    | none => planFrom c pairs target maxBytes start sources offsets state
    | some source =>
      let taken := takeBatch c state source target (peersOf pairs source) maxBytes
      match taken.2 with
      | none => planFrom c pairs target maxBytes start sources offsets taken.1
      | some (space, blockBytes, hashes) =>
        ({ taken.1 with cursor := update taken.1.cursor target (index + 1) },
          some ⟨source, space, blockBytes, hashes⟩)

/-- Snapshots of nodes that are no sources go, and so do cursors of nodes that are no targets. -/
def PlannerState.retain : PlannerState N S H where
  candidates := fun node => if c.sources.contains node then state.candidates node else []
  cursor := fun node => if c.targets.contains node then state.cursor node else 0

/-- One call of `plan`; `none` if the pairing fails. -/
def plan (target : N) (maxBytes : ℕ) : Option (PlannerState N S H × Option (Batch N S H)) :=
  let state := state.retain c
  if c.targets.contains target then
    (pairing c.nodeScore c.sources c.targets).map fun pairs =>
      let sources := (pairs.filter fun p => p.2 = target).map Prod.fst
      if sources.isEmpty then (state, none)
      else
        planFrom c pairs target maxBytes (state.cursor target) sources
          (range sources.length) state
  else some (state, none)

/-! ### Runs -/

/-- The blocks of the groups, in their order. -/
def blocks (groups : List (QueuedGroup S H)) : List (S × H) :=
  groups.flatMap fun group => group.hashes.map fun hash => (group.space, hash)

def Batch.blocks (batch : Batch N S H) : List (S × H) :=
  batch.hashes.map fun hash => (batch.space, hash)

/-- A batch, with the call that got it. -/
structure Dispatch (N S H : Type) where
  target : N
  maxBytes : ℕ
  batch : Batch N S H

/-- The planner, with the latest report of each source and the batches of that report. -/
structure State (N S H : Type) where
  planner : PlannerState N S H
  reported : N → List (S × H)
  dispatched : N → List (Dispatch N S H)

def init : State N S H := ⟨⟨fun _ => [], fun _ => 0⟩, fun _ => [], fun _ => []⟩

inductive Action (N S H : Type) where
  | report (source : N) (groups : List (QueuedGroup S H))
  | plan (target : N) (maxBytes : ℕ)

def State.dispatch (s : State N S H) (target : N) (maxBytes : ℕ) :
    PlannerState N S H × Option (Batch N S H) → State N S H
  | (planner, none) => { s with planner := planner }
  | (planner, some batch) =>
    { s with
      planner
      dispatched := update s.dispatched batch.source
        (s.dispatched batch.source ++ [⟨target, maxBytes, batch⟩]) }

def step (s : State N S H) : Action N S H → Option (State N S H)
  | .report source groups =>
    some
      { planner := (report c s.planner source groups).1
        reported := update s.reported source (blocks groups)
        dispatched := update s.dispatched source [] }
  | .plan target maxBytes => (plan c s.planner target maxBytes).map (s.dispatch target maxBytes)

/-- The pairs of a call. -/
def Cluster.pairs : List (N × N) :=
  (pairing c.nodeScore c.sources c.targets).getD []

end Model

/-! ### Shards -/

variable {N S H : Type} [LinearOrder N] {c : Cluster N S H} {s s' : State N S H}
  {state before mid after : PlannerState N S H} {pairs : List (N × N)} {source target : N}
  {maxBytes : ℕ} {batch : Option (Batch N S H)} {groups : List (QueuedGroup S H)} {b : S × H}

section Shards

variable {peers : List N}

theorem exists_winner (c : Cluster N S H) (hpeers : peers ≠ []) (hash : H) :
    ∃ w ∈ peers, winner c peers hash = some w ∧
      ∀ p ∈ peers, toLex (c.blockScore p hash, p) ≤ toLex (c.blockScore w hash, w) := by
  refine exists_maxBy _ (fun p => toLex (c.blockScore p hash, p)) ?_ ?_ hpeers
  · intro p q hge
    simp only [Bool.or_eq_true, Bool.and_eq_true, decide_eq_true_eq] at hge
    exact Prod.Lex.toLex_le_toLex.mpr hge
  · intro p q hlt
    simp only [Bool.or_eq_false_iff, Bool.and_eq_false_iff, decide_eq_false_iff_not, not_lt,
      not_le] at hlt
    obtain ⟨hscore, hname⟩ := hlt
    rcases hscore.lt_or_eq with hlt | heq
    · exact Prod.Lex.toLex_le_toLex.mpr (.inl hlt)
    · exact Prod.Lex.toLex_le_toLex.mpr
        (.inr ⟨heq, (hname.resolve_left (fun hne => hne heq.symm)).le⟩)

theorem mem_of_winner {hash : H} {w : N} (h : winner c peers hash = some w) : w ∈ peers := by
  rcases eq_or_ne peers [] with rfl | hne
  · cases h
  · obtain ⟨w', hmem, hw', -⟩ := exists_winner c hne hash
    rw [h] at hw'
    rwa [some.inj hw']

theorem owns_eq (htarget : target ∈ peers) (hash : H) :
    owns c target peers hash = decide (winner c peers hash = some target) := by
  rw [owns]
  split
  · next hone =>
    -- the only peer is the target, and it wins
    obtain ⟨w, hmem, hw, -⟩ := exists_winner c (ne_nil_of_mem htarget) hash
    obtain ⟨p, rfl⟩ : ∃ p, peers = [p] :=
      length_eq_one_iff.mp (le_antisymm hone (length_pos_of_mem htarget))
    rw [mem_singleton.mp htarget, hw, mem_singleton.mp hmem, decide_eq_true rfl]
  · rfl

end Shards

/-! ### One batch -/

section Batches

variable {mine dead : H → Bool} {blockBytes : ℕ} {result : Option (S × ℕ × List H)}

/-- Blocks of `blockBytes` bytes that one call may return. -/
def Fits (blockBytes maxBytes : ℕ) (taken : List H) : Prop :=
  taken.length ≤ 1 ∨ blockBytes * taken.length ≤ maxBytes

theorem mul_succ_le_of_saturating {n : ℕ} (hmax : maxBytes < u64Max)
    (hle : ¬ maxBytes < saturatingAdd (saturatingMul blockBytes n) blockBytes) :
    blockBytes * (n + 1) ≤ maxBytes := by
  unfold saturatingAdd saturatingMul at hle
  rw [Nat.mul_succ]
  omega

/-- What holds after the hashes `seen`: nothing the target owns was passed over before the batch was
full, and only a batch that holds something gets full. -/
structure Scanned (mine dead : H → Bool) (blockBytes maxBytes : ℕ) (seen : List H)
    (scan : Scan H) : Prop where
  took : Took mine dead seen scan.kept scan.taken
  none_left : scan.full = false → scan.kept.filter mine = []
  full : scan.full → scan.taken ≠ []
  fits : maxBytes < u64Max → Fits blockBytes maxBytes scan.taken

theorem Scanned.visit {seen : List H} {scan : Scan H}
    (h : Scanned mine dead blockBytes maxBytes seen scan) (hash : H) :
    Scanned mine dead blockBytes maxBytes (seen ++ [hash])
      (scan.visit mine dead blockBytes maxBytes hash) := by
  unfold Scan.visit
  rcases Bool.eq_false_or_eq_true (scan.full || !mine hash) with hkeep | hscan
  · rw [if_pos hkeep]
    refine ⟨h.took.keep hash, ?_, h.full, h.fits⟩
    intro hopen
    have hmine : mine hash = false := by
      rw [hopen, Bool.false_or, Bool.not_eq_true'] at hkeep
      exact hkeep
    rw [filter_append, h.none_left hopen, filter_singleton, hmine]
    rfl
  rw [if_neg (by rw [hscan]; exact Bool.false_ne_true)]
  rw [Bool.or_eq_false_iff, Bool.not_eq_false'] at hscan
  obtain ⟨hopen, hmine⟩ := hscan
  cases hdead : dead hash with
  | true =>
    exact { h with took := h.took.drop hmine hdead }
  | false =>
    rw [if_neg Bool.false_ne_true]
    dsimp only
    split
    · next hfull =>
      rw [Bool.and_eq_true, Bool.not_eq_true', isEmpty_eq_false_iff] at hfull
      exact ⟨h.took.keep hash, fun hno => absurd hno.symm Bool.false_ne_true, fun _ => hfull.1,
        h.fits⟩
    · next hroom =>
      refine ⟨h.took.take hmine hdead (h.none_left hopen), h.none_left, ?_, ?_⟩
      · exact fun _ => append_ne_nil_of_right_ne_nil _ (cons_ne_nil _ _)
      · intro hmax
        rw [Bool.and_eq_true, Bool.not_eq_true', isEmpty_eq_false_iff, decide_eq_true_eq,
          not_and] at hroom
        rcases eq_or_ne scan.taken [] with hnil | hne
        · rw [hnil]
          exact .inl (le_refl 1)
        · refine .inr ?_
          rw [length_append]
          exact mul_succ_le_of_saturating hmax (hroom hne)

theorem scanned_scanGroup (mine dead : H → Bool) (blockBytes maxBytes : ℕ) (hashes : List H) :
    Scanned mine dead blockBytes maxBytes hashes
      (scanGroup mine dead blockBytes maxBytes hashes) := by
  unfold scanGroup
  induction hashes using List.reverseRecOn with
  | nil =>
    exact ⟨Took.refl mine dead [], fun _ => rfl, fun h => absurd h Bool.false_ne_true,
      fun _ => .inl (Nat.zero_le 1)⟩
  | append_singleton hashes hash ih =>
    rw [foldl_append]
    exact ih.visit hash

theorem blocks_cons (group : QueuedGroup S H) (groups : List (QueuedGroup S H)) :
    blocks (group :: groups) =
      (group.hashes.map fun hash => (group.space, hash)) ++ blocks groups :=
  flatMap_cons

theorem blocks_filter_nonempty (groups : List (QueuedGroup S H)) :
    blocks (groups.filter fun group => !group.hashes.isEmpty) = blocks groups := by
  induction groups with
  | nil => rfl
  | cons group groups ih =>
    rw [blocks_cons, filter_cons]
    split
    · rw [blocks_cons, ih]
    · next hempty =>
      rw [Bool.not_eq_true, Bool.not_eq_false', List.isEmpty_iff] at hempty
      rw [ih, hempty, map_nil, nil_append]

/-- The blocks a scan returned. -/
def takenBlocks : Option (S × ℕ × List H) → List (S × H)
  | none => []
  | some (space, _, hashes) => hashes.map fun hash => (space, hash)

/-- What the loop over the groups does: it scans the queue of blocks, and if it returns nothing,
nothing the target owns is left. -/
structure Grouped (mine : H → Bool) (dead : S × H → Bool) (maxBytes : ℕ)
    (groups left : List (QueuedGroup S H)) (result : Option (S × ℕ × List H)) : Prop where
  took : Took (fun b : S × H => mine b.2) dead (blocks groups) (blocks left) (takenBlocks result)
  none_left : result = none → (blocks left).filter (fun b : S × H => mine b.2) = []
  batch : ∀ r, result = some r → r.2.2 ≠ [] ∧ (maxBytes < u64Max → Fits r.2.1 maxBytes r.2.2)

theorem grouped_takeGroups (mine : H → Bool) (dead : S × H → Bool) (maxBytes : ℕ)
    (groups : List (QueuedGroup S H)) :
    Grouped mine dead maxBytes groups (takeGroups mine dead maxBytes groups).1
      (takeGroups mine dead maxBytes groups).2 := by
  induction groups with
  | nil => exact ⟨Took.refl _ _ [], fun _ => rfl, fun r hr => by cases hr⟩
  | cons group groups ih =>
    have hscan := scanned_scanGroup mine (fun hash => dead (group.space, hash)) group.blockBytes
      maxBytes group.hashes
    rw [takeGroups]
    generalize scanGroup mine (fun hash => dead (group.space, hash)) group.blockBytes maxBytes
      group.hashes = scan at hscan ⊢
    have htook := Took.map (fun b : S × H => mine b.2) dead
      (fun hash => (group.space, hash)) hscan.took
    split
    · next hempty =>
      rw [List.isEmpty_iff] at hempty
      have hopen : scan.full = false :=
        Bool.eq_false_iff.mpr fun hfull => hscan.full hfull hempty
      have hnone : ((scan.kept.map fun hash => (group.space, hash)).filter
          fun b => mine b.2) = [] := by
        rw [List.filter_map]
        exact congrArg _ (hscan.none_left hopen)
      rw [hempty] at htook
      refine ⟨?_, ?_, ih.batch⟩
      · exact htook.skip hnone ih.took
      · intro hresult
        rw [blocks_cons, filter_append, hnone, ih.none_left hresult]
        rfl
    · next hsome =>
      rw [Bool.not_eq_true, isEmpty_eq_false_iff] at hsome
      refine ⟨?_, fun hresult => absurd hresult (some_ne_none _), ?_⟩
      · exact htook.stop _
      · rintro r hr
        cases hr
        exact ⟨hsome, hscan.fits⟩

end Batches

/-! ### One call -/

/-- The queued blocks of a source. -/
def PlannerState.queue (state : PlannerState N S H) (source : N) : List (S × H) :=
  blocks (state.candidates source)

/-- The target that owns a block of the source. -/
def ownerIn (c : Cluster N S H) (pairs : List (N × N)) (source : N) (b : S × H) : Option N :=
  winner c (peersOf pairs source) b.2

/-- The blocks of the batch, if it is of this source. -/
def batchOf (batch : Option (Batch N S H)) (source : N) : List (S × H) :=
  match batch with
  | none => []
  | some batch => if batch.source = source then batch.blocks else []

theorem mem_peersOf : target ∈ peersOf pairs source ↔ (source, target) ∈ pairs := by
  simp [peersOf]

theorem grouped_takeBatch (hpair : (source, target) ∈ pairs)
    (h : takeBatch c state source target (peersOf pairs source) maxBytes = (after, result)) :
    Grouped (fun hash => winner c (peersOf pairs source) hash = some target) (droppable c source)
      maxBytes (state.candidates source) (after.candidates source) result := by
  have howns : owns c target (peersOf pairs source) =
      fun hash => decide (winner c (peersOf pairs source) hash = some target) :=
    funext (owns_eq (mem_peersOf.mpr hpair))
  obtain ⟨htook, hnone, hbatch⟩ := grouped_takeGroups
    (fun hash => decide (winner c (peersOf pairs source) hash = some target)) (droppable c source)
    maxBytes (state.candidates source)
  cases h
  dsimp only
  rw [update_self, howns]
  refine ⟨?_, ?_, hbatch⟩
  · rwa [blocks_filter_nonempty]
  · rwa [blocks_filter_nonempty]

theorem takeBatch_other {other : N} {peers : List N} (hne : other ≠ source)
    (h : takeBatch c state source target peers maxBytes = (after, result)) :
    after.queue other = state.queue other := by
  cases h
  exact congrArg blocks (update_of_ne hne _ _)

/-- What a call does: it scans the queues of its target's sources, and returns a batch from one of
them; if it returns nothing, nothing the target owns is left in the queues it visited. -/
structure Pulled (c : Cluster N S H) (pairs : List (N × N)) (target : N) (maxBytes : ℕ)
    (visited : List N) (before after : PlannerState N S H) (batch : Option (Batch N S H)) :
    Prop where
  took : ∀ source, Took (fun b => ownerIn c pairs source b = some target) (droppable c source)
    (before.queue source) (after.queue source) (batchOf batch source)
  none_left : batch = none → ∀ source ∈ visited,
    (after.queue source).filter (fun b => ownerIn c pairs source b = some target) = []
  batch_ok : ∀ b, batch = some b → (b.source, target) ∈ pairs ∧ b.hashes ≠ [] ∧
    (maxBytes < u64Max → Fits b.blockBytes maxBytes b.hashes)

theorem Pulled.nothing (c : Cluster N S H) (pairs : List (N × N)) (target : N) (maxBytes : ℕ)
    (state : PlannerState N S H) : Pulled c pairs target maxBytes [] state state none :=
  ⟨fun _ => Took.refl _ _ _, fun _ _ h => absurd h not_mem_nil, fun _ h => nomatch h⟩

theorem Pulled.trans {visited visited' : List N}
    (hfirst : Pulled c pairs target maxBytes visited before mid none)
    (hsecond : Pulled c pairs target maxBytes visited' mid after batch) :
    Pulled c pairs target maxBytes (visited ++ visited') before after batch := by
  refine ⟨fun source => (hfirst.took source).trans (hsecond.took source), ?_, hsecond.batch_ok⟩
  intro hnone source hsource
  rcases mem_append.mp hsource with hsource | hsource
  · exact ((hsecond.took source).filter_eq_nil (hfirst.none_left rfl source hsource)).2
  · exact hsecond.none_left hnone source hsource

theorem pulled_takeBatch (hpair : (source, target) ∈ pairs)
    (h : takeBatch c state source target (peersOf pairs source) maxBytes = (after, result)) :
    Pulled c pairs target maxBytes [source] state after
      (result.map fun r => ⟨source, r.1, r.2.1, r.2.2⟩) := by
  have hgrouped := grouped_takeBatch hpair h
  refine ⟨?_, ?_, ?_⟩
  · intro other
    rcases eq_or_ne other source with rfl | hne
    · have htaken : batchOf (result.map fun r => ⟨other, r.1, r.2.1, r.2.2⟩) other =
          takenBlocks result := by
        cases result with
        | none => rfl
        | some r => exact if_pos rfl
      rw [htaken]
      exact hgrouped.took
    · have hnot : batchOf (result.map fun r => ⟨source, r.1, r.2.1, r.2.2⟩) other = [] := by
        cases result with
        | none => rfl
        | some r => exact if_neg hne.symm
      rw [takeBatch_other hne h, hnot]
      exact Took.refl _ _ _
  · intro hnone other hmem
    rw [mem_singleton.mp hmem]
    exact hgrouped.none_left (map_eq_none_iff.mp hnone)
  · intro b hb
    obtain ⟨r, hr, rfl⟩ := map_eq_some_iff.mp hb
    exact ⟨hpair, hgrouped.batch r hr⟩

theorem pulled_planFrom {sources : List N} (start : ℕ)
    (hsources : ∀ source ∈ sources, (source, target) ∈ pairs) (offsets : List ℕ)
    (state : PlannerState N S H) :
    Pulled c pairs target maxBytes
      (offsets.filterMap fun offset => sources[(start + offset) % sources.length]?) state
      (planFrom c pairs target maxBytes start sources offsets state).1
      (planFrom c pairs target maxBytes start sources offsets state).2 := by
  induction offsets generalizing state with
  | nil => exact Pulled.nothing c pairs target maxBytes state
  | cons offset offsets ih =>
    rw [planFrom, filterMap_cons]
    cases hsource : sources[(start + offset) % sources.length]? with
    | none => exact ih state
    | some source =>
      dsimp only
      rcases hbatch : takeBatch c state source target (peersOf pairs source) maxBytes
        with ⟨after, _ | r⟩
      · exact (pulled_takeBatch (hsources source (mem_of_getElem? hsource)) hbatch).trans (ih after)
      · exact { pulled_takeBatch (hsources source (mem_of_getElem? hsource)) hbatch with
          none_left := fun h => absurd h (some_ne_none _) }

theorem exists_offset (start : ℕ) {i n : ℕ} (hi : i < n) :
    ∃ offset < n, (start + offset) % n = i := by
  have hdiv := Nat.div_add_mod start n
  have hmod := Nat.mod_lt start (Nat.zero_lt_of_lt hi)
  rcases lt_or_ge i (start % n) with hlt | hle
  · refine ⟨n + i - start % n, by omega, ?_⟩
    have heq : start + (n + i - start % n) = i + n * (start / n + 1) := by
      rw [mul_add]
      omega
    rw [heq, Nat.add_mul_mod_self_left, Nat.mod_eq_of_lt hi]
  · refine ⟨i - start % n, by omega, ?_⟩
    have heq : start + (i - start % n) = i + n * (start / n) := by omega
    rw [heq, Nat.add_mul_mod_self_left, Nat.mod_eq_of_lt hi]

theorem filter_owner_eq_nil (hpair : (source, target) ∉ pairs) (queue : List (S × H)) :
    (queue.filter fun b => ownerIn c pairs source b = some target) = [] := by
  refine filter_eq_nil_iff.mpr fun b _ howner => hpair ?_
  exact mem_peersOf.mp (mem_of_winner (of_decide_eq_true howner))

theorem pairing_eq_pairs (c : Cluster N S H) :
    pairing c.nodeScore c.sources c.targets = some c.pairs := by
  obtain ⟨pairs, hpairs, -⟩ := exists_pairing c.nodeScore c.sources c.targets
  rw [Cluster.pairs, hpairs]
  rfl

/-- **One call** does not fail.  It scans the queues of the sources, and if it returns nothing,
nothing the target owns is left in any of them. -/
theorem pulled_plan (c : Cluster N S H) (state : PlannerState N S H) (target : N) (maxBytes : ℕ) :
    ∃ after batch, plan c state target maxBytes = some (after, batch) ∧
      Pulled c c.pairs target maxBytes (if target ∈ c.targets then c.sources else [])
        (state.retain c) after batch := by
  rw [plan, pairing_eq_pairs, map_some]
  rcases em (target ∈ c.targets) with htarget | htarget
  · rw [if_pos (contains_iff_mem.mpr htarget)]
    dsimp only
    have hsources : ∀ {source}, source ∈ (c.pairs.filter fun p => p.2 = target).map Prod.fst ↔
        (source, target) ∈ c.pairs := by simp
    generalize (c.pairs.filter fun p => p.2 = target).map Prod.fst = sources at hsources ⊢
    split
    · next hempty =>
      obtain ⟨htook, -, hbatch⟩ := Pulled.nothing c c.pairs target maxBytes (state.retain c)
      refine ⟨_, _, rfl, htook, fun _ source _ => filter_owner_eq_nil ?_ _, hbatch⟩
      rw [← hsources, isEmpty_iff.mp hempty]
      exact not_mem_nil
    · obtain ⟨htook, hnone, hbatch⟩ := pulled_planFrom (c := c)
        ((state.retain c).cursor target) (fun source h => hsources.mp h)
        (range sources.length) (state.retain c)
      refine ⟨_, _, rfl, htook, ?_, hbatch⟩
      intro hresult source _
      rcases em ((source, target) ∈ c.pairs) with hpair | hpair
      · -- the loop visited the source
        obtain ⟨i, hi, rfl⟩ := getElem_of_mem (hsources.mpr hpair)
        obtain ⟨offset, hoffset, heq⟩ := exists_offset ((state.retain c).cursor target) hi
        refine hnone hresult _ (mem_filterMap.mpr ⟨offset, mem_range.mpr hoffset, ?_⟩)
        rw [heq]
        exact getElem?_eq_getElem hi
      · exact filter_owner_eq_nil hpair _
  · rw [if_neg (fun h => htarget (contains_iff_mem.mp h)), if_neg htarget]
    exact ⟨_, _, rfl, Pulled.nothing c c.pairs target maxBytes (state.retain c)⟩

theorem queue_retain (hsource : source ∈ c.sources) (state : PlannerState N S H) :
    (state.retain c).queue source = state.queue source :=
  congrArg blocks (if_pos (contains_iff_mem.mpr hsource))

/-! ### Accounting -/

/-- The target that owns a block of the source. -/
def Cluster.owner (c : Cluster N S H) (source : N) (b : S × H) : Option N :=
  ownerIn c c.pairs source b

def Dispatch.blocks (d : Dispatch N S H) : List (S × H) := d.batch.blocks

/-- The blocks of the source that were dispatched to the target. -/
def State.sentTo (s : State N S H) (source target : N) : List (S × H) :=
  ((s.dispatched source).filter fun d => d.target = target).flatMap Dispatch.blocks

/-- The blocks of the source that were dispatched. -/
def State.sent (s : State N S H) (source : N) : List (S × H) :=
  (s.dispatched source).flatMap Dispatch.blocks

theorem sentTo_dispatch (s : State N S H) (target : N) (maxBytes : ℕ) (planner : PlannerState N S H)
    (batch : Option (Batch N S H)) (source : N) :
    (s.dispatch target maxBytes (planner, batch)).sentTo source =
      update (s.sentTo source) target
        (s.sentTo source target ++ batchOf batch source) := by
  funext t
  cases batch with
  | none =>
    show s.sentTo source t = _
    rw [batchOf, append_nil, update_eq_self]
  | some batch =>
    rcases eq_or_ne source batch.source with rfl | hne
    · have hbatch : batchOf (some batch) batch.source = batch.blocks := if_pos rfl
      unfold State.sentTo State.dispatch
      dsimp only
      rw [update_self, filter_append, flatMap_append, hbatch]
      rcases eq_or_ne t target with rfl | hne
      · rw [update_self, filter_singleton, decide_eq_true rfl]
        exact congrArg _ (append_nil _)
      · rw [update_of_ne hne, filter_singleton, decide_eq_false hne.symm]
        exact append_nil _
    · have hbatch : batchOf (some batch) source = [] := if_neg hne.symm
      rw [hbatch, append_nil, update_eq_self]
      unfold State.sentTo State.dispatch
      dsimp only
      rw [update_of_ne hne]

@[simp] theorem planner_dispatch (s : State N S H) (target : N) (maxBytes : ℕ)
    (planner : PlannerState N S H) (batch : Option (Batch N S H)) :
    (s.dispatch target maxBytes (planner, batch)).planner = planner := by
  cases batch <;> rfl

@[simp] theorem reported_dispatch (s : State N S H) (target : N) (maxBytes : ℕ)
    (planner : PlannerState N S H) (batch : Option (Batch N S H)) :
    (s.dispatch target maxBytes (planner, batch)).reported = s.reported := by
  cases batch <;> rfl

/-- What holds of the latest report of every source. -/
def Accounted (c : Cluster N S H) (s : State N S H) : Prop :=
  ∀ source ∈ c.sources, (s.reported source).Nodup ∧
    Delivered (c.owner source) (droppable c source) (s.reported source) (s.planner.queue source)
      (s.sentTo source)

theorem accounted_init (c : Cluster N S H) : Accounted c (init : State N S H) := by
  intro source _
  refine ⟨nodup_nil, ?_, ?_, ?_⟩
  · exact fun _ => List.Sublist.refl _
  · exact fun _ h => absurd h not_mem_nil
  · exact fun _ _ h => absurd h not_mem_nil

theorem accounted_plan (h : Accounted c s) (hstep : step c s (.plan target maxBytes) = some s') :
    Accounted c s' := by
  obtain ⟨after, batch, hplan, hpulled⟩ := pulled_plan c s.planner target maxBytes
  rw [step, hplan] at hstep
  cases hstep
  intro source hsource
  obtain ⟨hnodup, hdelivered⟩ := h source hsource
  have htook := hpulled.took source
  rw [queue_retain hsource] at htook
  rw [planner_dispatch, reported_dispatch, sentTo_dispatch]
  exact ⟨hnodup, hdelivered.took target htook⟩

theorem blocks_map_filter (p : S × H → Bool) (groups : List (QueuedGroup S H)) :
    blocks (groups.map fun group =>
      { group with hashes := group.hashes.filter fun hash => p (group.space, hash) }) =
      (blocks groups).filter p := by
  induction groups with
  | nil => rfl
  | cons group groups ih =>
    rw [map_cons, blocks_cons, blocks_cons, filter_append, ih, List.filter_map]
    rfl

theorem queue_report (c : Cluster N S H) (state : PlannerState N S H) (source : N)
    (groups : List (QueuedGroup S H)) :
    (report c state source groups).1.queue source =
      (blocks groups).filter fun b => !(ownerRoles c source b).target := by
  unfold report PlannerState.queue
  dsimp only
  rw [update_self, blocks_filter_nonempty]
  exact blocks_map_filter (fun b => !(ownerRoles c source b).target) groups

theorem accounted_report (h : Accounted c s) (hdistinct : (blocks groups).Nodup)
    (hstep : step c s (.report source groups) = some s') : Accounted c s' := by
  cases hstep
  intro other hother
  rcases eq_or_ne other source with rfl | hne
  · dsimp only
    rw [update_self, queue_report]
    have hsent : State.sentTo ⟨(report c s.planner other groups).1,
        update s.reported other (blocks groups),
        update s.dispatched other []⟩ other = fun _ => [] := by
      funext t
      unfold State.sentTo
      dsimp only
      rw [update_self]
      rfl
    rw [hsent]
    refine ⟨hdistinct, Delivered.start _ (fun b hb => ?_) _⟩
    rw [droppable, hb]
    exact Bool.or_true _
  · obtain ⟨hnodup, hdelivered⟩ := h other hother
    have hqueue : (report c s.planner source groups).1.queue other = s.planner.queue other := by
      unfold report PlannerState.queue
      dsimp only
      rw [update_of_ne hne]
    have hsent : State.sentTo ⟨(report c s.planner source groups).1,
        update s.reported source (blocks groups),
        update s.dispatched source []⟩ other = s.sentTo other := by
      funext t
      unfold State.sentTo
      dsimp only
      rw [update_of_ne hne]
    dsimp only
    rw [update_of_ne hne, hqueue, hsent]
    exact ⟨hnodup, hdelivered⟩

/-! ### Batches -/

/-- Every batch goes to a paired target, holds something, and keeps to the limit of its call. -/
def Batched (c : Cluster N S H) (s : State N S H) : Prop :=
  ∀ source, ∀ d ∈ s.dispatched source, (source, d.target) ∈ c.pairs ∧ d.batch.hashes ≠ [] ∧
    Fits d.batch.blockBytes d.maxBytes d.batch.hashes

theorem batched_init (c : Cluster N S H) : Batched c (init : State N S H) :=
  fun _ _ hd => absurd hd not_mem_nil

theorem batched_report (h : Batched c s) (hstep : step c s (.report source groups) = some s') :
    Batched c s' := by
  cases hstep
  intro other d hd
  dsimp only at hd
  rcases eq_or_ne other source with rfl | hne
  · rw [update_self] at hd
    cases hd
  · rw [update_of_ne hne] at hd
    exact h other d hd

theorem batched_plan (h : Batched c s) (hmax : maxBytes < u64Max)
    (hstep : step c s (.plan target maxBytes) = some s') : Batched c s' := by
  obtain ⟨after, batch, hplan, hpulled⟩ := pulled_plan c s.planner target maxBytes
  rw [step, hplan] at hstep
  cases hstep
  cases batch with
  | none => exact h
  | some batch =>
    intro source d hd
    unfold State.dispatch at hd
    dsimp only at hd
    rcases eq_or_ne source batch.source with rfl | hne
    · rw [update_self] at hd
      rcases mem_append.mp hd with hd | hd
      · exact h batch.source d hd
      · obtain ⟨hpair, hnonempty, hfits⟩ := hpulled.batch_ok batch rfl
        rw [mem_singleton.mp hd]
        exact ⟨hpair, hnonempty, hfits hmax⟩
    · rw [update_of_ne hne] at hd
      exact h source d hd

/-! ### Progress -/

/-- Queued blocks of all sources. -/
def queuedCandidates (c : Cluster N S H) (state : PlannerState N S H) : ℕ :=
  (c.sources.map fun source => (state.queue source).length).sum

/-- No block of the target is queued. -/
def NothingFor (c : Cluster N S H) (target : N) (state : PlannerState N S H) : Prop :=
  ∀ source ∈ c.sources,
    (state.queue source).filter (fun b => c.owner source b = some target) = []

theorem NothingFor.owner_ne (h : NothingFor c target state) (hsource : source ∈ c.sources)
    (hb : b ∈ state.queue source) : c.owner source b ≠ some target :=
  fun howner => filter_eq_nil_iff.mp (h source hsource) b hb (decide_eq_true howner)

theorem mem_sources_of_mem_pairs {p : N × N} (hp : p ∈ c.pairs) : p.1 ∈ c.sources := by
  obtain ⟨pairs, hpairs, hsound, -⟩ := exists_pairing c.nodeScore c.sources c.targets
  rw [pairing_eq_pairs, some.injEq] at hpairs
  rw [hpairs] at hp
  exact (hsound p hp).1

/-- A call adds nothing to the queues.  It returns a batch, and the queues get shorter, or it leaves
nothing for its target. -/
theorem plan_progress (c : Cluster N S H) (s : State N S H) (target : N) (maxBytes : ℕ) :
    ∃ s', step c s (.plan target maxBytes) = some s' ∧ s'.reported = s.reported ∧
      queuedCandidates c s'.planner ≤ queuedCandidates c s.planner ∧
      (∀ t, NothingFor c t s.planner → NothingFor c t s'.planner) ∧
      (target ∈ c.targets → NothingFor c target s'.planner ∨
        queuedCandidates c s'.planner < queuedCandidates c s.planner) := by
  obtain ⟨after, batch, hplan, hpulled⟩ := pulled_plan c s.planner target maxBytes
  have htook : ∀ source ∈ c.sources,
      Took (fun b => c.owner source b = some target) (droppable c source)
        (s.planner.queue source) (after.queue source) (batchOf batch source) := by
    intro source hsource
    rw [← queue_retain hsource]
    exact hpulled.took source
  have hle : ∀ source ∈ c.sources,
      (after.queue source).length ≤ (s.planner.queue source).length := by
    intro source hsource
    have hlength := (htook source hsource).length_le
    omega
  refine ⟨s.dispatch target maxBytes (after, batch), ?_, reported_dispatch _ _ _ _ _, ?_, ?_, ?_⟩
  · rw [step, hplan, map_some]
  · rw [planner_dispatch]
    exact sum_le_sum hle
  · intro t hnothing source hsource
    rw [planner_dispatch]
    refine filter_eq_nil_iff.mpr fun b hb howner => ?_
    exact hnothing.owner_ne hsource ((htook source hsource).subset hb) (of_decide_eq_true howner)
  · intro htarget
    rw [planner_dispatch]
    rw [if_pos htarget] at hpulled
    cases batch with
    | none => exact .inl (hpulled.none_left rfl)
    | some batch =>
      obtain ⟨hpair, hnonempty, -⟩ := hpulled.batch_ok batch rfl
      have hsource := mem_sources_of_mem_pairs hpair
      refine .inr (sum_lt_sum _ _ hle ⟨batch.source, hsource, ?_⟩)
      have hlength := (htook batch.source hsource).length_le
      have hbatch : batchOf (some batch) batch.source = batch.blocks := if_pos rfl
      rw [hbatch, Batch.blocks, length_map] at hlength
      have hpos := length_pos_iff.mpr hnonempty
      omega

/-- Calls of `plan`: the target and the byte limit of each. -/
def planCalls (calls : List (N × ℕ)) : List (Action N S H) :=
  calls.map fun call => .plan call.1 call.2

theorem calls_progress (c : Cluster N S H) (calls : List (N × ℕ)) (s : State N S H) :
    ∃ s', exec (step c) s (planCalls calls) = some s' ∧ s'.reported = s.reported ∧
      (Accounted c s → Accounted c s') ∧
      (∀ t, NothingFor c t s.planner → NothingFor c t s'.planner) ∧
      ∀ t ∈ c.targets, NothingFor c t s'.planner ∨
        calls.countP (fun call => call.1 = t) + queuedCandidates c s'.planner ≤
          queuedCandidates c s.planner := by
  induction calls generalizing s with
  | nil =>
    refine ⟨s, rfl, rfl, id, fun _ => id, fun t _ => .inr ?_⟩
    rw [countP_nil, zero_add]
  | cons call calls ih =>
    obtain ⟨s₁, hstep, hreported₁, hle, hkeep₁, hcall⟩ := plan_progress c s call.1 call.2
    obtain ⟨s₂, hrun, hreported₂, haccounted, hkeep₂, hprogress⟩ := ih s₁
    refine ⟨s₂, ?_, hreported₂.trans hreported₁, ?_, fun t h => hkeep₂ t (hkeep₁ t h), ?_⟩
    · rw [planCalls, map_cons, exec, hstep]
      exact hrun
    · exact fun h => haccounted (accounted_plan h hstep)
    · intro t ht
      rcases hprogress t ht with hnothing | hcount
      · exact .inl hnothing
      rw [countP_cons]
      rcases eq_or_ne call.1 t with rfl | hne
      · rcases hcall ht with hnothing | hless
        · exact .inl (hkeep₂ call.1 hnothing)
        · refine .inr ?_
          rw [if_pos (decide_eq_true rfl)]
          omega
      · refine .inr ?_
        rw [if_neg (fun h => hne (of_decide_eq_true h))]
        omega

theorem exists_owner (htargets : c.targets ≠ []) (hsource : source ∈ c.sources) (b : S × H) :
    ∃ t ∈ c.targets, c.owner source b = some t := by
  obtain ⟨pairs, hpairs, hsound, hcovers, -⟩ := exists_pairing c.nodeScore c.sources c.targets
  rw [pairing_eq_pairs, some.injEq] at hpairs
  subst hpairs
  obtain ⟨target, -, hpair⟩ := hcovers htargets source hsource
  obtain ⟨w, hw, hwinner, -⟩ := exists_winner c
    (ne_nil_of_mem (mem_peersOf.mpr hpair)) b.2
  exact ⟨w, (hsound _ (mem_peersOf.mp hw)).2, hwinner⟩

theorem queue_eq_nil (htargets : c.targets ≠ []) (h : ∀ t ∈ c.targets, NothingFor c t s.planner)
    (hsource : source ∈ c.sources) : s.planner.queue source = [] := by
  refine eq_nil_iff_forall_not_mem.mpr fun b hb => ?_
  obtain ⟨t, ht, howner⟩ := exists_owner htargets hsource b
  exact (h t ht).owner_ne hsource hb howner

/-! ### Dispatch -/

/-- The source still owns the block, and no target does. -/
def Cluster.Live (c : Cluster N S H) (source : N) (b : S × H) : Prop :=
  source ∈ c.owners b ∧ ∀ owner ∈ c.owners b, owner ∉ c.targets

theorem droppable_eq_false : droppable c source b = false ↔ c.Live source b := by
  unfold droppable ownerRoles Cluster.Live
  simp only [Bool.or_eq_false_iff, Bool.not_eq_false', List.any_eq_true, List.any_eq_false,
    decide_eq_true_eq, exists_eq_right, contains_iff_mem]

theorem mem_sentTo {d : Dispatch N S H} (hd : d ∈ s.dispatched source) (hb : b ∈ d.blocks) :
    b ∈ s.sentTo source d.target :=
  mem_flatMap.mpr ⟨d, mem_filter.mpr ⟨hd, decide_eq_true rfl⟩, hb⟩

theorem mem_sent (hb : b ∈ s.sentTo source target) : b ∈ s.sent source := by
  obtain ⟨d, hd, hb⟩ := mem_flatMap.mp hb
  exact mem_flatMap.mpr ⟨d, mem_of_mem_filter hd, hb⟩

variable [DecidableEq S] [DecidableEq H]

theorem count_flatMap_filter {ds : List (Dispatch N S H)}
    (h : ∀ d ∈ ds, b ∈ d.blocks → d.target = target) :
    (ds.flatMap Dispatch.blocks).count b =
      ((ds.filter fun d => d.target = target).flatMap Dispatch.blocks).count b := by
  induction ds with
  | nil => rfl
  | cons d ds ih =>
    have hrest := ih fun d' hd' => h d' (mem_cons_of_mem d hd')
    rw [flatMap_cons, count_append, hrest, filter_cons]
    split
    · rw [flatMap_cons, count_append]
    · next hne =>
      have hzero : d.blocks.count b = 0 := by
        refine count_eq_zero.mpr fun hb => hne ?_
        exact decide_eq_true (h d mem_cons_self hb)
      rw [hzero, zero_add]

theorem count_sent (h : Accounted c s) (hsource : source ∈ c.sources)
    (howner : c.owner source b = some target) :
    (s.sent source).count b = (s.sentTo source target).count b := by
  refine count_flatMap_filter fun d hd hb => ?_
  have howner' := (h source hsource).2.owner_eq (mem_sentTo hd hb)
  rw [howner] at howner'
  exact (some.inj howner').symm

theorem count_sent_le_one (h : Accounted c s) (hsource : source ∈ c.sources) (b : S × H) :
    (s.sent source).count b ≤ 1 := by
  rcases em (b ∈ s.sent source) with hb | hb
  · obtain ⟨d, hd, hb⟩ := mem_flatMap.mp hb
    obtain ⟨hnodup, hdelivered⟩ := h source hsource
    rw [count_sent h hsource (hdelivered.owner_eq (mem_sentTo hd hb))]
    exact hdelivered.count_le_one hnodup d.target b
  · rw [count_eq_zero.mpr hb]
    exact Nat.zero_le 1

/-- The planner dispatches the blocks of the latest reports.  The fields say, in this order, that no
block is dispatched twice; that a block is dispatched only if the source owns it and no target
does, and only to the paired target that owns it by its score; that no other block is dropped; that
a target gets the blocks of a source in the order of the report; that a batch of more than one block
keeps to the limit of its call; and that enough calls by all targets leave no block queued, so that
every block that is to be dispatched was dispatched exactly once. -/
structure Dispatching (c : Cluster N S H) (s : State N S H) : Prop where
  once : ∀ source ∈ c.sources, ∀ b, (s.sent source).count b ≤ 1
  rightful : ∀ source ∈ c.sources, ∀ d ∈ s.dispatched source, (source, d.target) ∈ c.pairs ∧
    ∀ b ∈ d.blocks, b ∈ s.reported source ∧ c.Live source b ∧
      ∀ peer, (source, peer) ∈ c.pairs →
        toLex (c.blockScore peer b.2, peer) ≤ toLex (c.blockScore d.target b.2, d.target)
  settled : ∀ source ∈ c.sources, ∀ b ∈ s.reported source, c.Live source b →
    b ∈ s.planner.queue source ∨ b ∈ s.sent source
  ordered : ∀ source ∈ c.sources, ∀ target,
    (s.sentTo source target).Sublist (s.reported source)
  sized : ∀ source, ∀ d ∈ s.dispatched source, d.batch.hashes.length = 1 ∨
    d.batch.blockBytes * d.batch.hashes.length ≤ d.maxBytes
  complete : c.targets ≠ [] → ∃ n, ∀ calls : List (N × ℕ),
    (∀ t ∈ c.targets, n ≤ calls.countP fun call => call.1 = t) →
    ∃ s', exec (step c) s (planCalls calls) = some s' ∧ ∀ source ∈ c.sources,
      s'.planner.queue source = [] ∧
      ∀ b ∈ s.reported source, c.Live source b → (s'.sent source).count b = 1

theorem Accounted.complete (h : Accounted c s) (htargets : c.targets ≠ []) (calls : List (N × ℕ))
    (hcalls : ∀ t ∈ c.targets,
      queuedCandidates c s.planner + 1 ≤ calls.countP fun call => call.1 = t) :
    ∃ s', exec (step c) s (planCalls calls) = some s' ∧ ∀ source ∈ c.sources,
      s'.planner.queue source = [] ∧
      ∀ b ∈ s.reported source, c.Live source b → (s'.sent source).count b = 1 := by
  obtain ⟨s', hrun, hreported, haccounted, -, hprogress⟩ := calls_progress c calls s
  have hnothing : ∀ t ∈ c.targets, NothingFor c t s'.planner := by
    intro t ht
    have hcount := hcalls t ht
    refine (hprogress t ht).resolve_right fun hle => ?_
    omega
  refine ⟨s', hrun, fun source hsource => ?_⟩
  have hempty := queue_eq_nil htargets hnothing hsource
  refine ⟨hempty, fun b hb hlive => ?_⟩
  obtain ⟨hnodup, hdelivered⟩ := haccounted h source hsource
  rw [hempty] at hdelivered
  rw [← hreported] at hb
  obtain ⟨t, howner, hcount, -⟩ :=
    hdelivered.count_eq_one hnodup hb (droppable_eq_false.mpr hlive)
  rw [count_sent (haccounted h) hsource howner, hcount]

theorem dispatching (haccounted : Accounted c s) (hbatched : Batched c s) : Dispatching c s := by
  refine ⟨fun source hsource b => count_sent_le_one haccounted hsource b, ?_, ?_, ?_, ?_, ?_⟩
  · intro source hsource d hd
    refine ⟨(hbatched source d hd).1, fun b hb => ?_⟩
    obtain ⟨-, hdelivered⟩ := haccounted source hsource
    have hsent := mem_sentTo hd hb
    refine ⟨(hdelivered.sent_sublist d.target).subset hsent,
      droppable_eq_false.mp (hdelivered.live d.target b hsent), fun peer hpeer => ?_⟩
    have hmem := mem_peersOf.mpr hpeer
    obtain ⟨w, -, hwinner, hbest⟩ := exists_winner c (ne_nil_of_mem hmem) b.2
    have howner : winner c (peersOf c.pairs source) b.2 = some d.target :=
      hdelivered.owner_eq hsent
    rw [hwinner] at howner
    rw [← some.inj howner]
    exact hbest peer hmem
  · intro source hsource b hb hlive
    rcases (haccounted source hsource).2.settled b hb with hqueue | ⟨t, hsent⟩ | hdead
    · exact .inl hqueue
    · exact .inr (mem_sent hsent)
    · rw [droppable_eq_false.mpr hlive] at hdead
      cases hdead
  · exact fun source hsource target => (haccounted source hsource).2.sent_sublist target
  · intro source d hd
    obtain ⟨-, hnonempty, hfits⟩ := hbatched source d hd
    have hpos := length_pos_iff.mpr hnonempty
    exact hfits.imp (fun hone => le_antisymm hone hpos) id
  · exact fun htargets => ⟨_, haccounted.complete htargets⟩

/-- The blocks of a report are distinct. -/
def Action.distinct : Action N S H → Bool
  | .report _ groups => (blocks groups).Nodup
  | .plan _ _ => true

/-- The call does not allow `u64::MAX` bytes. -/
def Action.belowMax : Action N S H → Bool
  | .report _ _ => true
  | .plan _ maxBytes => maxBytes < u64Max

/-- **Backup dispatch.**  Whatever the sources report and in whatever order the targets call, the
planner dispatches the reported blocks as `Dispatching` says, as long as the blocks of a report are
distinct and no call allows `u64::MAX` bytes. -/
theorem backup_dispatched_once (c : Cluster N S H) (actions : List (Action N S H))
    (h : Along (step c) (fun _ a => (a.distinct && a.belowMax) = true) init actions) :
    Always (step c) (Dispatching c) init actions := by
  have hkeep : ∀ (s : State N S H) a s', (Accounted c s ∧ Batched c s) →
      (a.distinct && a.belowMax) = true → step c s a = some s' →
      Accounted c s' ∧ Batched c s' := by
    rintro s a s' ⟨haccounted, hbatched⟩ hcond hstep
    rw [Bool.and_eq_true] at hcond
    cases a with
    | report source groups =>
      exact ⟨accounted_report haccounted (of_decide_eq_true hcond.1) hstep,
        batched_report hbatched hstep⟩
    | plan target maxBytes =>
      exact ⟨accounted_plan haccounted hstep,
        batched_plan hbatched (of_decide_eq_true hcond.2) hstep⟩
  refine (always_of_along hkeep ⟨accounted_init c, batched_init c⟩ h).mono ?_
  exact fun s hs => dispatching hs.1 hs.2

/-- One source and two targets; the source holds every block but `12`. -/
def twoTargets : Cluster ℕ ℕ ℕ where
  sources := [0]
  sources_sorted := by decide
  targets := [1, 2]
  targets_sorted := by decide
  nodeScore := fun source target => source + target
  blockScore := fun target hash => target * hash % 5
  owners := fun b => if b.2 = 12 then [] else [0]

/-- A report of five blocks and three calls. -/
def threeCalls : List (Action ℕ ℕ ℕ) :=
  [.report 0 [⟨0, 3, [10, 11, 12, 13]⟩, ⟨1, 5, [14]⟩], .plan 1 6, .plan 2 6, .plan 1 6]

theorem backup_dispatched_once_to_two_targets :
    (exec (step twoTargets) init threeCalls).map
        (fun s => (s.sentTo 0 1, s.sentTo 0 2, s.planner.queue 0)) =
      some ([(0, 13), (1, 14)], [(0, 10), (0, 11)], []) ∧
    Always (step twoTargets) (Dispatching twoTargets) init threeCalls :=
  ⟨by decide +kernel, backup_dispatched_once twoTargets threeCalls (by decide +kernel)⟩

/-- The sizes and limits are `u64`. -/
def Action.inU64 : Action N S H → Bool
  | .report _ groups => groups.all fun group => group.blockBytes ≤ u64Max
  | .plan _ maxBytes => maxBytes ≤ u64Max

/-- One source with two blocks of `2 ^ 63` bytes, and one target. -/
def oneTarget : Cluster ℕ ℕ ℕ where
  sources := [0]
  sources_sorted := by decide
  targets := [1]
  targets_sorted := by decide
  nodeScore := fun _ _ => 0
  blockScore := fun _ _ => 0
  owners := fun _ => [0]

theorem batch_exceeds_u64_max :
    ¬ ∀ (c : Cluster ℕ ℕ ℕ) (actions : List (Action ℕ ℕ ℕ)),
      Along (step c) (fun _ a => (a.distinct && a.inU64) = true) init actions →
      Always (step c) (Dispatching c) init actions :=
  fun h => not_always (fun s => ∀ d ∈ s.dispatched 0, d.batch.hashes.length = 1 ∨
      d.batch.blockBytes * d.batch.hashes.length ≤ d.maxBytes) (fun _ h => h.sized 0)
    (by decide +kernel) (h oneTarget [.report 0 [⟨0, 2 ^ 63, [10, 11]⟩], .plan 1 u64Max]
      (by decide +kernel))

end PegaFlow.Backup
