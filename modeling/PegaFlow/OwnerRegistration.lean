/-
PegaFlow/OwnerRegistration.lean

How a node tells the MetaServer which blocks it holds (`metaserver_client.rs`, and the places that
queue registrations and removals).

The read cache changes under its lock, a command is queued later.  Three kinds of threads register:
a save, which inserts its sealed blocks, captures their generations and queues the registration; a
fetch from a peer (`poll_existing`, `pull_once`), which does the same without generations; and
`pull_once` for planned blocks that are there already.  All of them hold the blocks that they
registered until the command is queued, and pressure eviction passes over blocks that somebody
holds.  One consumer takes commands from the queue, keeps the last one for each hash, and sends the
insertions, then the removals.
-/
import PegaFlow.ReadCacheClasses

namespace PegaFlow.Registration

open List Option

open Resident

variable {K V : Type} [DecidableEq K]

/-! ### The queue -/

inductive PendingOperation where
  | insert (applyReclaimableHint : Bool) (generation : Option ℕ)
  | remove
  deriving DecidableEq

inductive Command (K : Type) where
  | insert (hashes : List K) (applyReclaimableHint : Bool) (generations : AList fun _ : K => ℕ)
  | remove (hashes : List K)

/-- The last operation for each hash. -/
abbrev Net (K : Type) := AList fun _ : K => PendingOperation

def Net.add (net : Net K) : Command K → Net K
  | .insert hashes applyReclaimableHint generations =>
    hashes.foldl (fun net key => net.insert key (.insert applyReclaimableHint
      (if applyReclaimableHint then generations.lookup key else none))) net
  | .remove hashes => hashes.foldl (fun net key => net.insert key .remove) net

/-- Drain pending commands with per-hash last-write-wins semantics. -/
def Net.drain (commands : List (Command K)) : Net K := commands.foldl Net.add ∅

/-- The hash is still to be inserted, with this hint policy. -/
def Net.inserts (net : Net K) (applyReclaimableHint : Bool) (key : K) : Bool :=
  match net.lookup key with
  | some (.insert hint _) => hint = applyReclaimableHint
  | _ => false

/-- Operations whose call was sent. -/
def Net.sent (net : Net K) (chunk : List K) : Net K :=
  chunk.foldl (fun net key => net.erase key) net

def maxHashesPerRpc : ℕ := 16384

/-! ### The node -/

inductive Proc (K V : Type) where
  /-- A save after the insertion into the read cache. -/
  | inserted (blocks : List (K × V)) (residentKeys : List K)
  /-- A registration that is to be queued. -/
  | registering (blocks : List (K × V)) (hashes : List K) (applyReclaimableHint : Bool)
      (generations : AList fun _ : K => ℕ)
  /-- A removal that is to be queued. -/
  | unregistering (hashes : List K)

/-- The blocks that the thread holds. -/
def Proc.holds : Proc K V → List V
  | .inserted blocks _ => blocks.map Prod.snd
  | .registering blocks _ _ _ => blocks.map Prod.snd
  | .unregistering _ => []

structure State (K V : Type) [DecidableEq K] where
  cache : ReadCacheInner K V
  threads : AList fun _ : ℕ => Proc K V
  queue : List (Command K)
  /-- What the consumer has taken from the queue and not sent. -/
  sending : Net K
  /-- The hashes that the MetaServer lists for this node. -/
  listed : K → Bool

variable (s : State K V)

namespace State

def init (freq : Option (TinyLfu K)) : State K V := ⟨.new freq, ∅, [], ∅, fun _ => false⟩

def setThread (pid : ℕ) (proc : Proc K V) : State K V :=
  { s with threads := s.threads.insert pid proc }

/-- Queue a command; one without hashes is not sent. -/
def enqueue (pid : ℕ) (hashes : List K) (command : Command K) : State K V :=
  { s with
    threads := s.threads.erase pid
    queue := if hashes.isEmpty then s.queue else s.queue ++ [command] }

/-- The resident block of `key` has an owner besides the cache: a thread of this model, or somebody
else (`pins`). -/
def held [DecidableEq V] (s : State K V) (pins : K → Bool) (key : K) : Bool :=
  pins key || (s.cache.resident key).any fun block =>
    s.threads.entries.any fun e => block ∈ e.2.holds

/-- The blocks of `keys` that are resident. -/
def peek (keys : List K) : List (K × V) :=
  keys.filterMap fun key => (s.cache.resident key).map fun block => (key, block)

/-- `resident_generations` -/
def residentGenerations (keys : List K) : List (K × ℕ) :=
  keys.filterMap fun key => (s.cache.metadata key).map fun md => (key, md.generation)

/-- The next step of a thread. -/
def next (pid : ℕ) : Proc K V → State K V
  | .inserted blocks residentKeys =>
    let registrations := s.residentGenerations residentKeys
    s.setThread pid (.registering blocks (registrations.map Prod.fst) true
      (registrations.foldl (fun generations r => generations.insert r.1 r.2) ∅))
  | .registering _ hashes applyReclaimableHint generations =>
    s.enqueue pid hashes (.insert hashes applyReclaimableHint generations)
  | .unregistering hashes => s.enqueue pid hashes (.remove hashes)

end State

inductive Action (K V : Type) where
  /-- A save inserts its sealed blocks. -/
  | save (pid : ℕ) (blocks : List (K × V))
  /-- Blocks that came from a peer are inserted. -/
  | fetched (pid : ℕ) (blocks : List (K × V))
  /-- Planned blocks that are there already. -/
  | planned (pid : ℕ) (keys : List K)
  /-- Blocks that came from the SSD are inserted and not registered. -/
  | loaded (blocks : List (K × V))
  | cacheOp (op : Op K V)
  /-- Pressure eviction. -/
  | evict (pid : ℕ) (batchSize : ℕ) (pins : K → Bool)
  | next (pid : ℕ)
  /-- The consumer takes `n` commands. -/
  | drain (n : ℕ)
  | insertCall (applyReclaimableHint : Bool) (chunk : List K)
  | removeCall (chunk : List K)

/-- One step of the node; `none` when it cannot happen. -/
def step [DecidableEq V] (fp : V → ℕ) (s : State K V) : Action K V → Option (State K V)
  | .save pid blocks =>
    if (s.threads.lookup pid).isSome then none
    else (s.cache.batchInsert fp .retained blocks).map fun r =>
      { s with cache := r.2 }.setThread pid (.inserted blocks r.1)
  | .fetched pid blocks =>
    if (s.threads.lookup pid).isSome then none
    else (s.cache.batchInsert fp .retained blocks).map fun r =>
      { s with cache := r.2 }.setThread pid (.registering blocks r.1 false ∅)
  | .planned pid keys =>
    if (s.threads.lookup pid).isSome then none
    else some (s.setThread pid (.registering (s.peek keys) ((s.peek keys).map Prod.fst) false ∅))
  | .loaded blocks =>
    (s.cache.batchInsert fp .retained blocks).map fun r => { s with cache := r.2 }
  | .cacheOp op =>
    if op.keepsResidents then
      (Resident.step fp s.cache op).map fun cache => { s with cache := cache }
    else none
  | .evict pid batchSize pins =>
    if (s.threads.lookup pid).isSome then none
    else (s.cache.removeLruBatch batchSize (s.held pins)).map fun r =>
      { s with cache := r.2 }.setThread pid (.unregistering (r.1.map Prod.fst))
  | .next pid => (s.threads.lookup pid).map fun proc => s.next pid proc
  | .drain n =>
    -- the consumer takes at least one command, and none while it sends
    if s.sending.entries.isEmpty ∧ 0 < n ∧ n ≤ s.queue.length then
      some { s with queue := s.queue.drop n, sending := Net.drain (s.queue.take n) }
    else none
  | .insertCall hint chunk =>
    if chunk.length ≤ maxHashesPerRpc ∧ chunk.all (s.sending.inserts hint) then
      some { s with
        sending := s.sending.sent chunk
        listed := fun key => if key ∈ chunk then true else s.listed key }
    else none
  | .removeCall chunk =>
    -- all insertions were sent
    if chunk.length ≤ maxHashesPerRpc ∧ s.sending.entries.all (fun e => e.2 = .remove) ∧
        chunk.all (fun key => (s.sending.lookup key).isSome) then
      some { s with
        sending := s.sending.sent chunk
        listed := fun key => if key ∈ chunk then false else s.listed key }
    else none

/-! ### What the MetaServer will list -/

/-- What a command makes of the listing. -/
def Command.apply (listed : K → Bool) : Command K → K → Bool
  | .insert hashes _ _ => fun key => if key ∈ hashes then true else listed key
  | .remove hashes => fun key => if key ∈ hashes then false else listed key

def PendingOperation.isInsert : PendingOperation → Bool
  | .insert _ _ => true
  | .remove => false

def Net.apply (listed : K → Bool) (net : Net K) (key : K) : Bool :=
  ((net.lookup key).map PendingOperation.isInsert).getD (listed key)

/-- The listing when everything that is queued has been sent. -/
def State.promised : K → Bool :=
  s.queue.foldl Command.apply (s.sending.apply s.listed)

section Listing

variable {listed : K → Bool} {net : Net K} {s : State K V}

theorem Net.lookup_foldl_insert (hashes : List K) (op : K → PendingOperation) (key : K) :
    AList.lookup key (hashes.foldl (fun net key => net.insert key (op key)) net) =
      if key ∈ hashes then some (op key) else net.lookup key := by
  induction hashes generalizing net with
  | nil => rfl
  | cons hash hashes ih =>
    rw [foldl_cons, ih]
    simp only [mem_cons]
    by_cases hmem : key ∈ hashes
    · rw [if_pos hmem, if_pos (Or.inr hmem)]
    rw [if_neg hmem]
    rcases eq_or_ne key hash with rfl | hne
    · rw [AList.lookup_insert, if_pos (Or.inl rfl)]
    · rw [AList.lookup_insert_ne hne, if_neg (by simp [hne, hmem])]

theorem Net.apply_foldl_insert (hashes : List K) (op : K → PendingOperation) (b : Bool)
    (hop : ∀ key, (op key).isInsert = b) :
    Net.apply listed (hashes.foldl (fun net key => net.insert key (op key)) net) =
      fun key => if key ∈ hashes then b else net.apply listed key := by
  funext key
  rw [Net.apply, Net.lookup_foldl_insert]
  split
  · exact hop key
  · rfl

/-- Keeping the last operation for each hash loses nothing. -/
theorem Net.apply_add (command : Command K) :
    Net.apply listed (net.add command) = command.apply (net.apply listed) := by
  cases command with
  | insert hashes hint generations => exact Net.apply_foldl_insert hashes _ true fun _ => rfl
  | remove hashes => exact Net.apply_foldl_insert hashes _ false fun _ => rfl

theorem Net.apply_drain (commands : List (Command K)) :
    Net.apply listed (Net.drain commands) = commands.foldl Command.apply listed := by
  have hadd : ∀ net : Net K, Net.apply listed (commands.foldl Net.add net) =
      commands.foldl Command.apply (net.apply listed) := by
    induction commands with
    | nil => exact fun _ => rfl
    | cons command commands ih =>
      intro net
      rw [foldl_cons, foldl_cons, ih, Net.apply_add]
  exact hadd ∅

theorem Net.lookup_sent (chunk : List K) (key : K) :
    (net.sent chunk).lookup key = if key ∈ chunk then none else net.lookup key := by
  unfold Net.sent
  induction chunk generalizing net with
  | nil => rfl
  | cons k chunk ih =>
    rw [foldl_cons, ih]
    simp only [mem_cons]
    rcases eq_or_ne key k with rfl | hne
    · rw [AList.lookup_erase, ite_self, if_pos (Or.inl rfl)]
    · rw [AList.lookup_erase_ne hne]
      exact if_congr (by simp [hne]) rfl rfl

theorem Net.apply_sent (chunk : List K) (b : Bool)
    (hchunk : ∀ key ∈ chunk, net.apply listed key = b) :
    Net.apply (fun key => if key ∈ chunk then b else listed key) (net.sent chunk) =
      net.apply listed := by
  funext key
  rw [Net.apply, Net.lookup_sent]
  rcases em (key ∈ chunk) with hmem | hmem
  · rw [if_pos hmem, ← hchunk key hmem]
    exact if_pos hmem
  · rw [if_neg hmem, Net.apply, if_neg hmem]

theorem promised_enqueue (pid : ℕ) (hashes : List K) (command : Command K)
    (hempty : hashes = [] → ∀ listed, command.apply listed = listed) :
    (s.enqueue pid hashes command).promised = command.apply s.promised := by
  show (if hashes.isEmpty then s.queue else s.queue ++ [command]).foldl _ _ = _
  split
  · next h =>
    rw [hempty (isEmpty_iff.mp h)]
    rfl
  · rw [foldl_append]
    rfl

end Listing

/-! ### What is listed is resident -/

/-- The hashes that the thread will register. -/
def Proc.registers : Proc K V → List K
  | .inserted _ residentKeys => residentKeys
  | .registering _ hashes _ _ => hashes
  | .unregistering _ => []

/-- The hashes whose removal the thread will queue. -/
def Proc.removes : Proc K V → List K
  | .unregistering hashes => hashes
  | _ => []

/-- **The invariant.**  A thread holds the resident blocks that it will register, and a hash that
will be listed is resident, or its removal is to be queued. -/
structure Backed : Prop where
  tracks : ∃ T n, Tracks T n s.cache
  registers : ∀ pid proc, s.threads.lookup pid = some proc → ∀ key ∈ proc.registers,
    ∃ block ∈ proc.holds, s.cache.resident key = some block
  promised : ∀ key, s.promised key → (s.cache.resident key).isSome ∨
    ∃ pid proc, s.threads.lookup pid = some proc ∧ key ∈ proc.removes

section Steps

variable {s s' : State K V} {pid : ℕ}

theorem lookup_setThread (s : State K V) (pid : ℕ) (proc : Proc K V) (pid' : ℕ) :
    (s.setThread pid proc).threads.lookup pid' =
      if pid' = pid then some proc else s.threads.lookup pid' :=
  lookup_insert_apply pid'

variable {proc : Proc K V}

theorem Backed.setThread (h : Backed s)
    (hold : ∀ old, s.threads.lookup pid = some old → old.removes = [])
    (hproc : ∀ key ∈ proc.registers, ∃ block ∈ proc.holds, s.cache.resident key = some block) :
    Backed (s.setThread pid proc) where
  tracks := h.tracks
  registers pid' proc' hpid' := by
    rw [lookup_setThread] at hpid'
    split at hpid'
    · cases hpid'
      exact hproc
    · exact h.registers pid' proc' hpid'
  promised key hkey := by
    rcases h.promised key hkey with hresident | ⟨pid', proc', hpid', hmem⟩
    · exact Or.inl hresident
    · refine Or.inr ⟨pid', proc', ?_, hmem⟩
      rw [lookup_setThread, if_neg]
      · exact hpid'
      · rintro rfl
        rw [hold proc' hpid'] at hmem
        cases hmem

variable {cache : ReadCacheInner K V}

section

variable (h : Backed s)
include h

/-- Blocks come into the cache, or nothing changes there. -/
theorem Backed.grow (htracks : ∃ T n, Tracks T n cache)
    (hstays : ∀ key block, s.cache.resident key = some block → cache.resident key = some block) :
    Backed { s with cache := cache } where
  tracks := htracks
  registers pid proc hpid key hkey := by
    obtain ⟨block, hblock, hresident⟩ := h.registers pid proc hpid key hkey
    exact ⟨block, hblock, hstays key block hresident⟩
  promised key hkey := by
    rcases h.promised key hkey with hresident | hremoves
    · obtain ⟨block, hblock⟩ := isSome_iff_exists.mp hresident
      exact Or.inl (isSome_iff_exists.mpr ⟨block, hstays key block hblock⟩)
    · exact Or.inr hremoves

/-- The blocks of a batch for keys that were not resident are held by the thread that offers it. -/
theorem Backed.insert {blocks : List (K × V)} {keys : List K}
    (htracks : ∃ T n, Tracks T n cache)
    (hfills : Fills id blocks keys s.cache.resident cache.resident)
    (hfree : s.threads.lookup pid = none) (hregisters : proc.registers = keys)
    (hholds : proc.holds = blocks.map Prod.snd)
    (hfresh : ∀ e ∈ blocks, s.cache.resident e.1 = none) :
    Backed (State.setThread { s with cache := cache } pid proc) := by
  refine (h.grow htracks hfills.stays).setThread ?_ ?_
  · intro old hpid
    rw [show s.threads.lookup pid = some old from hpid] at hfree
    cases hfree
  · intro key hkey
    rw [hregisters] at hkey
    obtain ⟨hsome, hmem⟩ := hfills.reported key hkey
    obtain ⟨block, hblock⟩ := isSome_iff_exists.mp hsome
    refine ⟨block, ?_, hblock⟩
    rw [hholds]
    rcases hfills.new key block hblock with hold | hnew
    · obtain ⟨e, he, rfl⟩ := mem_map.mp hmem
      rw [hfresh e he] at hold
      cases hold
    · exact mem_map.mpr ⟨_, hnew, rfl⟩

/-- A registration is queued while its blocks are held, a removal by the thread that evicted. -/
theorem Backed.enqueue (hpid : s.threads.lookup pid = some proc) {hashes : List K}
    {command : Command K} (hempty : hashes = [] → ∀ listed, command.apply listed = listed)
    (hcommand : ∀ key, command.apply s.promised key →
      key ∈ proc.registers ∨ s.promised key ∧ key ∉ proc.removes) :
    Backed (s.enqueue pid hashes command) where
  tracks := h.tracks
  registers pid' proc' hpid' := by
    exact h.registers pid' proc' (of_lookup_erase hpid').2
  promised key hkey := by
    rw [promised_enqueue pid hashes command hempty] at hkey
    rcases hcommand key hkey with hregisters | ⟨hpromised, hremoves⟩
    · obtain ⟨block, -, hresident⟩ := h.registers pid proc hpid key hregisters
      exact Or.inl (isSome_iff_exists.mpr ⟨block, hresident⟩)
    · rcases h.promised key hpromised with hresident | ⟨pid', proc', hpid', hmem⟩
      · exact Or.inl hresident
      · refine Or.inr ⟨pid', proc', ?_, hmem⟩
        show (s.threads.erase pid).lookup pid' = some proc'
        rw [AList.lookup_erase_ne]
        · exact hpid'
        · rintro rfl
          cases hpid.symm.trans hpid'
          exact hremoves hmem

theorem Backed.next (hpid : s.threads.lookup pid = some proc) : Backed (s.next pid proc) := by
  cases proc with
  | inserted blocks residentKeys =>
    refine h.setThread ?_ ?_
    · intro old hold
      cases hpid.symm.trans hold
      rfl
    · -- the generations are those of keys that were reported
      intro key hkey
      refine h.registers pid _ hpid key ?_
      obtain ⟨⟨k, g⟩, hmem, rfl⟩ := mem_map.mp hkey
      obtain ⟨k', hk', hmap⟩ := mem_filterMap.mp hmem
      obtain ⟨md, -, heq⟩ := map_eq_some_iff.mp hmap
      cases heq
      exact hk'
  | registering blocks hashes hint generations =>
    refine h.enqueue hpid ?_ ?_
    · rintro rfl listed
      rfl
    · intro key hkey
      have hkey : (if key ∈ hashes then true else s.promised key) = true := hkey
      split at hkey
      · next hmem => exact Or.inl hmem
      · exact Or.inr ⟨hkey, not_mem_nil⟩
  | unregistering hashes =>
    refine h.enqueue hpid ?_ ?_
    · rintro rfl listed
      rfl
    · intro key hkey
      have hkey : (if key ∈ hashes then false else s.promised key) = true := hkey
      split at hkey
      · cases hkey
      · next hmem => exact Or.inr ⟨hkey, hmem⟩

/-- The consumer does what was promised, and touches nothing else. -/
theorem Backed.consume {queue : List (Command K)} {sending : Net K} {listed : K → Bool}
    (hpromised : queue.foldl Command.apply (sending.apply listed) = s.promised) :
    Backed { s with queue := queue, sending, listed } where
  tracks := h.tracks
  registers := h.registers
  promised key hkey := by
    rw [State.promised, hpromised] at hkey
    exact h.promised key hkey

end

variable [DecidableEq V]

/-- A block that a thread will register is held, so it is not evicted. -/
theorem Backed.evict (h : Backed s) {pins : K → Bool} {taken : List (K × V)} {batchSize : ℕ}
    (htracks : ∃ T n, Tracks T n cache)
    (hevicted : Evicted batchSize (s.held pins) taken s.cache cache)
    (hfree : s.threads.lookup pid = none) : Backed (State.setThread { s with cache := cache } pid
      (.unregistering (taken.map Prod.fst))) where
  tracks := htracks
  registers pid' proc' hpid' key hkey := by
    rw [lookup_setThread] at hpid'
    split at hpid'
    · cases hpid'
      cases hkey
    · obtain ⟨block, hblock, hresident⟩ := h.registers pid' proc' hpid' key hkey
      refine ⟨block, hblock, (hevicted.resident key fun hmem => ?_).1.trans hresident⟩
      obtain ⟨e, he, rfl⟩ := mem_map.mp hmem
      have hheld : s.held pins e.1 := by
        unfold State.held
        rw [hresident, Bool.or_eq_true]
        exact Or.inr (any_eq_true.mpr
          ⟨⟨pid', proc'⟩, AList.mem_lookup_iff.mp hpid', decide_eq_true hblock⟩)
      rw [(hevicted.blocks e he).2] at hheld
      cases hheld
  promised key hkey := by
    rcases em (key ∈ taken.map Prod.fst) with hmem | hmem
    · refine Or.inr ⟨pid, .unregistering (taken.map Prod.fst), ?_, hmem⟩
      rw [lookup_setThread, if_pos rfl]
    · rcases h.promised key hkey with hresident | ⟨pid', proc', hpid', hremoves⟩
      · left
        show (cache.resident key).isSome
        rw [(hevicted.resident key hmem).1]
        exact hresident
      · refine Or.inr ⟨pid', proc', ?_, hremoves⟩
        rw [lookup_setThread, if_neg]
        · exact hpid'
        · rintro rfl
          rw [show s.threads.lookup pid' = some proc' from hpid'] at hfree
          cases hfree

/-- No block is offered for a key that is resident. -/
def fresh (s : State K V) : Action K V → Bool
  | .save _ blocks => blocks.all fun e => (s.cache.resident e.1).isNone
  | .fetched _ blocks => blocks.all fun e => (s.cache.resident e.1).isNone
  | _ => true

theorem Backed.step (h : Backed s) {fp : V → ℕ} {a : Action K V} (hfresh : fresh s a)
    (hstep : Registration.step fp s a = some s') : Backed s' := by
  obtain ⟨T, n, htracks⟩ := h.tracks
  cases a with
  | save pid blocks | fetched pid blocks =>
    simp only [Registration.step] at hstep
    split at hstep
    · cases hstep
    · next hfree =>
      obtain ⟨⟨keys, cache⟩, hcache, rfl⟩ := map_eq_some_iff.mp hstep
      obtain ⟨htracks', hfills⟩ := htracks.of_batchInsert hcache
      exact h.insert htracks' hfills (not_isSome_iff_eq_none.mp hfree) rfl rfl
        fun e he => isNone_iff_eq_none.mp (all_eq_true.mp hfresh e he)
  | planned pid keys =>
    simp only [Registration.step] at hstep
    split at hstep
    · cases hstep
    · next hfree =>
      cases hstep
      refine h.setThread ?_ ?_
      · intro old hpid
        rw [hpid] at hfree
        exact absurd rfl hfree
      · -- these are the resident blocks themselves
        intro key hkey
        obtain ⟨⟨k, block⟩, hmem, rfl⟩ := mem_map.mp hkey
        obtain ⟨k', -, hmap⟩ := mem_filterMap.mp hmem
        obtain ⟨block', hblock', heq⟩ := map_eq_some_iff.mp hmap
        cases heq
        exact ⟨block, mem_map.mpr ⟨_, hmem, rfl⟩, hblock'⟩
  | loaded blocks =>
    obtain ⟨⟨keys, cache⟩, hcache, rfl⟩ := map_eq_some_iff.mp hstep
    obtain ⟨htracks', hfills⟩ := htracks.of_batchInsert hcache
    exact h.grow htracks' hfills.stays
  | cacheOp op =>
    simp only [Registration.step] at hstep
    split at hstep
    · next hop =>
      obtain ⟨cache, hcache, rfl⟩ := map_eq_some_iff.mp hstep
      obtain ⟨cache', T', n', hcache', htracks', -, -, hkeeps⟩ := htracks.step fp op
      cases hcache.symm.trans hcache'
      refine h.grow ⟨T', n', htracks'⟩ ?_
      rw [hkeeps hop]
      exact fun _ _ hblock => hblock
    · cases hstep
  | evict pid batchSize pins =>
    simp only [Registration.step] at hstep
    split at hstep
    · cases hstep
    · next hfree =>
      obtain ⟨⟨taken, cache⟩, hcache, rfl⟩ := map_eq_some_iff.mp hstep
      obtain ⟨removed, cache', hcache', htracks', hevicted⟩ :=
        htracks.evicted batchSize (s.held pins)
      cases hcache.symm.trans hcache'
      exact h.evict ⟨_, n, htracks'⟩ hevicted (not_isSome_iff_eq_none.mp hfree)
  | next pid =>
    obtain ⟨proc, hpid, rfl⟩ := map_eq_some_iff.mp hstep
    exact h.next hpid
  | drain n =>
    simp only [Registration.step] at hstep
    split at hstep
    · next hidle =>
      cases hstep
      refine h.consume ?_
      have hempty : s.sending = ∅ := AList.ext (isEmpty_iff.mp hidle.1)
      rw [Net.apply_drain, ← foldl_append, take_append_drop, State.promised, hempty]
      rfl
    · cases hstep
  | insertCall hint chunk =>
    simp only [Registration.step] at hstep
    split at hstep
    · next hchunk =>
      cases hstep
      refine h.consume ?_
      rw [Net.apply_sent chunk true]
      · rfl
      · intro key hkey
        have hinserts := all_eq_true.mp hchunk.2 key hkey
        unfold Net.inserts at hinserts
        unfold Net.apply
        split at hinserts
        · next hlookup => rw [hlookup]; rfl
        · cases hinserts
    · cases hstep
  | removeCall chunk =>
    simp only [Registration.step] at hstep
    split at hstep
    · next hchunk =>
      cases hstep
      refine h.consume ?_
      rw [Net.apply_sent chunk false]
      · rfl
      · intro key hkey
        obtain ⟨op, hop⟩ := isSome_iff_exists.mp (all_eq_true.mp hchunk.2.2 key hkey)
        have hremove : op = .remove := of_decide_eq_true
          (all_eq_true.mp hchunk.2.1 ⟨key, op⟩ (AList.mem_lookup_iff.mp hop))
        unfold Net.apply
        rw [hop, hremove]
        rfl
    · cases hstep

end Steps

/-- Everything that was queued has been sent, and no removal is still to be queued. -/
def State.drained : Bool :=
  s.queue.isEmpty && s.sending.entries.isEmpty && s.threads.entries.all fun e => e.2.removes.isEmpty

end PegaFlow.Registration
