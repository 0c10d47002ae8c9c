/-
PegaFlow/MetaStore.lean

The MetaServer's block store (`store.rs`) under concurrent calls.

`blocks` maps a key to the nodes that own it, `nodes` a node to its current session; each entry is
its own critical section, and the counters and the reconcile flag are atomics.  A call is a thread:
between two of its steps all other calls may move.
-/
import PegaFlow.KeyedSums
import Mathlib.Data.UInt

namespace PegaFlow.MetaStore

variable {K N S : Type} [DecidableEq K] [DecidableEq N] [DecidableEq S]

/-! ### Records -/

/-- Snapshot of the session that wrote this block ownership. -/
structure OwnerRecord (S : Type) where
  nodeId : S
  keyRegisterTime : ℕ
  registration : ℕ
  deriving DecidableEq

/-- Authoritative current session for a node. -/
structure NodeRecord (S : Type) where
  nodeId : S
  lastSeen : ℕ
  registration : ℕ
  deriving DecidableEq

abbrev Owners (N S : Type) := AList fun _ : N => OwnerRecord S

structure StoreConfig where
  nodeStaleAfter : ℕ
  ttl : ℕ

/-! ### Counters -/

inductive Counter where
  | keys1
  | keys2
  | keys3
  | keys4plus
  | copies
  deriving DecidableEq

inductive AtomicOp where
  | fetchAdd (c : Counter) (n : ℕ)
  | fetchSub (c : Counter) (n : ℕ)

/-- The counter for keys with `count` owners; a key without owners is not counted. -/
def bucket : ℕ → Option Counter
  | 0 => none
  | 1 => some .keys1
  | 2 => some .keys2
  | 3 => some .keys3
  | _ => some .keys4plus

/-- The atomic operations of `adjust`, in order. -/
def adjust (before after : ℕ) : List AtomicOp :=
  if before = after then []
  else ((bucket before).toList.map fun c => .fetchSub c 1) ++
    ((bucket after).toList.map fun c => .fetchAdd c 1) ++
    [if after > before then .fetchAdd .copies (after - before)
      else .fetchSub .copies (before - after)]

abbrev RedundancyCounters := Counter → UInt64

def AtomicOp.apply (counters : RedundancyCounters) : AtomicOp → RedundancyCounters
  | .fetchAdd c n => Function.update counters c (counters c + UInt64.ofNat n)
  | .fetchSub c n => Function.update counters c (counters c - UInt64.ofNat n)

/-! ### Calls in progress -/

/-- Which owner records a scan keeps. -/
inductive Keep (N S : Type) where
  /-- `unregister_node`, with the registration it ended. -/
  | unregister (node : N) (nodeId : S) (registration : ℕ)
  /-- `sweep_expired` -/
  | current
  /-- `remove_owners_older_than` -/
  | younger (now maxAge : ℕ)
  /-- `invalidate_all` -/
  | nothing

/-- Which node records are removed before a scan. -/
inductive NodesJob where
  | expired (now : ℕ) (reconcile : Bool) (removedNodes : ℕ)
  | all

/-- An owner record that failed the test of a scan, and the session of its node when it was
checked. -/
structure Dropped (N S : Type) where
  node : N
  owner : OwnerRecord S
  current : Option S

inductive Proc (K N S : Type) where
  | inserting (node : N) (nodeId : S) (now : ℕ) (todo : List K)
  | removing (node : N) (nodeId : S) (todo : List K)
  | scanningNodes (job : NodesJob) (visited : List N)
  | scanning (keep : Keep N S) (visited : List K)
  /-- A scan that holds `key`, with the owners still to check and those to be dropped. -/
  | checking (keep : Keep N S) (visited : List K) (key : K) (todo : List N)
      (dropped : List (Dropped N S))
  /-- `query_prefix` (`stopAtMiss`) or `for_each_visible_owner`, at the owners of `key`. -/
  | querying (stopAtMiss : Bool) (now : ℕ) (key : K) (owners : List (N × OwnerRecord S))
      (live : Bool) (todo : List K)

structure Thread (K N S : Type) where
  proc : Proc K N S
  /-- The key whose entry is held for writing. -/
  held : Option K
  /-- Atomic operations to be done before the entry is released. -/
  atomics : List AtomicOp

/-- An owner that was reported visible, and the session of its node when it was checked. -/
structure Answer (K N S : Type) where
  key : K
  node : N
  nodeId : S
  current : Option S

structure Store (K N S : Type) [DecidableEq K] [DecidableEq N] where
  blocks : AList fun _ : K => Owners N S
  nodes : AList fun _ : N => NodeRecord S
  reconcileNeeded : Bool
  redundancy : RedundancyCounters
  threads : AList fun _ : ℕ => Thread K N S
  registrations : ℕ
  lastRegistered : N → S → ℕ
  /-- Sessions whose `unregister_node` has returned, with the registration it ended. -/
  fenced : List (N × S × ℕ)
  answers : List (Answer K N S)
  /-- What the scans of `unregister_node` dropped, with the registration that was ended. -/
  drops : List (ℕ × Dropped N S)

variable (s : Store K N S)

namespace Store

def init : Store K N S where
  blocks := ∅
  nodes := ∅
  reconcileNeeded := false
  redundancy _ := 0
  threads := ∅
  registrations := 0
  lastRegistered _ _ := 0
  fenced := []
  answers := []
  drops := []

/-- The current session of a node. -/
def session (node : N) : Option S := (s.nodes.lookup node).map NodeRecord.nodeId

/-- The entry of `key` is held by a call. -/
def locked (key : K) : Bool :=
  s.threads.entries.any fun e => e.2.held = some key

def setThread (pid : ℕ) (t : Thread K N S) : Store K N S :=
  { s with threads := s.threads.insert pid t }

/-- The call returns. -/
def endThread (pid : ℕ) : Store K N S :=
  { s with threads := s.threads.erase pid }

/-- Write the owners of `key`; a key without owners is removed. -/
def setOwners (key : K) (owners : Owners N S) : Store K N S :=
  { s with
    blocks := if owners.entries.isEmpty then s.blocks.erase key else s.blocks.insert key owners }

/-- The number of owners of `key`. -/
def ownerCount (key : K) : ℕ :=
  match s.blocks.lookup key with
  | none => 0
  | some owners => owners.entries.length

/-! ### Calls -/

/-- A session becomes the current one of its node. -/
def register (node : N) (nodeId : S) (now : ℕ) : Store K N S :=
  { s with
    nodes := s.nodes.insert node ⟨nodeId, now, s.registrations + 1⟩
    registrations := s.registrations + 1
    lastRegistered := fun n i =>
      if n = node ∧ i = nodeId then s.registrations + 1 else s.lastRegistered n i }

variable (config : StoreConfig)

def heartbeatNode (s : Store K N S) (node : N) (nodeId : S) (now : ℕ) : Store K N S :=
  match s.nodes.lookup node with
  | none => s.register node nodeId now
  | some record =>
    if record.nodeId = nodeId then
      { s with nodes := s.nodes.insert node { record with lastSeen := now } }
    else if now - record.lastSeen > config.nodeStaleAfter then
      -- session takeover
      { s with reconcileNeeded := true }.register node nodeId now
    else s

/-- Validate and refresh the node's current session. -/
def touchNodeSession (node : N) (nodeId : S) (now : ℕ) : Option (Store K N S) :=
  match s.nodes.lookup node with
  | none => none
  | some record =>
    if record.nodeId ≠ nodeId then none
    else some { s with nodes := s.nodes.insert node { record with lastSeen := now } }

inductive Call (K N S : Type) where
  | insertHashes (node : N) (nodeId : S) (keys : List K) (touchedAt now : ℕ)
  | removeHashes (node : N) (nodeId : S) (keys : List K) (touchedAt : ℕ)
  | unregisterNode (node : N) (nodeId : S)
  | sweepExpired (now : ℕ)
  | removeOwnersOlderThan (now maxAge : ℕ)
  | invalidateAll
  | queryPrefix (keys : List K) (now : ℕ)
  | forEachVisibleOwner (key : K) (now : ℕ)

/-- A thread that holds nothing. -/
def idle (proc : Proc K N S) : Thread K N S := ⟨proc, none, []⟩

/-- Look up the next key of a query. -/
def queryNext (stopAtMiss : Bool) (now : ℕ) (pid : ℕ) : List K → Store K N S
  | [] => s.endThread pid
  | key :: todo =>
    match s.blocks.lookup key with
    | none => s.endThread pid
    | some owners =>
      s.setThread pid (idle (.querying stopAtMiss now key
        (owners.entries.map fun e => (e.1, e.2)) false todo))

/-- The first step of a call.  A call that fails here returns at once. -/
def call (pid : ℕ) : Call K N S → Store K N S
  | .insertHashes node nodeId keys touchedAt now =>
    match s.touchNodeSession node nodeId touchedAt with
    | none => s
    | some s => s.setThread pid (idle (.inserting node nodeId now keys))
  | .removeHashes node nodeId keys touchedAt =>
    match s.touchNodeSession node nodeId touchedAt with
    | none => s
    | some s => s.setThread pid (idle (.removing node nodeId keys))
  | .unregisterNode node nodeId =>
    match s.nodes.lookup node with
    | none => s
    | some record =>
      if record.nodeId ≠ nodeId then s
      else { s with nodes := s.nodes.erase node }.setThread pid
        (idle (.scanning (.unregister node nodeId record.registration) []))
  | .sweepExpired now =>
    { s with reconcileNeeded := false }.setThread pid
      (idle (.scanningNodes (.expired now s.reconcileNeeded 0) []))
  | .removeOwnersOlderThan now maxAge => s.setThread pid (idle (.scanning (.younger now maxAge) []))
  | .invalidateAll => s.setThread pid (idle (.scanningNodes .all []))
  | .queryPrefix keys now => s.queryNext true now pid keys
  | .forEachVisibleOwner key now => s.queryNext false now pid [key]

/-! ### Steps of a call -/

/-- `is_owner_visible` -/
def isOwnerVisible (s : Store K N S) (node : N) (owner : OwnerRecord S) (now : ℕ) : Bool :=
  match s.nodes.lookup node with
  | none => false
  | some record => record.nodeId = owner.nodeId && now - record.lastSeen ≤ config.nodeStaleAfter

/-- The test of a scan on one owner record. -/
def keeps (keep : Keep N S) (node : N) (owner : OwnerRecord S) : Bool :=
  match keep with
  | .unregister n _ _ => node ≠ n || s.session n = some owner.nodeId
  | .current => s.session node = some owner.nodeId
  | .younger now maxAge => now - owner.keyRegisterTime ≤ maxAge
  | .nothing => false

/-- The owner record of `node` for `key`. -/
def owner (key : K) (node : N) : Option (OwnerRecord S) :=
  (s.blocks.lookup key).bind (AList.lookup node)

/-- The record of `node` if it fails the test. -/
def check (keep : Keep N S) (key : K) (node : N) : List (Dropped N S) :=
  match s.owner key node with
  | none => []
  | some owner => if s.keeps keep node owner then [] else [⟨node, owner, s.session node⟩]

/-- The node record goes when the job says so. -/
def NodesJob.keeps (record : NodeRecord S) : NodesJob → Bool
  | .expired now _ _ => now - record.lastSeen ≤ config.ttl
  | .all => false

def NodesJob.removed : NodesJob → NodesJob
  | .expired now reconcile removedNodes => .expired now reconcile (removedNodes + 1)
  | .all => .all

/-- Hold `key` until the counters are adjusted. -/
def adjusting (proc : Proc K N S) (key : K) (before after : ℕ) : Thread K N S :=
  if (adjust before after).isEmpty then idle proc else ⟨proc, some key, adjust before after⟩

/-- Write the owners of `key` and adjust the counters. -/
def writeOwners (pid : ℕ) (key : K) (owners : Owners N S) (next : Proc K N S) : Store K N S :=
  (s.setOwners key owners).setThread pid
    (adjusting next key (s.ownerCount key) owners.entries.length)

/-- One write of `insert_hashes`; `none` while the key is held by another call. -/
def insertHash (pid : ℕ) (node : N) (nodeId : S) (now : ℕ) (key : K)
    (todo : List K) : Option (Store K N S) :=
  if s.locked key then none
  else match s.nodes.lookup node with
    | none => some (s.endThread pid)
    | some record =>
      if record.nodeId ≠ nodeId then some (s.endThread pid)
      else
        let owners := (s.blocks.lookup key).getD ∅
        some (s.writeOwners pid key (owners.insert node ⟨nodeId, now, record.registration⟩)
          (.inserting node nodeId now todo))

/-- One write of `remove_hashes`. -/
def removeHash (pid : ℕ) (node : N) (nodeId : S) (key : K) (todo : List K) : Option (Store K N S) :=
  if s.locked key then none
  else match s.blocks.lookup key with
    | none => some (s.setThread pid (idle (.removing node nodeId todo)))
    | some owners =>
      let owners := if ((owners.lookup node).any fun owner => owner.nodeId = nodeId) then
        owners.erase node else owners
      some (s.writeOwners pid key owners (.removing node nodeId todo))

/-- Start the visit of `key` by a scan. -/
def visitKey (pid : ℕ) (keep : Keep N S) (visited : List K) (key : K) : Option (Store K N S) :=
  if s.locked key then none
  else match s.blocks.lookup key with
    | none => some (s.setThread pid (idle (.scanning keep (key :: visited))))
    | some owners =>
      some (s.setThread pid ⟨.checking keep visited key owners.keys [], some key, []⟩)

/-- The owners that remain. -/
def dropAll (owners : Owners N S) (dropped : List (Dropped N S)) : Owners N S :=
  dropped.foldl (fun owners d => owners.erase d.node) owners

/-- Note what a scan of `unregister_node` drops. -/
def noteDrops (keep : Keep N S) (dropped : List (Dropped N S)) : Store K N S :=
  match keep with
  | .unregister _ _ ended => { s with drops := dropped.map (ended, ·) ++ s.drops }
  | _ => s

/-- One step of the visit of `key`: the check of the next owner, or the end of the visit. -/
def checkOwner (pid : ℕ) (keep : Keep N S) (visited : List K) (key : K)
    (dropped : List (Dropped N S)) : List N → Store K N S
  | node :: todo =>
    s.setThread pid ⟨.checking keep visited key todo (s.check keep key node ++ dropped),
      some key, []⟩
  | [] =>
    (s.noteDrops keep dropped).writeOwners pid key
      (dropAll ((s.blocks.lookup key).getD ∅) dropped) (.scanning keep (key :: visited))

/-- The scan is over: the call returns. -/
def endScan (pid : ℕ) (keep : Keep N S) : Store K N S :=
  match keep with
  | .unregister node nodeId registration =>
    { s with fenced := (node, nodeId, registration) :: s.fenced }.endThread pid
  | _ => s.endThread pid

/-- Visit one node record. -/
def visitNode (s : Store K N S) (pid : ℕ) (job : NodesJob)
    (visited : List N) (node : N) : Store K N S :=
  match s.nodes.lookup node with
  | none => s.setThread pid (idle (.scanningNodes job (node :: visited)))
  | some record =>
    if NodesJob.keeps config record job then
      s.setThread pid (idle (.scanningNodes job (node :: visited)))
    else { s with nodes := s.nodes.erase node }.setThread pid
      (idle (.scanningNodes (NodesJob.removed job) (node :: visited)))

/-- All node records were visited. -/
def endNodes (pid : ℕ) : NodesJob → Store K N S
  | .expired _ reconcile removedNodes =>
    if removedNodes = 0 ∧ reconcile = false then s.endThread pid
    else s.setThread pid (idle (.scanning .current []))
  | .all => s.setThread pid (idle (.scanning .nothing []))

/-- One check of a query. -/
def checkVisible (s : Store K N S) (pid : ℕ) (stopAtMiss : Bool) (now : ℕ)
    (key : K) (live : Bool) (todo : List K) : List (N × OwnerRecord S) → Store K N S
  | (node, owner) :: owners =>
    if s.isOwnerVisible config node owner now then
      { s with answers := ⟨key, node, owner.nodeId, s.session node⟩ :: s.answers }.setThread pid
        (idle (.querying stopAtMiss now key owners true todo))
    else s.setThread pid (idle (.querying stopAtMiss now key owners live todo))
  | [] => if stopAtMiss && !live then s.endThread pid else s.queryNext stopAtMiss now pid todo

/-- Which entry a scan goes to next. -/
inductive Choice (K N : Type) where
  | key (k : K)
  | node (n : N)
  | next

/-- The next step of a call whose atomic operations are done. -/
def advance (s : Store K N S) (pid : ℕ) (choice : Choice K N) : Proc K N S → Option (Store K N S)
  | .inserting _ _ _ [] => some (s.endThread pid)
  | .inserting node nodeId now (key :: todo) => s.insertHash pid node nodeId now key todo
  | .removing _ _ [] => some (s.endThread pid)
  | .removing node nodeId (key :: todo) => s.removeHash pid node nodeId key todo
  | .scanning keep visited =>
    match choice with
    | .key key => if key ∈ visited then none else s.visitKey pid keep visited key
    | _ => if s.blocks.keys.all (· ∈ visited) then some (s.endScan pid keep) else none
  | .checking keep visited key todo dropped => some (s.checkOwner pid keep visited key dropped todo)
  | .scanningNodes job visited =>
    match choice with
    | .node node => if node ∈ visited then none else some (s.visitNode config pid job visited node)
    | _ => if s.nodes.keys.all (· ∈ visited) then some (s.endNodes pid job) else none
  | .querying stopAtMiss now key owners live todo =>
    some (s.checkVisible config pid stopAtMiss now key live todo owners)

/-- One step of the call `pid`. -/
def stepThread (s : Store K N S) (pid : ℕ) (choice : Choice K N) : Option (Store K N S) :=
  match s.threads.lookup pid with
  | none => none
  | some t =>
    match t.atomics with
    | [] => s.advance config pid choice t.proc
    | op :: rest =>
      some ({ s with redundancy := op.apply s.redundancy }.setThread pid
        ⟨t.proc, if rest.isEmpty then none else t.held, rest⟩)

end Store

inductive Action (K N S : Type) where
  | heartbeat (node : N) (nodeId : S) (now : ℕ)
  | call (pid : ℕ) (c : Store.Call K N S)
  | step (pid : ℕ) (choice : Store.Choice K N)

/-- The store after one step of any call. -/
def step (config : StoreConfig) (s : Store K N S) : Action K N S → Option (Store K N S)
  | .heartbeat node nodeId now => some (s.heartbeatNode config node nodeId now)
  | .call pid c => if (s.threads.lookup pid).isSome then none else some (s.call pid c)
  | .step pid choice => s.stepThread config pid choice

/-! ### What a step does -/

/-- The call `pid` has no atomic operation to do. -/
def Settled (pid : ℕ) : Prop :=
  ∀ t, s.threads.lookup pid = some t → t.atomics = []

/-- Only node records, and what is noted of registrations, differ. -/
structure Store.Frame (s s₁ : Store K N S) : Prop where
  blocks : s₁.blocks = s.blocks
  redundancy : s₁.redundancy = s.redundancy
  threads : s₁.threads = s.threads
  drops : s₁.drops = s.drops
  answers : s₁.answers = s.answers

/-- The visit of a key is in progress. -/
def Proc.isChecking : Proc K N S → Bool
  | .checking .. => true
  | _ => false

/-- What a step does to the blocks, the counters and the calls in progress. -/
inductive Effect (config : StoreConfig) (s : Store K N S) : Action K N S → Store K N S → Prop
  | frame {a s₁} (h : s.Frame s₁) : Effect config s a s₁
  | next {a s₁ pid proc} (h : s.Frame s₁) (hpid : Settled s pid) (hproc : proc.isChecking = false) :
      Effect config s a (s₁.setThread pid (Store.idle proc))
  | finish {a s₁ pid} (h : s.Frame s₁) (hpid : Settled s pid) : Effect config s a (s₁.endThread pid)
  | write {a pid proc} (hpid : Settled s pid) (key owners) (hproc : proc.isChecking = false) :
      Effect config s a (s.writeOwners pid key owners proc)
  | visit {a pid} (hpid : Settled s pid) (keep visited key todo) :
      Effect config s a (s.setThread pid ⟨.checking keep visited key todo [], some key, []⟩)
  | check {choice pid t keep visited key todo dropped} (hpid : Settled s pid)
      (ht : s.threads.lookup pid = some t)
      (hproc : t.proc = .checking keep visited key todo dropped) :
      Effect config s (.step pid choice) (s.checkOwner pid keep visited key dropped todo)
  | answer {a pid node owner now proc} (key) (hpid : Settled s pid)
      (hvisible : s.isOwnerVisible config node owner now)
      (hproc : proc.isChecking = false) : Effect config s a
        ({ s with answers := ⟨key, node, owner.nodeId, s.session node⟩ :: s.answers }.setThread pid
          (Store.idle proc))
  | atomic {a pid t op rest} (ht : s.threads.lookup pid = some t) (hop : t.atomics = op :: rest)
      (held) : Effect config s a
        ({ s with redundancy := op.apply s.redundancy }.setThread pid ⟨t.proc, held, rest⟩)

section Effects

variable {config : StoreConfig} {s s' : Store K N S} {pid : ℕ} {a : Action K N S}

omit [DecidableEq S] in
theorem Store.Frame.refl (s : Store K N S) : s.Frame s := ⟨rfl, rfl, rfl, rfl, rfl⟩

theorem Store.frame_touch {node : N} {nodeId : S} {now : ℕ}
    (h : s.touchNodeSession node nodeId now = some s') : s.Frame s' := by
  unfold Store.touchNodeSession at h
  split at h
  · cases h
  split at h
  · cases h
  · cases h
    exact ⟨rfl, rfl, rfl, rfl, rfl⟩

theorem effect_queryNext (hpid : Settled s pid) (stopAtMiss : Bool) (now : ℕ) (todo : List K) :
    Effect config s a (s.queryNext stopAtMiss now pid todo) := by
  cases todo with
  | nil => exact .finish (.refl s) hpid
  | cons key todo =>
    simp only [Store.queryNext]
    split
    · exact .finish (.refl s) hpid
    · exact .next (.refl s) hpid rfl

theorem effect_call (hpid : Settled s pid) (c : Store.Call K N S) :
    Effect config s a (s.call pid c) := by
  cases c with
  | insertHashes node nodeId keys touchedAt now | removeHashes node nodeId keys touchedAt =>
    simp only [Store.call]
    split
    · exact .frame (.refl s)
    · next htouch => exact .next (Store.frame_touch htouch) hpid rfl
  | unregisterNode node nodeId =>
    simp only [Store.call]
    split
    · exact .frame (.refl s)
    split
    · exact .frame (.refl s)
    · exact .next ⟨rfl, rfl, rfl, rfl, rfl⟩ hpid rfl
  | sweepExpired now => exact .next ⟨rfl, rfl, rfl, rfl, rfl⟩ hpid rfl
  | removeOwnersOlderThan now maxAge => exact .next (.refl s) hpid rfl
  | invalidateAll => exact .next (.refl s) hpid rfl
  | queryPrefix keys now => exact effect_queryNext hpid true now keys
  | forEachVisibleOwner key now => exact effect_queryNext hpid false now [key]

theorem effect_advance {choice : Store.Choice K N} {t : Thread K N S}
    (ht : s.threads.lookup pid = some t) (hpid : Settled s pid)
    (hstep : s.advance config pid choice t.proc = some s') :
    Effect config s (.step pid choice) s' := by
  unfold Store.advance at hstep
  split at hstep
  · cases hstep
    exact .finish (.refl s) hpid
  · unfold Store.insertHash at hstep
    split at hstep
    · cases hstep
    split at hstep
    · cases hstep
      exact .finish (.refl s) hpid
    split at hstep
    · cases hstep
      exact .finish (.refl s) hpid
    · cases hstep
      exact .write hpid _ _ rfl
  · cases hstep
    exact .finish (.refl s) hpid
  · unfold Store.removeHash at hstep
    split at hstep
    · cases hstep
    split at hstep
    · cases hstep
      exact .next (.refl s) hpid rfl
    · cases hstep
      exact .write hpid _ _ rfl
  · next keep visited _ =>
    split at hstep
    · split at hstep
      · cases hstep
      unfold Store.visitKey at hstep
      split at hstep
      · cases hstep
      split at hstep
      · cases hstep
        exact .next (.refl s) hpid rfl
      · cases hstep
        exact .visit hpid _ _ _ _
    · split at hstep
      · cases hstep
        unfold Store.endScan
        split
        · exact .finish ⟨rfl, rfl, rfl, rfl, rfl⟩ hpid
        · exact .finish (.refl s) hpid
      · cases hstep
  · next hproc =>
    cases hstep
    exact .check hpid ht hproc
  · next job visited _ =>
    split at hstep
    · split at hstep
      · cases hstep
      cases hstep
      unfold Store.visitNode
      split
      · exact .next (.refl s) hpid rfl
      split
      · exact .next (.refl s) hpid rfl
      · exact .next ⟨rfl, rfl, rfl, rfl, rfl⟩ hpid rfl
    · split at hstep
      · cases hstep
        unfold Store.endNodes
        split
        · split
          · exact .finish (.refl s) hpid
          · exact .next (.refl s) hpid rfl
        · exact .next (.refl s) hpid rfl
      · cases hstep
  · cases hstep
    unfold Store.checkVisible
    split
    · split
      · next hvisible => exact .answer _ hpid hvisible rfl
      · exact .next (.refl s) hpid rfl
    · split
      · exact .finish (.refl s) hpid
      · exact effect_queryNext hpid _ _ _

/-- **What a step can do.** -/
theorem effect_of_step (hstep : step config s a = some s') : Effect config s a s' := by
  cases a with
  | heartbeat node nodeId now =>
    cases hstep
    unfold Store.heartbeatNode
    split
    · exact .frame ⟨rfl, rfl, rfl, rfl, rfl⟩
    split
    · exact .frame ⟨rfl, rfl, rfl, rfl, rfl⟩
    split
    · exact .frame ⟨rfl, rfl, rfl, rfl, rfl⟩
    · exact .frame (.refl s)
  | call pid c =>
    simp only [step] at hstep
    split at hstep
    · cases hstep
    · next hfree =>
      cases hstep
      refine effect_call ?_ c
      intro t ht
      rw [ht] at hfree
      exact absurd rfl hfree
  | step pid choice =>
    simp only [step, Store.stepThread] at hstep
    split at hstep
    · cases hstep
    · next t ht =>
      split at hstep
      · next hsettled =>
        refine effect_advance ht ?_ hstep
        intro t' ht'
        rw [ht] at ht'
        cases ht'
        exact hsettled
      · next op rest hop =>
        cases hstep
        exact .atomic ht hop _

end Effects

end PegaFlow.MetaStore
