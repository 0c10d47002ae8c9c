/-
PegaFlow/MetaStoreHints.lean

The reclaim hints that `insert_hashes` returns.

A call writes one owner record after the other and asks after each write whether the block has
enough owners by now.  A hash that is repeated in the call is owned by its session from the first
write on, so only that write can give a hint; and up to this write the call has not touched the
block.  So the hints are those of the state at the start, once each (`insertEach_eq`).
-/
import PegaFlow.Loops
import PegaFlow.MetaStore
import PegaFlow.Run

namespace PegaFlow.MetaStore

open List

variable {NS H N S : Type} [DecidableEq NS] [DecidableEq H] [DecidableEq N] [DecidableEq S]

/-! ### The call -/

inductive StoreError where
  | unknownNode
  | staleSession

structure HintConfig extends StoreConfig where
  minReclaimableOwnerCount : ℕ

namespace Store

variable (s : Store (NS × H) N S)

def ownersOf (key : NS × H) : Owners N S := (s.blocks.lookup key).getD ∅

/-- Write the record of one owner and adjust the counters, before any other call takes a step. -/
def writeOwner (node : N) (owner : OwnerRecord S) (key : NS × H) : Store (NS × H) N S :=
  let owners := (s.ownersOf key).insert node owner
  { s.setOwners key owners with
    redundancy := (adjust (s.ownerCount key) owners.entries.length).foldl AtomicOp.apply
      s.redundancy }

/-- The owners whose record is of the current session of their node, if that has not expired. -/
def visibleOwners (config : StoreConfig) (s : Store (NS × H) N S) (now : ℕ)
    (owners : Owners N S) : List N :=
  (owners.entries.filter fun e => s.isOwnerVisible config e.1 e.2 now).map Sigma.fst

/-- The test for a hint, on the owners after the write. -/
def hasEnoughOwners (config : HintConfig) (s : Store (NS × H) N S) (now : ℕ)
    (owners : Owners N S) : Bool :=
  config.minReclaimableOwnerCount ≤ owners.entries.length &&
    ((s.visibleOwners config.toStoreConfig now owners).take
      config.minReclaimableOwnerCount).length = config.minReclaimableOwnerCount

/-- `previous` is not a record of this session. -/
def isNewOwner (nodeId : S) (previous : Option (OwnerRecord S)) : Bool :=
  previous.all fun owner => owner.nodeId ≠ nodeId

/-- The loop of `insert_hashes`. -/
def insertEach (config : HintConfig) (namespc : NS) (node : N) (nodeId : S) (now : ℕ) :
    List H → Store (NS × H) N S → Except StoreError (List H × Store (NS × H) N S)
  | [], s => .ok ([], s)
  | hash :: hashes, s =>
    match s.nodes.lookup node with
    | none => .error .unknownNode
    | some record =>
      if record.nodeId ≠ nodeId then .error .staleSession
      else
        let previous := s.owner (namespc, hash) node
        let s := s.writeOwner node ⟨nodeId, now, record.registration⟩ (namespc, hash)
        (insertEach config namespc node nodeId now hashes s).map fun r =>
          (if isNewOwner nodeId previous &&
              s.hasEnoughOwners config now (s.ownersOf (namespc, hash)) then hash :: r.1
            else r.1, r.2)

def insertHashes (config : HintConfig) (s : Store (NS × H) N S) (namespc : NS) (hashes : List H)
    (node : N) (nodeId : S) (touchedAt now : ℕ) :
    Except StoreError (List H × Store (NS × H) N S) :=
  match s.touchNodeSession node nodeId touchedAt with
  | none => .error (if (s.session node).isSome then .staleSession else .unknownNode)
  | some s => s.insertEach config namespc node nodeId now hashes

/-! ### What it returns -/

/-- This session does not own the block. -/
def notOwned (namespc : NS) (node : N) (nodeId : S) (hash : H) : Bool :=
  isNewOwner nodeId (s.owner (namespc, hash) node)

/-- The owners that count for a hint on `hash`, after the write of `owner`. -/
def countedOwners (config : StoreConfig) (s : Store (NS × H) N S) (namespc : NS) (node : N)
    (owner : OwnerRecord S) (now : ℕ) (hash : H) : List N :=
  s.visibleOwners config now ((s.ownersOf (namespc, hash)).insert node owner)

section Hints

variable {s : Store (NS × H) N S} {config : HintConfig} {namespc : NS} {node : N} {nodeId : S}
  {now : ℕ} {owner : OwnerRecord S} {hash hash' : H}

omit [DecidableEq S] in
theorem lookup_writeOwner (key key' : NS × H) :
    (s.writeOwner node owner key).blocks.lookup key' =
      if key' = key then some ((s.ownersOf key).insert node owner) else s.blocks.lookup key' :=
  lookup_insert_apply key'

theorem hasEnoughOwners_eq (owners : Owners N S) :
    s.hasEnoughOwners config now owners =
      decide (config.minReclaimableOwnerCount ≤
        (s.visibleOwners config.toStoreConfig now owners).length) := by
  have hle : (s.visibleOwners config.toStoreConfig now owners).length ≤ owners.entries.length := by
    rw [visibleOwners, length_map]
    exact length_filter_le _ _
  rw [hasEnoughOwners, length_take, ← Bool.decide_and, decide_eq_decide]
  omega

/-- After the write the session owns this block, and what it owns otherwise is as before. -/
theorem notOwned_writeOwner (howner : owner.nodeId = nodeId) :
    (s.writeOwner node owner (namespc, hash)).notOwned namespc node nodeId hash' =
      (hash' != hash && s.notOwned namespc node nodeId hash') := by
  unfold notOwned Store.owner
  rw [lookup_writeOwner]
  by_cases heq : hash' = hash
  · subst heq
    rw [if_pos rfl, Option.bind_some, AList.lookup_insert, bne_self_eq_false]
    exact decide_eq_false (not_not.mpr howner)
  · rw [if_neg fun h => heq (Prod.ext_iff.mp h).2, bne_iff_ne.mpr heq, Bool.true_and]

theorem countedOwners_writeOwner (hne : hash' ≠ hash) :
    (s.writeOwner node owner (namespc, hash)).countedOwners config.toStoreConfig namespc node owner
      now hash' = s.countedOwners config.toStoreConfig namespc node owner now hash' := by
  unfold countedOwners ownersOf
  rw [lookup_writeOwner, if_neg fun heq => hne (Prod.ext_iff.mp heq).2]
  rfl

/-- The hints for a list of hashes, in one of the states of the call. -/
def hints (config : HintConfig) (s : Store (NS × H) N S) (namespc : NS) (node : N) (nodeId : S)
    (owner : OwnerRecord S) (now : ℕ) (hashes : List H) : List H :=
  (hashes.filter (s.notOwned namespc node nodeId)).eraseDups.filter fun hash =>
    config.minReclaimableOwnerCount ≤
      (s.countedOwners config.toStoreConfig namespc node owner now hash).length

/-- A hash that was written gives no further hint, and the others are as before. -/
theorem hints_writeOwner (howner : owner.nodeId = nodeId) (hashes : List H) :
    (s.writeOwner node owner (namespc, hash)).hints config namespc node nodeId owner now hashes =
      ((hashes.filter (s.notOwned namespc node nodeId)).filter (· != hash)).eraseDups.filter
        fun hash' => config.minReclaimableOwnerCount ≤
          (s.countedOwners config.toStoreConfig namespc node owner now hash').length := by
  have hnew : (s.writeOwner node owner (namespc, hash)).notOwned namespc node nodeId =
      fun hash' => hash' != hash && s.notOwned namespc node nodeId hash' :=
    funext fun _ => notOwned_writeOwner howner
  unfold hints
  rw [hnew, filter_filter]
  refine filter_congr fun hash' hmem => ?_
  have hother := (mem_filter.mp (mem_eraseDups.mp hmem)).2
  rw [countedOwners_writeOwner (bne_iff_ne.mp (Bool.and_eq_true_iff.mp hother).1)]

/-- **The loop.**  It does not fail while the session is the current one of its node, and the hints
are for the hashes that the session did not own before, once each. -/
theorem insertEach_eq (config : HintConfig) (namespc : NS) (now : ℕ) {record : NodeRecord S}
    (hnode : s.nodes.lookup node = some record) (hlive : record.nodeId = nodeId) (hashes : List H) :
    ∃ s', s.insertEach config namespc node nodeId now hashes = .ok
      (s.hints config namespc node nodeId ⟨nodeId, now, record.registration⟩ now hashes, s') := by
  induction hashes generalizing s with
  | nil => exact ⟨s, rfl⟩
  | cons hash hashes ih =>
    obtain ⟨s', hs'⟩ :=
      ih (s := s.writeOwner node ⟨nodeId, now, record.registration⟩ (namespc, hash)) hnode
    refine ⟨s', ?_⟩
    rw [insertEach, hnode]
    dsimp only
    rw [if_neg (not_not.mpr hlive), hs', hints_writeOwner rfl, hasEnoughOwners_eq]
    have howners : (s.writeOwner node ⟨nodeId, now, record.registration⟩ (namespc, hash)).ownersOf
        (namespc, hash) =
          (s.ownersOf (namespc, hash)).insert node ⟨nodeId, now, record.registration⟩ := by
      rw [ownersOf, lookup_writeOwner, if_pos rfl, Option.getD_some]
    rw [howners]
    unfold hints
    cases hnew : s.notOwned namespc node nodeId hash with
    | true =>
      rw [filter_cons_of_pos hnew, eraseDups_cons, filter_cons]
      rw [notOwned] at hnew
      rw [hnew]
      rfl
    | false =>
      have hapart : (hashes.filter (s.notOwned namespc node nodeId)).filter (· != hash) =
          hashes.filter (s.notOwned namespc node nodeId) := by
        refine filter_eq_self.mpr fun hash' hmem => bne_iff_ne.mpr ?_
        rintro rfl
        rw [(mem_filter.mp hmem).2] at hnew
        cases hnew
      rw [filter_cons_of_neg (by rw [hnew]; exact Bool.false_ne_true), hapart]
      rw [notOwned] at hnew
      rw [hnew]
      rfl

/-! ### The steps of the call -/

section Steps

variable {storeConfig : StoreConfig} {pid : ℕ} {proc : Proc (NS × H) N S} {key : NS × H}

/-- The counters are adjusted, and the entry is released. -/
theorem exec_atomics (ops : List AtomicOp) :
    exec (step storeConfig)
        (s.setThread pid (if ops.isEmpty then idle proc else ⟨proc, some key, ops⟩))
        (replicate ops.length (.step pid .next)) =
      some ({ s with redundancy := ops.foldl AtomicOp.apply s.redundancy }.setThread pid
        (idle proc)) := by
  induction ops generalizing s with
  | nil => rfl
  | cons op ops ih =>
    have hstep : step storeConfig (s.setThread pid ⟨proc, some key, op :: ops⟩) (.step pid .next) =
        some ({ s with redundancy := op.apply s.redundancy }.setThread pid
          (if ops.isEmpty then idle proc else ⟨proc, some key, ops⟩)) := by
      simp only [step, stepThread, setThread, AList.lookup_insert, AList.insert_insert]
      cases ops <;> rfl
    rw [length_cons, replicate_succ, isEmpty_cons, if_neg Bool.false_ne_true, exec, hstep]
    exact ih

/-- One write with the atomic operations after it, while no other call holds an entry. -/
theorem exec_insertHash (storeConfig : StoreConfig) (pid now : ℕ) {record : NodeRecord S}
    (hnode : s.nodes.lookup node = some record) (hlive : record.nodeId = nodeId)
    (hfree : ∀ t ∈ s.threads.entries, t.2.held = none) (key : NS × H) (todo : List (NS × H)) :
    ∃ n, exec (step storeConfig)
        (s.setThread pid (idle (.inserting node nodeId now (key :: todo))))
        (replicate n (.step pid .next)) =
      some ((s.writeOwner node ⟨nodeId, now, record.registration⟩ key).setThread pid
        (idle (.inserting node nodeId now todo))) := by
  generalize howners : (s.ownersOf key).insert node ⟨nodeId, now, record.registration⟩ = owners
  have hunlocked : (s.setThread pid (idle (.inserting node nodeId now (key :: todo)))).locked key =
      false := by
    rw [locked, any_eq_false]
    intro t ht
    rcases mem_cons.mp ht with rfl | ht
    · simp [idle]
    · simp [hfree t ((kerase_sublist _ _).subset ht)]
  have hstep : step storeConfig
      (s.setThread pid (idle (.inserting node nodeId now (key :: todo)))) (.step pid .next) =
      some (s.writeOwners pid key owners (.inserting node nodeId now todo)) := by
    rw [step, stepThread, setThread, AList.lookup_insert]
    refine (if_neg (by rw [← setThread, hunlocked]; exact Bool.false_ne_true)).trans ?_
    dsimp only
    rw [hnode, ← howners]
    dsimp only
    rw [if_neg (not_not.mpr hlive)]
    simp only [writeOwners, setOwners, setThread, AList.insert_insert]
    rfl
  refine ⟨(adjust (s.ownerCount key) owners.entries.length).length + 1, ?_⟩
  rw [replicate_succ, exec, hstep, writeOwner, howners]
  exact exec_atomics _

/-- **The call alone** does in its steps what the loop does. -/
theorem exec_insertEach {config : HintConfig} {hashes : List H}
    {result : List H × Store (NS × H) N S}
    (h : s.insertEach config namespc node nodeId now hashes = .ok result)
    (hfree : ∀ t ∈ s.threads.entries, t.2.held = none) :
    ∃ n, exec (step config.toStoreConfig)
        (s.setThread pid (idle (.inserting node nodeId now (hashes.map (namespc, ·)))))
        (replicate n (.step pid .next)) =
      some (result.2.setThread pid (idle (.inserting node nodeId now []))) := by
  induction hashes generalizing s result with
  | nil =>
    cases h
    exact ⟨0, rfl⟩
  | cons hash hashes ih =>
    rw [insertEach] at h
    split at h
    · cases h
    next record hnode =>
    split at h
    · cases h
    next hlive =>
    obtain ⟨rest, hrest, rfl⟩ := map_ok h
    obtain ⟨n, hfirst⟩ := exec_insertHash config.toStoreConfig pid now hnode (not_not.mp hlive)
      hfree (namespc, hash) (hashes.map (namespc, ·))
    obtain ⟨m, hrun⟩ := ih hrest hfree
    refine ⟨n + m, ?_⟩
    rw [← replicate_append_replicate]
    exact exec_append hfirst hrun

end Steps

/-- **Reclaim hints.**  A call of the node's current session does not fail.  It returns, once each
and in the order of the call, the hashes that the session did not own before and that have enough
visible owners once it has written its own record. -/
theorem insert_hashes_hints (config : HintConfig) (s : Store (NS × H) N S) (namespc : NS)
    (hashes : List H) (node : N) (nodeId : S) (touchedAt now : ℕ)
    (hlive : s.session node = some nodeId) :
    ∃ touched record s', s.touchNodeSession node nodeId touchedAt = some touched ∧
      touched.nodes.lookup node = some record ∧
      s.insertHashes config namespc hashes node nodeId touchedAt now =
        .ok ((hashes.filter (s.notOwned namespc node nodeId)).eraseDups.filter fun hash =>
          config.minReclaimableOwnerCount ≤
            (touched.visibleOwners config.toStoreConfig now
              ((s.ownersOf (namespc, hash)).insert node
                ⟨nodeId, now, record.registration⟩)).length, s') := by
  obtain ⟨record, hrecord, rfl⟩ := Option.map_eq_some_iff.mp hlive
  have htouch : s.touchNodeSession node record.nodeId touchedAt =
      some { s with nodes := s.nodes.insert node { record with lastSeen := touchedAt } } := by
    rw [touchNodeSession, hrecord]
    exact if_neg (not_not.mpr rfl)
  obtain ⟨s', hs'⟩ := insertEach_eq config namespc now
    (s := { s with nodes := s.nodes.insert node { record with lastSeen := touchedAt } })
    (AList.lookup_insert s.nodes) rfl hashes
  refine ⟨_, _, s', htouch, AList.lookup_insert s.nodes, ?_⟩
  rw [insertHashes, htouch]
  exact hs'

/-- Hash `7` has another owner, of a session that is over; hash `5` is repeated. -/
theorem insert_hashes_hints_once :
    ∃ s', (((Store.init : Store (ℕ × ℕ) ℕ ℕ).register 1 10 0).writeOwner 2 ⟨20, 0, 0⟩
      (0, 7)).insertHashes ⟨⟨10, 100⟩, 1⟩ 0 [5, 7, 5] 1 10 3 4 = .ok ([5, 7], s') := by
  obtain ⟨touched, record, s', htouched, hrecord, h⟩ := insert_hashes_hints ⟨⟨10, 100⟩, 1⟩
    (((Store.init : Store (ℕ × ℕ) ℕ ℕ).register 1 10 0).writeOwner 2 ⟨20, 0, 0⟩ (0, 7)) 0
    [5, 7, 5] 1 10 3 4 (by decide)
  cases htouched
  cases hrecord
  exact ⟨s', h⟩

end Hints

end Store

end PegaFlow.MetaStore
