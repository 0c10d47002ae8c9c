/-
PegaFlow/MetaStoreSessions.lean

Sessions and owner records of the MetaServer's store.

What decides whether an owner record is left over is a small part of the state: the records, the
current session of each node, the reconcile flag, and how far each scan has come.  `View` is that
part, and `Moves` says what a step can do to it; the steps of the store are moves of its view
(`moves_of_step`).  Invariants about sessions are then about moves only.
-/
import PegaFlow.MetaStore
import PegaFlow.Run

namespace PegaFlow.MetaStore

open List Function Option Store

variable {K N S : Type} [DecidableEq K] [DecidableEq N]

/-! ### The abstract store -/

/-- How far a cleaning call has come. -/
inductive Role (K N S : Type) where
  /-- It still removes node records. -/
  | nodes (job : NodesJob)
  /-- It scans the owners; `holds` is a key with the owners that are not settled. -/
  | scan (keep : Keep N S) (visited : List K) (holds : Option (K × List N))

/-- The part of the store that decides about owner records. -/
structure View (K N S : Type) where
  owner : K → N → Option (OwnerRecord S)
  /-- The current session of a node and its registration. -/
  current : N → Option (S × ℕ)
  reconcileNeeded : Bool
  role : ℕ → Option (Role K N S)
  registrations : ℕ
  lastRegistered : N → S → ℕ
  fenced : List (N × S × ℕ)

/-- The session that is fenced when a scan is over. -/
def Keep.fences : Keep N S → List (N × S × ℕ)
  | .unregister node nodeId registration => [(node, nodeId, registration)]
  | _ => []

namespace View

variable (v : View K N S)

def session (node : N) : Option S := (v.current node).map Prod.fst

def setRole (pid : ℕ) (role : Option (Role K N S)) : View K N S :=
  { v with role := update v.role pid role }

def endSession (node : N) : View K N S :=
  { v with current := update v.current node none }

def register [DecidableEq S] (v : View K N S) (node : N) (nodeId : S) : View K N S :=
  { v with
    current := update v.current node (some (nodeId, v.registrations + 1))
    reconcileNeeded := v.reconcileNeeded || (v.current node).isSome
    registrations := v.registrations + 1
    lastRegistered := fun n i =>
      if n = node ∧ i = nodeId then v.registrations + 1 else v.lastRegistered n i }

/-- The test of a scan, on the view. -/
def Keeps (keep : Keep N S) (node : N) (owner : OwnerRecord S) : Prop :=
  match keep with
  | .unregister n _ _ => node = n → v.session n = some owner.nodeId
  | .current => v.session node = some owner.nodeId
  | .younger _ _ => True
  | .nothing => False

def fence (keep : Keep N S) : View K N S :=
  { v with fenced := keep.fences ++ v.fenced }

omit [DecidableEq K] in
theorem session_endSession (m n : N) :
    (v.endSession m).session n = if n = m then none else v.session n := by
  show (update v.current m none n).map Prod.fst = _
  rw [update_apply]
  split
  · rfl
  · rfl

omit [DecidableEq K] in
theorem session_register [DecidableEq S] (v : View K N S) (m n : N) (nodeId : S) :
    (v.register m nodeId).session n = if n = m then some nodeId else v.session n := by
  show (update v.current m _ n).map Prod.fst = _
  rw [update_apply]
  split
  · rfl
  · rfl

end View

/-- Owner records only leave. -/
def Sheds (owner owner' : K → N → Option (OwnerRecord S)) : Prop :=
  ∀ key node, owner' key node = none ∨ owner' key node = owner key node

/-- The scan has still to look at the record of `node` for `key`. -/
def Ahead (visited : List K) (holds : Option (K × List N)) (key : K) (node : N) : Prop :=
  key ∉ visited ∧ ∀ nodes, holds = some (key, nodes) → node ∈ nodes

/-- **What a step can do.** -/
inductive Moves [DecidableEq S] (v : View K N S) : View K N S → Prop where
  | stay : Moves v v
  | register (node : N) (nodeId : S) : Moves v (v.register node nodeId)
  | unregister (pid : ℕ) (node : N) (nodeId : S) (registration : ℕ)
      (hcurrent : v.current node = some (nodeId, registration)) (hrole : v.role pid = none) :
      Moves v ((v.endSession node).setRole pid
        (some (.scan (.unregister node nodeId registration) [] none)))
  | sweep (pid : ℕ) (now : ℕ) (hrole : v.role pid = none) :
      Moves v ({ v with reconcileNeeded := false }.setRole pid
        (some (.nodes (.expired now v.reconcileNeeded 0))))
  | invalidate (pid : ℕ) (hrole : v.role pid = none) : Moves v (v.setRole pid (some (.nodes .all)))
  | cleanup (pid : ℕ) (now maxAge : ℕ) (hrole : v.role pid = none) :
      Moves v (v.setRole pid (some (.scan (.younger now maxAge) [] none)))
  /-- `insert_hashes` writes a record of the current session. -/
  | write (key : K) (node : N) (owner : OwnerRecord S)
      (hcurrent : v.session node = some owner.nodeId) :
      Moves v { v with owner := fun k n =>
        if k = key ∧ n = node then some owner else v.owner k n }
  | shed (owner : K → N → Option (OwnerRecord S)) (howner : Sheds v.owner owner) :
      Moves v { v with owner := owner }
  | dropNode (pid : ℕ) (node : N) (job : NodesJob) (hrole : v.role pid = some (.nodes job)) :
      Moves v ((v.endSession node).setRole pid (some (.nodes (Store.NodesJob.removed job))))
  | endNodes (pid : ℕ) (now : ℕ) (hrole : v.role pid = some (.nodes (.expired now false 0))) :
      Moves v (v.setRole pid none)
  | startScan (pid : ℕ) (job : NodesJob) (keep : Keep N S)
      (hrole : v.role pid = some (.nodes job)) (hkeep : keep = .current ∨ keep = .nothing) :
      Moves v (v.setRole pid (some (.scan keep [] none)))
  /-- A scan goes on, and stays ahead of the records that fail its test. -/
  | scan (pid : ℕ) (keep : Keep N S) (visited visited' : List K)
      (holds holds' : Option (K × List N)) (owner : K → N → Option (OwnerRecord S))
      (hrole : v.role pid = some (.scan keep visited holds)) (howner : Sheds v.owner owner)
      (hahead : ∀ key node o, owner key node = some o → ¬ v.Keeps keep node o →
        Ahead visited holds key node → Ahead visited' holds' key node) :
      Moves v ({ v with owner := owner }.setRole pid (some (.scan keep visited' holds')))
  | endScan (pid : ℕ) (keep : Keep N S) (visited : List K)
      (hrole : v.role pid = some (.scan keep visited none))
      (hall : ∀ key node owner, v.owner key node = some owner → key ∈ visited) :
      Moves v ((v.fence keep).setRole pid none)

/-! ### The view of the store -/

def Proc.role : Proc K N S → Option (Role K N S)
  | .scanningNodes job _ => some (.nodes job)
  | .scanning keep visited => some (.scan keep visited none)
  | .checking keep visited key todo dropped =>
    some (.scan keep visited (some (key, todo ++ dropped.map Dropped.node)))
  | _ => none

namespace Store

def role (s : Store K N S) (pid : ℕ) : Option (Role K N S) :=
  (s.threads.lookup pid).bind fun t => t.proc.role

def current (s : Store K N S) (node : N) : Option (S × ℕ) :=
  (s.nodes.lookup node).map fun record => (record.nodeId, record.registration)

def view (s : Store K N S) : View K N S where
  owner := s.owner
  current := s.current
  reconcileNeeded := s.reconcileNeeded
  role := s.role
  registrations := s.registrations
  lastRegistered := s.lastRegistered
  fenced := s.fenced

end Store

variable {node : N} {v : View K N S}

section Projections

variable {s : Store K N S} {pid : ℕ}

theorem session_view (s : Store K N S) (node : N) : s.view.session node = s.session node := by
  show ((s.nodes.lookup node).map _).map Prod.fst = (s.nodes.lookup node).map _
  rw [Option.map_map]
  rfl

theorem role_setThread (s : Store K N S) (pid : ℕ) (t : Thread K N S) :
    (s.setThread pid t).role = update s.role pid t.proc.role := by
  funext pid'
  show ((s.threads.insert pid t).lookup pid').bind _ = _
  rw [update_apply, lookup_insert_apply]
  split
  · rfl
  · rfl

theorem role_endThread (s : Store K N S) (pid : ℕ) :
    (s.endThread pid).role = update s.role pid none := by
  funext pid'
  show ((s.threads.erase pid).lookup pid').bind _ = _
  rw [update_apply, lookup_erase_apply]
  split
  · rfl
  · rfl

theorem view_setThread (s : Store K N S) (pid : ℕ) (t : Thread K N S) :
    (s.setThread pid t).view = s.view.setRole pid t.proc.role := by
  unfold view View.setRole
  rw [role_setThread]
  rfl

theorem view_endThread (s : Store K N S) (pid : ℕ) :
    (s.endThread pid).view = s.view.setRole pid none := by
  unfold view View.setRole
  rw [role_endThread]
  rfl

omit [DecidableEq K] [DecidableEq N] in
theorem View.setRole_self {role : Option (Role K N S)} (h : v.role pid = role) :
    v.setRole pid role = v := by
  unfold View.setRole
  rw [← h, update_eq_self]

theorem view_setThread_of_none (h : s.role pid = none) {t : Thread K N S}
    (ht : t.proc.role = none) : (s.setThread pid t).view = s.view := by
  rw [view_setThread, ht]
  exact View.setRole_self h

theorem view_endThread_of_none (h : s.role pid = none) : (s.endThread pid).view = s.view := by
  rw [view_endThread]
  exact View.setRole_self h

theorem current_insert (s : Store K N S) (node : N) (record : NodeRecord S) :
    { s with nodes := s.nodes.insert node record }.current =
      update s.current node (some (record.nodeId, record.registration)) := by
  funext n
  show ((s.nodes.insert node record).lookup n).map _ = _
  rw [update_apply, lookup_insert_apply]
  split
  · rfl
  · rfl

theorem current_erase (s : Store K N S) (node : N) :
    { s with nodes := s.nodes.erase node }.current = update s.current node none := by
  funext n
  show ((s.nodes.erase node).lookup n).map _ = _
  rw [update_apply, lookup_erase_apply]
  split
  · rfl
  · rfl

theorem view_eraseNode (s : Store K N S) (node : N) :
    { s with nodes := s.nodes.erase node }.view = s.view.endSession node := by
  unfold View.endSession
  rw [show s.view.current = s.current from rfl, ← current_erase]
  rfl

theorem view_refresh {record : NodeRecord S} (h : s.nodes.lookup node = some record) (now : ℕ) :
    { s with nodes := s.nodes.insert node { record with lastSeen := now } }.view = s.view := by
  have hcurrent : s.current node = some (record.nodeId, record.registration) := by
    unfold current
    rw [h]
    rfl
  have hsame : { s with nodes := s.nodes.insert node { record with lastSeen := now } }.current =
      s.current := by
    rw [current_insert, ← hcurrent, update_eq_self]
  unfold view
  rw [hsame]
  rfl

theorem owner_setOwners (s : Store K N S) (key : K) (owners : Owners N S) (k : K) (n : N) :
    (s.setOwners key owners).owner k n = if k = key then owners.lookup n else s.owner k n := by
  unfold owner setOwners
  split
  · next hempty =>
    have hnone : owners.lookup n = none := by
      rw [AList.lookup_eq_none, AList.mem_keys, AList.keys, isEmpty_iff.mp hempty]
      exact not_mem_nil
    rw [lookup_erase_apply, hnone]
    split
    · rfl
    · rfl
  · rw [lookup_insert_apply]
    split
    · rfl
    · rfl

omit [DecidableEq K] [DecidableEq N] in
theorem proc_adjusting (proc : Proc K N S) (key : K) (before after : ℕ) :
    (adjusting proc key before after).proc = proc := by
  unfold adjusting
  split
  · rfl
  · rfl

theorem view_writeOwners (s : Store K N S) (pid : ℕ) (key : K) (owners : Owners N S)
    (next : Proc K N S) : (s.writeOwners pid key owners next).view =
      View.setRole { s.view with owner := fun k n =>
        if k = key then owners.lookup n else s.owner k n } pid next.role := by
  have howner : (s.setOwners key owners).owner =
      fun k n => if k = key then owners.lookup n else s.owner k n := by
    funext k n
    exact owner_setOwners s key owners k n
  unfold writeOwners
  rw [view_setThread, proc_adjusting]
  rw [← howner]
  rfl

theorem lookup_dropAll (owners : Owners N S) (dropped : List (Dropped N S)) (n : N) :
    (dropAll owners dropped).lookup n =
      if n ∈ dropped.map Dropped.node then none else owners.lookup n := by
  unfold dropAll
  induction dropped generalizing owners with
  | nil => rfl
  | cons d dropped ih =>
    rw [foldl_cons, ih, map_cons]
    rcases eq_or_ne n d.node with rfl | hne
    · rw [AList.lookup_erase, ite_self, if_pos mem_cons_self]
    · simp only [AList.lookup_erase_ne hne, mem_cons, hne, false_or]

theorem view_noteDrops (s : Store K N S) (keep : Keep N S) (dropped : List (Dropped N S)) :
    (s.noteDrops keep dropped).view = s.view := by
  unfold noteDrops
  split
  · rfl
  · rfl

theorem view_queryNext (h : s.role pid = none) (stopAtMiss : Bool) (now : ℕ) (todo : List K) :
    (s.queryNext stopAtMiss now pid todo).view = s.view := by
  cases todo with
  | nil => exact view_endThread_of_none h
  | cons key todo =>
    simp only [queryNext]
    split
    · exact view_endThread_of_none h
    · exact view_setThread_of_none h rfl

end Projections

/-! ### Steps are moves -/

section Steps

variable [DecidableEq S] {config : StoreConfig} {s s' : Store K N S} {pid : ℕ}

theorem Moves.of_view_eq (h : s'.view = s.view) : Moves s.view s'.view := by
  rw [h]
  exact Moves.stay

theorem moves_heartbeat (node : N) (nodeId : S) (now : ℕ) :
    Moves s.view (s.heartbeatNode config node nodeId now).view := by
  have hcurrent : s.view.current node =
      (s.nodes.lookup node).map fun record => (record.nodeId, record.registration) := rfl
  unfold heartbeatNode
  split
  · next hnone =>
    have hview : (s.register node nodeId now).view = s.view.register node nodeId := by
      unfold View.register
      rw [hcurrent, hnone, map_none, isSome_none, Bool.or_false]
      rw [show s.view.current = s.current from rfl, ← current_insert s node ⟨nodeId, now, _⟩]
      rfl
    rw [hview]
    exact Moves.register node nodeId
  · next record hsome =>
    split
    · exact Moves.of_view_eq (view_refresh hsome now)
    split
    · have hview : (register { s with reconcileNeeded := true } node nodeId now).view =
          s.view.register node nodeId := by
        unfold View.register
        rw [hcurrent, hsome, map_some, isSome_some, Bool.or_true]
        rw [show s.view.current = s.current from rfl, ← current_insert s node ⟨nodeId, now, _⟩]
        rfl
      rw [hview]
      exact Moves.register node nodeId
    · exact Moves.stay

variable {nodeId : S} {now : ℕ}

theorem touch_view (h : s.touchNodeSession node nodeId now = some s') : s'.view = s.view := by
  unfold touchNodeSession at h
  split at h
  · cases h
  · next record hsome =>
    split at h
    · cases h
    · cases h
      exact view_refresh hsome now

theorem moves_call (hrole : s.role pid = none) (c : Store.Call K N S) :
    Moves s.view (s.call pid c).view := by
  cases c with
  | insertHashes node nodeId keys touchedAt now | removeHashes node nodeId keys touchedAt =>
    simp only [call]
    split
    · exact Moves.stay
    · next s₁ htouch =>
      have hview := touch_view htouch
      refine Moves.of_view_eq (Eq.trans ?_ hview)
      exact view_setThread_of_none ((congrFun (congrArg View.role hview) pid).trans hrole) rfl
  | unregisterNode node nodeId =>
    simp only [call]
    split
    · exact Moves.stay
    · next record hsome =>
      split
      · exact Moves.stay
      · next hsession =>
        have hcurrent : s.view.current node = some (nodeId, record.registration) := by
          show (s.nodes.lookup node).map _ = _
          rw [hsome, ← not_not.mp hsession]
          rfl
        rw [view_setThread, view_eraseNode]
        exact Moves.unregister pid node nodeId record.registration hcurrent hrole
  | sweepExpired now =>
    show Moves s.view (setThread { s with reconcileNeeded := false } pid _).view
    rw [view_setThread]
    exact Moves.sweep pid now hrole
  | removeOwnersOlderThan now maxAge =>
    show Moves s.view (s.setThread pid _).view
    rw [view_setThread]
    exact Moves.cleanup pid now maxAge hrole
  | invalidateAll =>
    show Moves s.view (s.setThread pid _).view
    rw [view_setThread]
    exact Moves.invalidate pid hrole
  | queryPrefix keys now => exact Moves.of_view_eq (view_queryNext hrole true now keys)
  | forEachVisibleOwner key now => exact Moves.of_view_eq (view_queryNext hrole false now [key])

variable {key : K} {todo : List K}

theorem moves_insertHash (hrole : s.role pid = none)
    (hstep : s.insertHash pid node nodeId now key todo = some s') : Moves s.view s'.view := by
  unfold insertHash at hstep
  split at hstep
  · cases hstep
  split at hstep
  · cases hstep
    exact Moves.of_view_eq (view_endThread_of_none hrole)
  · next record hsome =>
    split at hstep
    · cases hstep
      exact Moves.of_view_eq (view_endThread_of_none hrole)
    · next hsession =>
      cases hstep
      have hcurrent : s.view.session node = some nodeId := by
        rw [session_view, session, hsome, ← not_not.mp hsession]
        rfl
      have howner : (fun k n => if k = key then
          (((s.blocks.lookup key).getD ∅).insert node ⟨nodeId, now, record.registration⟩).lookup n
            else s.owner k n) = fun k n => if k = key ∧ n = node then
              some ⟨nodeId, now, record.registration⟩ else s.owner k n := by
        funext k n
        rcases eq_or_ne k key with rfl | hk
        · rcases eq_or_ne n node with rfl | hn
          · rw [if_pos rfl, if_pos ⟨rfl, rfl⟩, AList.lookup_insert]
          · rw [if_pos rfl, if_neg (fun h => hn h.2), AList.lookup_insert_ne hn, owner]
            cases s.blocks.lookup k with
            | none => rfl
            | some owners => rfl
        · rw [if_neg hk, if_neg (fun h => hk h.1)]
      rw [view_writeOwners, howner, View.setRole_self hrole]
      exact Moves.write key node ⟨nodeId, now, record.registration⟩ hcurrent

theorem moves_removeHash (hrole : s.role pid = none)
    (hstep : s.removeHash pid node nodeId key todo = some s') : Moves s.view s'.view := by
  unfold removeHash at hstep
  split at hstep
  · cases hstep
  split at hstep
  · cases hstep
    exact Moves.of_view_eq (view_setThread_of_none hrole rfl)
  · next owners hsome =>
    cases hstep
    rw [view_writeOwners, View.setRole_self hrole]
    refine Moves.shed _ ?_
    intro k n
    show (if k = key then _ else _) = none ∨ (if k = key then _ else _) = s.owner k n
    rcases eq_or_ne k key with rfl | hk
    · rw [if_pos rfl, owner, hsome]
      split
      · rcases eq_or_ne n node with rfl | hn
        · exact Or.inl (AList.lookup_erase _ _)
        · exact Or.inr (AList.lookup_erase_ne hn)
      · exact Or.inr rfl
    · rw [if_neg hk]
      exact Or.inr rfl

variable {keep : Keep N S} {visited : List K} {job : NodesJob}

theorem Moves.scan_setRole {visited' : List K} {holds holds' : Option (K × List N)}
    (hrole : v.role pid = some (.scan keep visited holds))
    (hahead : ∀ key node o, v.owner key node = some o → ¬ v.Keeps keep node o →
      Ahead visited holds key node → Ahead visited' holds' key node) :
    Moves v (v.setRole pid (some (.scan keep visited' holds'))) :=
  Moves.scan pid keep visited visited' holds holds' v.owner hrole (fun _ _ => Or.inr rfl) hahead

theorem moves_visitKey (hrole : s.role pid = some (.scan keep visited none))
    (hstep : s.visitKey pid keep visited key = some s') : Moves s.view s'.view := by
  unfold visitKey at hstep
  split at hstep
  · cases hstep
  split at hstep
  · next hnone =>
    -- a key without owners is passed
    cases hstep
    rw [view_setThread]
    refine Moves.scan_setRole hrole ?_
    rintro k n o (howner : (s.blocks.lookup k).bind _ = some o) - ⟨hk, -⟩
    refine ⟨?_, fun nodes h => by cases h⟩
    intro hmem
    rcases mem_cons.mp hmem with rfl | hmem
    · rw [hnone] at howner
      cases howner
    · exact hk hmem
  · next owners hsome =>
    cases hstep
    rw [view_setThread]
    refine Moves.scan_setRole hrole ?_
    rintro k n o (howner : (s.blocks.lookup k).bind (AList.lookup n) = some o) - ⟨hk, -⟩
    refine ⟨hk, ?_⟩
    intro nodes hnodes
    cases hnodes
    rw [hsome] at howner
    refine mem_append_left _ ?_
    exact AList.mem_keys.mp (AList.lookup_isSome.mp (isSome_iff_exists.mpr ⟨o, howner⟩))

/-- A record that the test keeps, on the view. -/
theorem keeps_view {owner : OwnerRecord S} (h : s.keeps keep node owner) :
    s.view.Keeps keep node owner := by
  cases keep with
  | unregister n _ _ =>
    intro heq
    rw [session_view]
    simp only [keeps, Bool.or_eq_true, decide_eq_true_eq] at h
    exact h.resolve_left (not_not.mpr heq)
  | current =>
    show s.view.session node = some owner.nodeId
    rw [session_view]
    exact of_decide_eq_true h
  | younger _ _ => trivial
  | nothing => cases h

theorem moves_checkOwner {todo : List N} {dropped : List (Dropped N S)} (hrole : s.role pid =
      some (.scan keep visited (some (key, todo ++ dropped.map Dropped.node)))) :
    Moves s.view (s.checkOwner pid keep visited key dropped todo).view := by
  cases todo with
  | cons node todo =>
    show Moves s.view (s.setThread pid _).view
    rw [view_setThread]
    refine Moves.scan_setRole hrole ?_
    rintro k n o (howner : s.owner k n = some o) hfails ⟨hk, hnodes⟩
    refine ⟨hk, ?_⟩
    rintro nodes' heq
    cases heq
    have hmem := hnodes _ rfl
    simp only [map_append, mem_append, cons_append, mem_cons] at hmem ⊢
    rcases hmem with rfl | htodo | hdropped
    · -- the owner that is checked fails the test, so it is to be dropped
      have hcheck : s.check keep key n = [⟨n, o, s.session n⟩] := by
        unfold check
        rw [howner]
        exact if_neg fun hkeeps => hfails (keeps_view hkeeps)
      rw [hcheck]
      exact Or.inr (Or.inl (mem_singleton.mpr rfl))
    · exact Or.inl htodo
    · exact Or.inr (Or.inr hdropped)
  | nil =>
    show Moves s.view ((s.noteDrops keep dropped).writeOwners pid key _ _).view
    have howner : (s.noteDrops keep dropped).owner = s.owner :=
      congrArg View.owner (view_noteDrops s keep dropped)
    rw [view_writeOwners, view_noteDrops, howner]
    refine Moves.scan pid keep visited _ _ _ _ hrole ?_ ?_
    · intro k n
      show (if k = key then _ else _) = none ∨ (if k = key then _ else _) = s.owner k n
      rcases eq_or_ne k key with rfl | hk
      · rw [if_pos rfl, lookup_dropAll]
        split
        · exact Or.inl rfl
        · right
          rw [owner]
          cases s.blocks.lookup k with
          | none => rfl
          | some owners => rfl
      · rw [if_neg hk]
        exact Or.inr rfl
    · rintro k n o hleft - ⟨hk, hnodes⟩
      refine ⟨?_, fun nodes h => by cases h⟩
      intro hmem
      rcases mem_cons.mp hmem with rfl | hmem
      · have hn := hnodes _ rfl
        rw [nil_append] at hn
        rw [if_pos rfl, lookup_dropAll, if_pos hn] at hleft
        cases hleft
      · exact hk hmem

theorem moves_endScan (hrole : s.role pid = some (.scan keep visited none))
    (hall : s.blocks.keys.all (· ∈ visited)) : Moves s.view (s.endScan pid keep).view := by
  have hview : (s.endScan pid keep).view = (s.view.fence keep).setRole pid none := by
    unfold endScan
    split
    · rw [view_endThread]
      rfl
    · next hkeep =>
      rw [view_endThread]
      cases keep with
      | unregister n i r => exact absurd rfl (hkeep n i r)
      | current => rfl
      | younger _ _ => rfl
      | nothing => rfl
  rw [hview]
  refine Moves.endScan pid keep visited hrole ?_
  intro key node owner howner
  obtain ⟨owners, hkey, -⟩ := bind_eq_some_iff.mp howner
  have hmem : key ∈ s.blocks.keys :=
    AList.mem_keys.mp (AList.lookup_isSome.mp (isSome_iff_exists.mpr ⟨owners, hkey⟩))
  exact of_decide_eq_true (all_eq_true.mp hall key hmem)

theorem moves_visitNode {visited : List N} (node : N) (hrole : s.role pid = some (.nodes job)) :
    Moves s.view (s.visitNode config pid job visited node).view := by
  have hsame :
      (s.setThread pid (idle (.scanningNodes job (node :: visited)))).view = s.view := by
    rw [view_setThread]
    exact View.setRole_self hrole
  unfold visitNode
  split
  · exact Moves.of_view_eq hsame
  split
  · exact Moves.of_view_eq hsame
  · rw [view_setThread, view_eraseNode]
    exact Moves.dropNode pid node job hrole

theorem moves_endNodes (hrole : s.role pid = some (.nodes job)) :
    Moves s.view (s.endNodes pid job).view := by
  cases job with
  | expired now reconcile removedNodes =>
    simp only [endNodes]
    split
    · next hnothing =>
      obtain ⟨rfl, rfl⟩ := hnothing
      rw [view_endThread]
      exact Moves.endNodes pid now hrole
    · rw [view_setThread]
      exact Moves.startScan pid _ .current hrole (Or.inl rfl)
  | all =>
    show Moves s.view (s.setThread pid _).view
    rw [view_setThread]
    exact Moves.startScan pid _ .nothing hrole (Or.inr rfl)

theorem view_checkVisible (hrole : s.role pid = none) (stopAtMiss : Bool) (now : ℕ) (key : K)
    (live : Bool) (todo : List K) (owners : List (N × OwnerRecord S)) :
    (s.checkVisible config pid stopAtMiss now key live todo owners).view = s.view := by
  unfold checkVisible
  split
  · split
    · exact view_setThread_of_none (s := { s with answers := _ }) hrole rfl
    · exact view_setThread_of_none hrole rfl
  · split
    · exact view_endThread_of_none hrole
    · exact view_queryNext hrole _ _ _

theorem moves_advance {choice : Store.Choice K N} {proc : Proc K N S}
    (hrole : s.role pid = proc.role) (hstep : s.advance config pid choice proc = some s') :
    Moves s.view s'.view := by
  unfold advance at hstep
  split at hstep
  · cases hstep
    exact Moves.of_view_eq (view_endThread_of_none hrole)
  · exact moves_insertHash hrole hstep
  · cases hstep
    exact Moves.of_view_eq (view_endThread_of_none hrole)
  · exact moves_removeHash hrole hstep
  · split at hstep
    · split at hstep
      · cases hstep
      · exact moves_visitKey hrole hstep
    · split at hstep
      · next hall =>
        cases hstep
        exact moves_endScan hrole hall
      · cases hstep
  · cases hstep
    exact moves_checkOwner hrole
  · split at hstep
    · split at hstep
      · cases hstep
      · cases hstep
        exact moves_visitNode _ hrole
    · split at hstep
      · cases hstep
        exact moves_endNodes hrole
      · cases hstep
  · cases hstep
    exact Moves.of_view_eq (view_checkVisible hrole _ _ _ _ _ _)

/-- **Every step of the store is a move of its view.** -/
theorem moves_of_step {a : Action K N S} (hstep : step config s a = some s') :
    Moves s.view s'.view := by
  cases a with
  | heartbeat node nodeId now =>
    cases hstep
    exact moves_heartbeat node nodeId now
  | call pid c =>
    simp only [step] at hstep
    split at hstep
    · cases hstep
    · next hfree =>
      cases hstep
      refine moves_call ?_ c
      rw [role, not_isSome_iff_eq_none.mp hfree]
      rfl
  | step pid choice =>
    simp only [step, stepThread] at hstep
    split at hstep
    · cases hstep
    · next t ht =>
      have hrole : s.role pid = t.proc.role := by
        rw [role, ht]
        rfl
      split at hstep
      · exact moves_advance hrole hstep
      · cases hstep
        refine Moves.of_view_eq ?_
        rw [view_setThread]
        exact View.setRole_self hrole

end Steps

end PegaFlow.MetaStore
