/-
PegaFlow/GpuRegistration.lean

Concurrent registration of the devices of an instance (`register_new_gpu` in `instance.rs`).

A call checks its arguments and, under the lock, that the device may still join; it builds the
context of the device without the lock; then it takes the lock again, repeats the check, seals the
topology if it is the last one, and joins.  Between the two critical sections other calls may join,
and even seal.
-/
import PegaFlow.GpuSealing
import PegaFlow.Run

namespace PegaFlow.Gpu

open List Function Option

deriving instance DecidableEq for GpuContext

namespace Registration

variable {ssd : Bool}

/-! ### Calls -/

/-- The constants of an instance. -/
structure Config where
  id : String
  tpSize : ℕ
  worldSize : ℕ
  pageFirst : Bool
  tpSize_pos : 0 < tpSize
  worldSize_pos : 0 < worldSize

/-- The payload of a call.  Its maps stand in the order in which they are iterated. -/
structure GpuRegistration (ssd : Bool) where
  deviceId : ℤ
  tpRank : ℕ
  ppRank : ℕ
  kvCaches : List (String × RegisteredLayout ssd)
  layerGroups : List (String × ℕ)
  names_nodup : (kvCaches.map Prod.fst).Nodup
  group_lt : ∀ e ∈ layerGroups, e.2 < 2 ^ 32

structure RegistrationState (ssd : Bool) where
  gpuContexts : List (GpuContext ssd)
  topology : Option LayerTopology

def ensureAcceptingRegistrations (c : Config) (state : RegistrationState ssd)
    (deviceId : ℤ) : Except String Unit :=
  if state.gpuContexts.any fun gpu => (gpu.deviceId : ℤ) = deviceId then
    .error s!"GPU context for device {deviceId} already exists"
  else if state.topology.isSome then
    .error (s!"instance {c.id} is already fully registered ({c.worldSize} workers); " ++
      s!"device {deviceId} cannot join")
  else .ok ()

/-- Build the context of a device; `cuda` is the error of the CUDA initialisation, if any. -/
def buildGpuContext (reg : GpuRegistration ssd) (hlayers : reg.kvCaches ≠ [])
    (cuda : Option String) : Except String (GpuContext ssd) :=
  if reg.deviceId < 0 then .error s!"device_id {reg.deviceId} must be >= 0"
  else match cuda with
    | some err => .error err
    | none => .ok
      { deviceId := reg.deviceId.toNat
        tpRank := reg.tpRank
        ppRank := reg.ppRank
        kvCaches := reg.kvCaches
        layerGroups := reg.layerGroups
        names_nodup := reg.names_nodup
        kvCaches_ne_nil := hlayers
        group_lt := reg.group_lt }

/-- The second critical section.  `order` is the order of the hash map of the contexts. -/
def commit (c : Config) (state : RegistrationState ssd) (gpu : GpuContext ssd)
    (order : List (GpuContext ssd)) : Except String (RegistrationState ssd) := do
  ensureAcceptingRegistrations c state gpu.deviceId
  if state.gpuContexts.length + 1 = c.worldSize then do
    let topology ← sealTopology c.id c.tpSize c.pageFirst (order ++ [gpu])
    .ok { gpuContexts := state.gpuContexts ++ [gpu], topology := some topology }
  else .ok { state with gpuContexts := state.gpuContexts ++ [gpu] }

/-- Where a call stands. -/
inductive Phase (ssd : Bool) where
  | idle
  | checked (reg : GpuRegistration ssd) (hlayers : reg.kvCaches ≠ [])
  | built (gpu : GpuContext ssd)
  | returned (result : Except String Unit)

/-- The checks of the arguments and the first critical section. -/
def check (c : Config) (state : RegistrationState ssd)
    (reg : GpuRegistration ssd) : Phase ssd :=
  if c.tpSize ≤ reg.tpRank then
    .returned (.error s!"tp_rank {reg.tpRank} out of range (tp_size {c.tpSize})")
  else if hlayers : reg.kvCaches = [] then
    .returned (.error s!"device {reg.deviceId} registered no KV cache layers")
  else match ensureAcceptingRegistrations c state reg.deviceId with
    | .error err => .returned (.error err)
    | .ok () => .checked reg hlayers

/-! ### Interleavings -/

structure State (ssd : Bool) where
  registration : RegistrationState ssd
  calls : ℕ → Phase ssd

def init : State ssd := ⟨⟨[], none⟩, fun _ => .idle⟩

/-- The steps of one call. -/
inductive Action (ssd : Bool) where
  | call (thread : ℕ) (reg : GpuRegistration ssd)
  | build (thread : ℕ) (cuda : Option String)
  | commit (thread : ℕ) (order : List (GpuContext ssd))

def Action.thread : Action ssd → ℕ
  | .call thread _ => thread
  | .build thread _ => thread
  | .commit thread _ => thread

def State.setCall (s : State ssd) (thread : ℕ) (phase : Phase ssd) :
    State ssd :=
  { s with calls := update s.calls thread phase }

def step (c : Config) (s : State ssd) : Action ssd → Option (State ssd)
  | .call thread reg =>
    match s.calls thread with
    | .idle => some (s.setCall thread (check c s.registration reg))
    | _ => none
  | .build thread cuda =>
    match s.calls thread with
    | .checked reg hlayers =>
      match buildGpuContext reg hlayers cuda with
      | .error err => some (s.setCall thread (.returned (.error err)))
      | .ok gpu => some (s.setCall thread (.built gpu))
    | _ => none
  | .commit thread order =>
    match s.calls thread with
    | .built gpu =>
      if order.Perm s.registration.gpuContexts then
        match Registration.commit c s.registration gpu order with
        | .error err => some (s.setCall thread (.returned (.error err)))
        | .ok registration =>
          some { s.setCall thread (.returned (.ok ())) with registration := registration }
      else none
    | _ => none

/-! ### What a step can do -/

variable {c : Config} {s s' : State ssd} {a : Action ssd} {thread : ℕ} {gpu gpu' : GpuContext ssd}
  {gpus : List (GpuContext ssd)} {reg : GpuRegistration ssd}

section Steps

variable {state state' : RegistrationState ssd} {order : List (GpuContext ssd)} {deviceId : ℤ}

theorem ensureAccepting_ok (h : ensureAcceptingRegistrations c state deviceId = .ok ()) :
    (∀ gpu ∈ state.gpuContexts, (gpu.deviceId : ℤ) ≠ deviceId) ∧ state.topology = none := by
  obtain ⟨hnew, h⟩ := ite_error_ok h
  obtain ⟨hopen, -⟩ := ite_error_ok h
  refine ⟨fun gpu hgpu heq => hnew ?_, not_isSome_iff_eq_none.mp hopen⟩
  exact any_eq_true.mpr ⟨gpu, hgpu, decide_eq_true heq⟩

theorem ensureAccepting_eq_ok (hnew : ∀ gpu ∈ state.gpuContexts, (gpu.deviceId : ℤ) ≠ deviceId)
    (hopen : state.topology = none) : ensureAcceptingRegistrations c state deviceId = .ok () := by
  rw [ensureAcceptingRegistrations, if_neg, if_neg]
  · rw [hopen]
    exact Bool.false_ne_true
  · rw [List.any_eq_true]
    rintro ⟨gpu, hgpu, heq⟩
    exact hnew gpu hgpu (of_decide_eq_true heq)

theorem commit_ok (h : commit c state gpu order = .ok state') :
    (∀ g ∈ state.gpuContexts, g.deviceId ≠ gpu.deviceId) ∧ state.topology = none ∧
      state'.gpuContexts = state.gpuContexts ++ [gpu] ∧
      (state.gpuContexts.length + 1 = c.worldSize ∧
          (∃ t, sealTopology c.id c.tpSize c.pageFirst (order ++ [gpu]) = .ok t ∧
            state'.topology = some t) ∨
        state.gpuContexts.length + 1 ≠ c.worldSize ∧ state'.topology = none) := by
  obtain ⟨u, hensure, h⟩ := bind_ok h
  obtain ⟨hnew, hopen⟩ := ensureAccepting_ok hensure
  have hnew : ∀ g ∈ state.gpuContexts, g.deviceId ≠ gpu.deviceId :=
    fun g hg heq => hnew g hg (congrArg _ heq)
  split at h
  · next hlast =>
    obtain ⟨t, hseal, h⟩ := bind_ok h
    cases Except.ok.inj h
    exact ⟨hnew, hopen, rfl, .inl ⟨hlast, t, hseal, rfl⟩⟩
  · next hmore =>
    cases Except.ok.inj h
    exact ⟨hnew, hopen, rfl, .inr ⟨hmore, hopen⟩⟩

theorem commit_error {err : String}
    (haccept : ensureAcceptingRegistrations c state gpu.deviceId = .ok ())
    (h : commit c state gpu order = .error err) :
    state.gpuContexts.length + 1 = c.worldSize ∧
      sealTopology c.id c.tpSize c.pageFirst (order ++ [gpu]) = .error err := by
  rw [commit, haccept] at h
  split at h
  · next hlast =>
    cases hseal : sealTopology c.id c.tpSize c.pageFirst (order ++ [gpu]) with
    | error err' =>
      rw [hseal] at h
      exact ⟨hlast, congrArg _ (Except.error.inj h)⟩
    | ok t =>
      rw [hseal] at h
      cases h
  · cases h

/-- The steps of a call: in all but the last one the instance stays as it is. -/
inductive Steps (c : Config) (s : State ssd) : Action ssd → State ssd → Prop
  | check (thread : ℕ) (reg : GpuRegistration ssd) :
      s.calls thread = .idle →
      Steps c s (.call thread reg) (s.setCall thread (check c s.registration reg))
  | build (thread : ℕ) (cuda : Option String) {reg : GpuRegistration ssd}
      {hlayers : reg.kvCaches ≠ []} {gpu : GpuContext ssd} :
      s.calls thread = .checked reg hlayers → buildGpuContext reg hlayers cuda = .ok gpu →
      Steps c s (.build thread cuda) (s.setCall thread (.built gpu))
  | buildFails (thread : ℕ) (cuda : Option String) {reg : GpuRegistration ssd}
      {hlayers : reg.kvCaches ≠ []} {err : String} :
      s.calls thread = .checked reg hlayers → buildGpuContext reg hlayers cuda = .error err →
      Steps c s (.build thread cuda) (s.setCall thread (.returned (.error err)))
  | reject (thread : ℕ) (order : List (GpuContext ssd)) {gpu : GpuContext ssd}
      {err : String} :
      s.calls thread = .built gpu → order.Perm s.registration.gpuContexts →
      commit c s.registration gpu order = .error err →
      Steps c s (.commit thread order) (s.setCall thread (.returned (.error err)))
  | join (thread : ℕ) (order : List (GpuContext ssd)) {gpu : GpuContext ssd}
      {registration : RegistrationState ssd} :
      s.calls thread = .built gpu → order.Perm s.registration.gpuContexts →
      commit c s.registration gpu order = .ok registration →
      Steps c s (.commit thread order)
        { s.setCall thread (.returned (.ok ())) with registration := registration }

theorem steps_of_step (h : step c s a = some s') : Steps c s a s' := by
  cases a with
  | call thread reg =>
    rw [step] at h
    split at h
    · next hidle =>
      cases h
      exact .check thread reg hidle
    · cases h
  | build thread cuda =>
    rw [step] at h
    split at h
    · next reg hlayers hchecked =>
      split at h
      · next err herr =>
        cases h
        exact .buildFails thread cuda hchecked herr
      · next gpu hgpu =>
        cases h
        exact .build thread cuda hchecked hgpu
    · cases h
  | commit thread order =>
    rw [step] at h
    split at h
    · next gpu hbuilt =>
      split at h
      · next hperm =>
        split at h
        · next err herr =>
          cases h
          exact .reject thread order hbuilt hperm herr
        · next registration hok =>
          cases h
          exact .join thread order hbuilt hperm hok
      · cases h
    · cases h

theorem Steps.other (h : Steps c s a s') (hne : thread ≠ a.thread) :
    s'.calls thread = s.calls thread := by
  cases h with
  | check | build | buildFails | reject | join => exact update_of_ne hne _ _

theorem check_cases (c : Config) (state : RegistrationState ssd) (reg : GpuRegistration ssd) :
    (∃ err, check c state reg = .returned (.error err)) ∨
      ∃ hlayers, check c state reg = .checked reg hlayers := by
  unfold check
  split
  · exact .inl ⟨_, rfl⟩
  · split
    · exact .inl ⟨_, rfl⟩
    · next hlayers =>
      cases ensureAcceptingRegistrations c state reg.deviceId with
      | error err => exact .inl ⟨err, rfl⟩
      | ok => exact .inr ⟨hlayers, rfl⟩

/-- Steps a call may still take. -/
def Phase.remaining : Phase ssd → ℕ
  | .idle => 3
  | .checked _ _ => 2
  | .built _ => 1
  | .returned _ => 0

theorem Steps.remaining_lt (h : Steps c s a s') :
    (s'.calls a.thread).remaining < (s.calls a.thread).remaining := by
  have hself : ∀ thread phase, (s.setCall thread phase).calls thread = phase :=
    fun thread phase => update_self _ _ _
  cases h with
  | check thread reg hidle =>
    rw [Action.thread, hself, hidle]
    rcases check_cases c s.registration reg with ⟨err, hcheck⟩ | ⟨hlayers, hcheck⟩
    · rw [hcheck]
      exact Nat.zero_lt_succ 2
    · rw [hcheck]
      exact Nat.lt_succ_self 2
  | build thread cuda hchecked =>
    rw [Action.thread, hself, hchecked]
    exact Nat.lt_succ_self 1
  | buildFails thread cuda hchecked =>
    rw [Action.thread, hself, hchecked]
    exact Nat.zero_lt_succ 1
  | reject thread order hbuilt =>
    rw [Action.thread, hself, hbuilt]
    exact Nat.zero_lt_succ 0
  | join thread order hbuilt =>
    show ((s.setCall thread _).calls thread).remaining < (s.calls thread).remaining
    rw [hself, hbuilt]
    exact Nat.zero_lt_succ 0

theorem Steps.returned (h : Steps c s a s') {result : Except String Unit}
    (hreturned : s.calls thread = .returned result) : s'.calls thread = .returned result := by
  have hne : thread ≠ a.thread := by
    rintro rfl
    have hless := h.remaining_lt
    rw [hreturned] at hless
    exact absurd hless (Nat.not_lt_zero _)
  rw [h.other hne, hreturned]

theorem Steps.unchanged (h : Steps c s a s') :
    s'.registration = s.registration ∨ s'.calls a.thread = .returned (.ok ()) := by
  cases h with
  | check | build | buildFails | reject => exact .inl rfl
  | join thread order _ _ _ => exact .inr (update_self _ _ _)

end Steps

/-! ### Sealed exactly when complete -/

/-- What every interleaving keeps. -/
structure Sound (c : Config) (s : State ssd) : Prop where
  devices : (s.registration.gpuContexts.map GpuContext.deviceId).Nodup
  le : s.registration.gpuContexts.length ≤ c.worldSize
  sealed_iff : s.registration.topology.isSome ↔
    s.registration.gpuContexts.length = c.worldSize

theorem sound_init (c : Config) : Sound c (init : State ssd) := by
  refine ⟨nodup_nil, Nat.zero_le _, fun h => absurd h Bool.false_ne_true, fun h => ?_⟩
  exact absurd h c.worldSize_pos.ne

theorem Sound.step (hs : Sound c s) (h : step c s a = some s') : Sound c s' := by
  cases steps_of_step h with
  | check | build | buildFails | reject => exact { hs with }
  | join thread order hbuilt hperm hok =>
    obtain ⟨hnew, hopen, hcontexts, htopology⟩ := commit_ok hok
    have hne : s.registration.gpuContexts.length ≠ c.worldSize := by
      rw [Ne, ← hs.sealed_iff, hopen]
      exact Bool.false_ne_true
    have hle := hs.le
    refine ⟨?_, ?_, ?_⟩
    · rw [hcontexts, map_append]
      refine nodup_append.mpr ⟨hs.devices, nodup_singleton _, ?_⟩
      intro device hdevice device' hdevice' heq
      obtain ⟨gpu, hgpu, rfl⟩ := mem_map.mp hdevice
      exact hnew gpu hgpu (heq.trans (mem_singleton.mp hdevice'))
    · rw [hcontexts, length_append, length_singleton]
      omega
    · rw [hcontexts, length_append]
      rcases htopology with ⟨hlast, t, -, ht⟩ | ⟨hmore, hnone⟩
      · rw [ht]
        exact ⟨fun _ => hlast, fun _ => rfl⟩
      · rw [hnone]
        exact ⟨fun h => absurd h Bool.false_ne_true, fun h => absurd h hmore⟩

theorem closed (hsealed : s.registration.topology.isSome) (h : step c s a = some s') :
    s'.registration = s.registration := by
  cases steps_of_step h with
  | check | build | buildFails | reject => rfl
  | join thread order hbuilt hperm hok =>
    obtain ⟨-, hopen, -⟩ := commit_ok hok
    rw [hopen] at hsealed
    cases hsealed

/-! ### A set of registrations -/

/-- The registration of a device. -/
def registrationOf (gpu : GpuContext ssd) : GpuRegistration ssd where
  deviceId := gpu.deviceId
  tpRank := gpu.tpRank
  ppRank := gpu.ppRank
  kvCaches := gpu.kvCaches
  layerGroups := gpu.layerGroups
  names_nodup := gpu.names_nodup
  group_lt := gpu.group_lt

theorem buildGpuContext_registrationOf (gpu : GpuContext ssd)
    (hlayers : (registrationOf gpu).kvCaches ≠ []) :
    buildGpuContext (registrationOf gpu) hlayers none = .ok gpu := by
  have hdevice : ¬ (registrationOf gpu).deviceId < 0 :=
    Int.not_lt.mpr (Int.natCast_nonneg gpu.deviceId)
  rfl

/-- As many devices as the instance has workers, all different and of valid ranks. -/
structure Team (c : Config) (gpus : List (GpuContext ssd)) : Prop where
  length : gpus.length = c.worldSize
  devices : (gpus.map GpuContext.deviceId).Nodup
  ranks : ∀ gpu ∈ gpus, gpu.tpRank < c.tpSize

/-- The action belongs to the calls that register the `gpus`, call `i` the one at place `i`, and
CUDA does not fail. -/
def Action.Registers (regs : List (GpuRegistration ssd)) : Action ssd → Prop
  | .call thread reg => regs[thread]? = some reg
  | .build _ cuda => cuda = none
  | .commit _ _ => True

/-- What a call knows about the instance. -/
def Phase.Fits (c : Config) (gpus : List (GpuContext ssd))
    (state : RegistrationState ssd) (thread : ℕ) : Phase ssd → Prop
  | .idle => True
  | .checked reg _ => ∃ gpu, gpus[thread]? = some gpu ∧ registrationOf gpu = reg
  | .built gpu => gpus[thread]? = some gpu
  | .returned (.ok _) => ∃ gpu, gpus[thread]? = some gpu ∧ gpu ∈ state.gpuContexts
  | .returned (.error _) => state.topology = none ∧
      ∀ t, sealTopology c.id c.tpSize c.pageFirst gpus ≠ .ok t

/-- The instance while the `gpus` register. -/
structure Joining (c : Config) (gpus : List (GpuContext ssd)) (s : State ssd) :
    Prop where
  fits : ∀ thread, (s.calls thread).Fits c gpus s.registration thread
  joined : ∀ gpu ∈ s.registration.gpuContexts,
    ∃ thread, gpus[thread]? = some gpu ∧ s.calls thread = .returned (.ok ())
  sealed : ∀ t, s.registration.topology = some t →
    sealTopology c.id c.tpSize c.pageFirst gpus = .ok t

theorem joining_init (c : Config) (gpus : List (GpuContext ssd)) : Joining c gpus init :=
  ⟨fun _ => trivial, fun _ h => absurd h not_mem_nil, fun _ h => by cases h⟩

theorem Team.thread_eq (hteam : Team c gpus) {i j : ℕ} (hi : gpus[i]? = some gpu)
    (hj : gpus[j]? = some gpu') (heq : gpu.deviceId = gpu'.deviceId) : i = j := by
  obtain ⟨hlt, -⟩ := List.getElem?_eq_some_iff.mp hi
  refine (getElem?_inj (by rwa [length_map]) hteam.devices).mp ?_
  rw [getElem?_map, getElem?_map, hi, hj, map_some, map_some, heq]

theorem nodup_of_devices (h : (gpus.map GpuContext.deviceId).Nodup) : gpus.Nodup :=
  List.Nodup.of_map _ h

section

variable (hs : Joining c gpus s)
include hs

theorem Joining.subset : s.registration.gpuContexts ⊆ gpus := by
  intro g hg
  obtain ⟨thread, hgpu, -⟩ := hs.joined g hg
  exact mem_of_getElem? hgpu

section

variable (hcall : s.calls thread ≠ .returned (.ok ()))
include hcall

theorem Joining.setCall {phase : Phase ssd} (hphase : phase.Fits c gpus s.registration thread) :
    Joining c gpus (s.setCall thread phase) := by
  refine ⟨fun t => ?_, fun gpu hgpu => ?_, hs.sealed⟩
  · show (update s.calls thread phase t).Fits c gpus s.registration t
    rcases eq_or_ne t thread with rfl | hne
    · rw [update_self]
      exact hphase
    · rw [update_of_ne hne]
      exact hs.fits t
  · obtain ⟨t, ht, hreturned⟩ := hs.joined gpu hgpu
    refine ⟨t, ht, ?_⟩
    show update s.calls thread phase t = _
    rw [update_of_ne, hreturned]
    rintro rfl
    exact hcall hreturned

variable (hgpu : gpus[thread]? = some gpu)
include hgpu

theorem Joining.join {registration : RegistrationState ssd}
    (hcontexts : registration.gpuContexts = s.registration.gpuContexts ++ [gpu])
    (hsealed : ∀ t, registration.topology = some t →
      sealTopology c.id c.tpSize c.pageFirst gpus = .ok t) :
    Joining c gpus
      { s.setCall thread (.returned (.ok ())) with registration := registration } := by
  refine ⟨fun t => ?_, fun g hg => ?_, hsealed⟩
  · show (update s.calls thread (.returned (.ok ())) t).Fits c gpus registration t
    rcases eq_or_ne t thread with rfl | hne
    · rw [update_self]
      refine ⟨gpu, hgpu, ?_⟩
      rw [hcontexts]
      exact mem_append_right _ (mem_singleton_self gpu)
    · rw [update_of_ne hne]
      have hfits := hs.fits t
      cases hphase : s.calls t with
      | idle => trivial
      | checked | built =>
        rw [hphase] at hfits
        exact hfits
      | returned result =>
        rw [hphase] at hfits
        cases result with
        | ok =>
          obtain ⟨g, hg, hmem⟩ := hfits
          refine ⟨g, hg, ?_⟩
          rw [hcontexts]
          exact mem_append_left _ hmem
        | error err =>
          -- a team that cannot be sealed is not sealed now either
          refine ⟨?_, hfits.2⟩
          cases htopology : registration.topology with
          | none => rfl
          | some t' => exact absurd (hsealed t' htopology) (hfits.2 t')
  · rw [hcontexts] at hg
    rcases mem_append.mp hg with hg | hg
    · obtain ⟨t, ht, hreturned⟩ := hs.joined g hg
      refine ⟨t, ht, ?_⟩
      show update s.calls thread _ t = _
      rw [update_of_ne, hreturned]
      rintro rfl
      exact hcall hreturned
    · rw [mem_singleton.mp hg]
      exact ⟨thread, hgpu, update_self _ _ _⟩

theorem Joining.absent (hteam : Team c gpus) :
    ∀ g ∈ s.registration.gpuContexts, g.deviceId ≠ gpu.deviceId := by
  intro g hg heq
  obtain ⟨other, hother, hreturned⟩ := hs.joined g hg
  rw [hteam.thread_eq hother hgpu heq] at hreturned
  exact hcall hreturned

variable (hsound : Sound c s) (hteam : Team c gpus)
include hsound hteam

theorem Joining.accepting :
    ensureAcceptingRegistrations c s.registration gpu.deviceId = .ok () := by
  have habsent := hs.absent hcall hgpu hteam
  refine ensureAccepting_eq_ok (fun g hg heq => habsent g hg (Int.natCast_inj.mp heq)) ?_
  refine not_isSome_iff_eq_none.mp fun hsealed => ?_
  -- if all have joined, so has this one
  have hperm : s.registration.gpuContexts.Perm gpus := by
    refine (subperm_of_subset (nodup_of_devices hsound.devices) hs.subset).perm_of_length_le ?_
    rw [hteam.length, hsound.sealed_iff.mp hsealed]
  exact habsent gpu (hperm.mem_iff.mpr (mem_of_getElem? hgpu)) rfl

theorem Joining.perm_last (hlast : s.registration.gpuContexts.length + 1 = c.worldSize) :
    (s.registration.gpuContexts ++ [gpu]).Perm gpus := by
  have habsent := hs.absent hcall hgpu hteam
  have hnodup : (s.registration.gpuContexts ++ [gpu]).Nodup := by
    refine nodup_append.mpr ⟨nodup_of_devices hsound.devices, nodup_singleton gpu, ?_⟩
    intro g hg g' hg' heq
    exact habsent g hg (by rw [heq, mem_singleton.mp hg'])
  refine (subperm_of_subset hnodup ?_).perm_of_length_le ?_
  · intro g hg
    rcases mem_append.mp hg with hg | hg
    · exact hs.subset hg
    · rw [mem_singleton.mp hg]
      exact mem_of_getElem? hgpu
  · rw [hteam.length, length_append, length_singleton, hlast]

end

theorem Joining.builds {hlayers : reg.kvCaches ≠ []}
    (hchecked : s.calls thread = .checked reg hlayers) :
    ∃ gpu, gpus[thread]? = some gpu ∧ buildGpuContext reg hlayers none = .ok gpu := by
  have hfits := hs.fits thread
  rw [hchecked] at hfits
  obtain ⟨gpu, hgpu, rfl⟩ := hfits
  exact ⟨gpu, hgpu, buildGpuContext_registrationOf gpu hlayers⟩

theorem Joining.step (hsound : Sound c s) (hteam : Team c gpus)
    (ha : a.Registers (gpus.map registrationOf)) (h : step c s a = some s') :
    Joining c gpus s' := by
  cases steps_of_step h with
  | check thread reg hidle =>
    have hcall : s.calls thread ≠ .returned (.ok ()) := fun h => by cases hidle.symm.trans h
    have hreg : (gpus.map registrationOf)[thread]? = some reg := ha
    rw [getElem?_map] at hreg
    obtain ⟨gpu, hgpu, rfl⟩ := map_eq_some_iff.mp hreg
    refine hs.setCall hcall ?_
    have hrank : ¬ c.tpSize ≤ (registrationOf gpu).tpRank :=
      Nat.not_le_of_lt (hteam.ranks gpu (mem_of_getElem? hgpu))
    have haccept : ensureAcceptingRegistrations c s.registration (registrationOf gpu).deviceId =
        .ok () := hs.accepting hcall hgpu hsound hteam
    have hlayers : ¬ (registrationOf gpu).kvCaches = [] := gpu.kvCaches_ne_nil
    rw [check, if_neg hrank, dif_neg hlayers, haccept]
    exact ⟨gpu, hgpu, rfl⟩
  | build thread cuda hchecked hbuild =>
    have hcall : s.calls thread ≠ .returned (.ok ()) := fun h => by cases hchecked.symm.trans h
    obtain ⟨gpu, hgpu, hbuilds⟩ := hs.builds hchecked
    have hcuda : cuda = none := ha
    rw [hcuda, hbuilds] at hbuild
    rw [← Except.ok.inj hbuild]
    exact hs.setCall hcall hgpu
  | buildFails thread cuda hchecked hbuild =>
    obtain ⟨gpu, hgpu, hbuilds⟩ := hs.builds hchecked
    have hcuda : cuda = none := ha
    rw [hcuda, hbuilds] at hbuild
    cases hbuild
  | reject thread order hbuilt hperm herr =>
    have hcall : s.calls thread ≠ .returned (.ok ()) := fun h => by cases hbuilt.symm.trans h
    have hgpu := hs.fits thread
    rw [hbuilt] at hgpu
    have haccept := hs.accepting hcall hgpu hsound hteam
    obtain ⟨hlast, hseal⟩ := commit_error haccept herr
    refine hs.setCall hcall ⟨(ensureAccepting_ok haccept).2, fun t ht => ?_⟩
    have hall := hs.perm_last hcall hgpu hsound hteam hlast
    have halike := alike_of_perm (hall.symm.trans (hperm.symm.append_right [_]))
    cases hseal.symm.trans (sealTopology_alike halike ht)
  | join thread order hbuilt hperm hok =>
    have hcall : s.calls thread ≠ .returned (.ok ()) := fun h => by cases hbuilt.symm.trans h
    have hgpu := hs.fits thread
    rw [hbuilt] at hgpu
    obtain ⟨-, -, hcontexts, htopology⟩ := commit_ok hok
    exact hs.join hcall hgpu hcontexts fun t ht => by
      rcases htopology with ⟨hlast, t', hseal, ht'⟩ | ⟨-, hnone⟩
      · rw [ht, Option.some.injEq] at ht'
        have hall := hs.perm_last hcall hgpu hsound hteam hlast
        rw [ht']
        exact sealTopology_alike (alike_of_perm ((hperm.append_right _).trans hall)) hseal
      · rw [hnone] at ht
        cases ht

theorem Joining.topology_eq (hsound : Sound c s) (hteam : Team c gpus)
    (hreturned : ∀ thread < gpus.length, ∃ result, s.calls thread = .returned result) :
    s.registration.topology = (sealTopology c.id c.tpSize c.pageFirst gpus).toOption := by
  rcases em (∃ thread err, s.calls thread = .returned (.error err)) with
    ⟨thread, err, hrejected⟩ | hall
  · have hfits := hs.fits thread
    rw [hrejected] at hfits
    rw [hfits.1]
    cases hseal : sealTopology c.id c.tpSize c.pageFirst gpus with
    | error => rfl
    | ok t => exact absurd hseal (hfits.2 t)
  · have hsubset : gpus ⊆ s.registration.gpuContexts := by
      intro gpu hgpu
      obtain ⟨thread, hthread, rfl⟩ := getElem_of_mem hgpu
      obtain ⟨result, hresult⟩ := hreturned thread hthread
      cases result with
      | error err => exact absurd ⟨thread, err, hresult⟩ hall
      | ok =>
        have hfits := hs.fits thread
        rw [hresult] at hfits
        obtain ⟨gpu, hgpu, hmem⟩ := hfits
        rw [getElem?_eq_getElem hthread, some.injEq] at hgpu
        rwa [hgpu]
    have hlength : c.worldSize ≤ s.registration.gpuContexts.length := by
      rw [← hteam.length]
      exact (subperm_of_subset (nodup_of_devices hteam.devices) hsubset).length_le
    obtain ⟨t, ht⟩ := isSome_iff_exists.mp
      (hsound.sealed_iff.mpr (le_antisymm hsound.le hlength))
    rw [ht, hs.sealed t ht]
    rfl

end

/-! ### Orders -/

/-- A registration that passes every check of a call of its own. -/
structure Acceptable (c : Config) (reg : GpuRegistration ssd) : Prop where
  rank : reg.tpRank < c.tpSize
  layers : reg.kvCaches ≠ []
  device : 0 ≤ reg.deviceId

/-- The same registration; its maps may be iterated in different orders. -/
structure SameRegistration (reg reg' : GpuRegistration ssd) : Prop where
  deviceId : reg.deviceId = reg'.deviceId
  tpRank : reg.tpRank = reg'.tpRank
  ppRank : reg.ppRank = reg'.ppRank
  kvCaches : reg.kvCaches.Perm reg'.kvCaches
  layerGroups : ∀ name, reg.layerGroups.lookup name = reg'.layerGroups.lookup name

/-- The same registrations in another order. -/
def Reordered (regs regs' : List (GpuRegistration ssd)) : Prop :=
  ∃ middle, regs.Perm middle ∧ Forall₂ SameRegistration middle regs'

/-- A run in which the registrations were called, in any interleaving, and all of them returned. -/
structure Completes (c : Config) (regs : List (GpuRegistration ssd))
    (actions : List (Action ssd)) (s : State ssd) : Prop where
  registers : ∀ a ∈ actions, a.Registers regs
  run : exec (step c) init actions = some s
  returned : ∀ thread < regs.length, ∃ result, s.calls thread = .returned result

theorem Acceptable.exists_context (h : Acceptable c reg) :
    ∃ gpu, registrationOf gpu = reg ∧ gpu.tpRank < c.tpSize := by
  obtain ⟨deviceId, tpRank, ppRank, kvCaches, layerGroups, hnodup, hgroup⟩ := reg
  refine ⟨⟨deviceId.toNat, tpRank, ppRank, kvCaches, layerGroups, hnodup, h.layers, hgroup⟩, ?_,
    h.rank⟩
  unfold registrationOf
  congr 1
  exact Int.toNat_of_nonneg h.device

variable {regs regs' : List (GpuRegistration ssd)} {actions : List (Action ssd)}

theorem exists_contexts (h : ∀ reg ∈ regs, Acceptable c reg) :
    ∃ gpus : List (GpuContext ssd), gpus.map registrationOf = regs ∧
      ∀ gpu ∈ gpus, gpu.tpRank < c.tpSize := by
  induction regs with
  | nil => exact ⟨[], rfl, fun _ h => absurd h not_mem_nil⟩
  | cons reg regs ih =>
    obtain ⟨gpu, rfl, hrank⟩ := (h reg mem_cons_self).exists_context
    obtain ⟨gpus, rfl, hranks⟩ := ih fun reg' hreg' => h reg' (mem_cons_of_mem _ hreg')
    exact ⟨gpu :: gpus, rfl, forall_mem_cons.mpr ⟨hrank, hranks⟩⟩

theorem joining_exec (hteam : Team c gpus)
    (hactions : ∀ a ∈ actions, a.Registers (gpus.map registrationOf)) (hs : Joining c gpus s)
    (hsound : Sound c s) (hrun : exec (step c) s actions = some s') :
    Joining c gpus s' ∧ Sound c s' := by
  induction actions generalizing s with
  | nil =>
    cases hrun
    exact ⟨hs, hsound⟩
  | cons a actions ih =>
    obtain ⟨middle, hstep, hrun⟩ := exec_cons_some hrun
    exact ih (fun b hb => hactions b (mem_cons_of_mem a hb))
      (hs.step hsound hteam (hactions a mem_cons_self) hstep) (hsound.step hstep) hrun

theorem topology_of_completes (hteam : Team c gpus)
    (h : Completes c (gpus.map registrationOf) actions s) :
    s.registration.topology = (sealTopology c.id c.tpSize c.pageFirst gpus).toOption := by
  obtain ⟨hs, hsound⟩ := joining_exec hteam h.registers (joining_init c gpus) (sound_init c) h.run
  refine hs.topology_eq hsound hteam fun thread hthread => h.returned thread ?_
  rwa [length_map]

theorem SameRegistration.sameLayers
    (h : SameRegistration (registrationOf gpu) (registrationOf gpu')) : SameLayers gpu gpu' :=
  ⟨h.tpRank, h.ppRank, fun _ => h.kvCaches.mem_iff,
    fun name => congrArg (fun g : Option ℕ => g.getD 0) (h.layerGroups name)⟩

theorem Reordered.alike {gpus' : List (GpuContext ssd)}
    (h : Reordered (gpus.map registrationOf) (gpus'.map registrationOf)) : Alike gpus gpus' := by
  obtain ⟨middle, hperm, hsame⟩ := h
  constructor
  · intro gpu hgpu
    obtain ⟨reg', hreg', hreg⟩ :=
      forall₂_mem_left hsame (hperm.mem_iff.mp (mem_map_of_mem hgpu))
    obtain ⟨gpu', hgpu', rfl⟩ := mem_map.mp hreg'
    exact ⟨gpu', hgpu', hreg.sameLayers⟩
  · intro gpu' hgpu'
    obtain ⟨reg, hreg, hsame⟩ := forall₂_mem_right hsame (mem_map_of_mem hgpu')
    obtain ⟨gpu, hgpu, rfl⟩ := mem_map.mp (hperm.mem_iff.mpr hreg)
    exact ⟨gpu, hgpu, hsame.sameLayers.symm⟩

theorem Reordered.acceptable (h : Reordered regs regs') (hregs : ∀ reg ∈ regs, Acceptable c reg) :
    ∀ reg' ∈ regs', Acceptable c reg' := by
  intro reg' hreg'
  obtain ⟨middle, hperm, hsame⟩ := h
  obtain ⟨reg, hreg, hsame⟩ := forall₂_mem_right hsame hreg'
  obtain ⟨hrank, hlayers, hdevice⟩ := hregs reg (hperm.mem_iff.mpr hreg)
  refine ⟨hsame.tpRank ▸ hrank, fun hnil => hlayers ?_, hsame.deviceId ▸ hdevice⟩
  exact (hnil ▸ hsame.kvCaches).eq_nil

theorem Reordered.devices (h : Reordered regs regs') :
    (regs.map GpuRegistration.deviceId).Perm (regs'.map GpuRegistration.deviceId) := by
  obtain ⟨middle, hperm, hsame⟩ := h
  refine (hperm.map _).trans (List.Perm.of_eq ?_)
  clear hperm
  induction hsame with
  | nil => rfl
  | cons hhead _ ih => rw [map_cons, map_cons, hhead.deviceId, ih]

theorem exists_team (hlength : regs.length = c.worldSize)
    (hdevices : (regs.map GpuRegistration.deviceId).Nodup)
    (hacceptable : ∀ reg ∈ regs, Acceptable c reg) :
    ∃ gpus : List (GpuContext ssd), gpus.map registrationOf = regs ∧ Team c gpus := by
  obtain ⟨gpus, rfl, hranks⟩ := exists_contexts hacceptable
  refine ⟨gpus, rfl, by rwa [length_map] at hlength, ?_, hranks⟩
  refine List.Nodup.of_map (fun device : ℕ => (device : ℤ)) ?_
  rw [List.map_map] at hdevices ⊢
  exact hdevices

theorem exists_step (c : Config) (s : State ssd) (hreg : regs[thread]? = some reg)
    (hrunning : ∀ result, s.calls thread ≠ .returned result) :
    ∃ a s', a.Registers regs ∧ a.thread = thread ∧ step c s a = some s' := by
  cases hphase : s.calls thread with
  | idle => exact ⟨.call thread reg, _, hreg, rfl, by rw [step, hphase]⟩
  | checked reg' hlayers =>
    have hstep : ∃ s', step c s (.build thread none) = some s' := by
      rw [step, hphase]
      dsimp only
      split
      · exact ⟨_, rfl⟩
      · exact ⟨_, rfl⟩
    obtain ⟨s', hstep⟩ := hstep
    exact ⟨.build thread none, s', rfl, rfl, hstep⟩
  | built gpu =>
    have hstep : ∃ s', step c s (.commit thread s.registration.gpuContexts) = some s' := by
      rw [step, hphase]
      dsimp only
      rw [if_pos (List.Perm.refl _)]
      split
      · exact ⟨_, rfl⟩
      · exact ⟨_, rfl⟩
    obtain ⟨s', hstep⟩ := hstep
    exact ⟨.commit thread _, s', trivial, rfl, hstep⟩
  | returned result => exact absurd hphase (hrunning result)

theorem exists_return (c : Config) (s : State ssd) (hreg : regs[thread]? = some reg) :
    ∃ actions s', (∀ a ∈ actions, a.Registers regs) ∧ exec (step c) s actions = some s' ∧
      (∃ result, s'.calls thread = .returned result) ∧
      ∀ other ≠ thread, s'.calls other = s.calls other := by
  induction hn : (s.calls thread).remaining using Nat.strong_induction_on generalizing s with
  | _ n ih =>
    rcases em (∃ result, s.calls thread = .returned result) with hreturned | hrunning
    · exact ⟨[], s, fun _ h => absurd h not_mem_nil, rfl, hreturned, fun _ _ => rfl⟩
    obtain ⟨a, s₁, ha, rfl, hstep⟩ :=
      exists_step c s hreg fun result h => hrunning ⟨result, h⟩
    have hsteps := steps_of_step hstep
    obtain ⟨actions, s₂, hactions, hrun, hreturned, hother'⟩ :=
      ih _ (hn ▸ hsteps.remaining_lt) s₁ rfl
    refine ⟨a :: actions, s₂, forall_mem_cons.mpr ⟨ha, hactions⟩, ?_, hreturned,
      fun other hne => (hother' other hne).trans (hsteps.other hne)⟩
    rw [exec, hstep]
    exact hrun

theorem exists_completes (c : Config) (regs : List (GpuRegistration ssd)) :
    ∃ actions s, Completes c regs actions s := by
  have hfirst : ∀ n ≤ regs.length, ∃ actions s, (∀ a ∈ actions, a.Registers regs) ∧
      exec (step c) init actions = some s ∧
      ∀ thread < n, ∃ result, s.calls thread = .returned result := by
    intro n hn
    induction n with
    | zero =>
      exact ⟨[], init, fun _ h => absurd h not_mem_nil, rfl,
        fun thread h => absurd h (Nat.not_lt_zero thread)⟩
    | succ n ih =>
      obtain ⟨actions, s, hactions, hrun, hreturned⟩ := ih (Nat.le_of_succ_le hn)
      obtain ⟨actions', s', hactions', hrun', hlast, hother⟩ :=
        exists_return c s (getElem?_eq_getElem hn)
      refine ⟨actions ++ actions', s', forall_mem_append.mpr ⟨hactions, hactions'⟩,
        exec_append hrun hrun', fun thread hthread => ?_⟩
      rcases eq_or_ne thread n with rfl | hne
      · exact hlast
      · rw [hother thread hne]
        exact hreturned thread (by omega)
  obtain ⟨actions, s, hactions, hrun, hreturned⟩ := hfirst regs.length (le_refl _)
  exact ⟨actions, s, hactions, hrun, hreturned⟩

/-! ### Registered instances -/

/-- **Sealed states are instances**: what the calls of a team seal is the topology of an
`InstanceContext` of its devices. -/
theorem exists_instanceContext {t : LayerTopology} (hteam : Team c gpus)
    (h : Completes c (gpus.map registrationOf) actions s)
    (hsealed : s.registration.topology = some t) :
    ∃ inst : InstanceContext ssd, inst.gpus = gpus ∧ inst.topology = t ∧
      inst.tpSize = c.tpSize ∧ inst.pageFirst = c.pageFirst := by
  rw [topology_of_completes hteam h] at hsealed
  have hok : sealTopology c.id c.tpSize c.pageFirst gpus = .ok t := by
    cases hseal : sealTopology c.id c.tpSize c.pageFirst gpus with
    | error err =>
      rw [hseal] at hsealed
      cases hsealed
    | ok t' =>
      rw [hseal] at hsealed
      exact congrArg _ (some.inj hsealed)
  exact ⟨⟨c.id, c.tpSize, c.pageFirst, gpus, t, c.tpSize_pos, hteam.devices, hteam.ranks, hok⟩,
    rfl, rfl, rfl, rfl⟩

/-- **Instances are sealed states**: the devices of an `InstanceContext` can register, and every
run in which all of them return seals its topology. -/
theorem sealed_instanceContext (inst : InstanceContext ssd) (hworkers : 0 < inst.gpus.length) :
    let c : Config :=
      ⟨inst.id, inst.tpSize, inst.gpus.length, inst.pageFirst, inst.tpSize_pos, hworkers⟩
    (∃ actions s, Completes c (inst.gpus.map registrationOf) actions s) ∧
      ∀ actions s, Completes c (inst.gpus.map registrationOf) actions s →
        s.registration.topology = some inst.topology := by
  refine ⟨exists_completes _ _, fun actions s h => ?_⟩
  rw [topology_of_completes ⟨rfl, inst.device_nodup, inst.tpRank_lt⟩ h, inst.sealed]
  rfl

/-- What holds in every state: the topology is sealed exactly when all workers joined; a step that
changes the instance ends its call without an error, and a call that has returned takes no step, so
that a rejected call has changed nothing; and nothing changes a sealed instance. -/
structure Registering (c : Config) (s : State ssd) : Prop where
  sealed_iff : s.registration.topology.isSome ↔
    s.registration.gpuContexts.length = c.worldSize
  rejected : ∀ a s', step c s a = some s' →
    s'.registration = s.registration ∨ s'.calls a.thread = .returned (.ok ())
  returned : ∀ a s', step c s a = some s' → ∀ thread result,
    s.calls thread = .returned result → s'.calls thread = .returned result
  closed : s.registration.topology.isSome → ∀ a s', step c s a = some s' →
    s'.registration = s.registration

/-- **Registration.**  Every interleaving of calls keeps `Registering`.  For every set of as many
acceptable registrations of different devices as the instance has workers, the calls complete in
every order; and every order and interleaving of them seals the same topology, or none seals. -/
theorem registration_order_independent (c : Config) :
    (∀ actions : List (Action ssd), Always (step c) (Registering c) init actions) ∧
    ∀ regs : List (GpuRegistration ssd), regs.length = c.worldSize →
      (regs.map GpuRegistration.deviceId).Nodup → (∀ reg ∈ regs, Acceptable c reg) →
      (∀ regs', Reordered regs regs' → ∃ actions s, Completes c regs' actions s) ∧
      ((∃ t, ∀ regs' actions s, Reordered regs regs' → Completes c regs' actions s →
          s.registration.topology = some t) ∨
        ∀ regs' actions s, Reordered regs regs' → Completes c regs' actions s →
          s.registration.topology = none) := by
  refine ⟨fun actions => ?_, fun regs hlength hdevices hacceptable => ?_⟩
  · have hkeep : ∀ (s : State ssd) a s', Sound c s → step c s a = some s' → Sound c s' :=
      fun s a s' hs hstep => hs.step hstep
    refine (always_of_step hkeep (sound_init c)).mono fun s hs => ?_
    refine ⟨hs.sealed_iff, fun a s' hstep => (steps_of_step hstep).unchanged, ?_, ?_⟩
    · exact fun a s' hstep thread result hreturned => (steps_of_step hstep).returned hreturned
    · exact fun hsealed a s' hstep => closed hsealed hstep
  · refine ⟨fun regs' _ => exists_completes c regs', ?_⟩
    obtain ⟨gpus, rfl, hteam⟩ := exists_team hlength hdevices hacceptable
    have hsame : ∀ regs' actions s, Reordered (gpus.map registrationOf) regs' →
        Completes c regs' actions s → ∃ gpus', Alike gpus gpus' ∧
          s.registration.topology = (sealTopology c.id c.tpSize c.pageFirst gpus').toOption := by
      intro regs' actions s hreordered hcompletes
      have hperm := hreordered.devices
      have hlength' : regs'.length = c.worldSize := by
        rw [← hlength, ← length_map (f := GpuRegistration.deviceId), ← hperm.length_eq,
          length_map]
      obtain ⟨gpus', rfl, hteam'⟩ := exists_team hlength' (hperm.nodup_iff.mp hdevices)
        (hreordered.acceptable hacceptable)
      exact ⟨gpus', hreordered.alike, topology_of_completes hteam' hcompletes⟩
    cases hseal : sealTopology c.id c.tpSize c.pageFirst gpus with
    | ok t =>
      refine .inl ⟨t, fun regs' actions s hreordered hcompletes => ?_⟩
      obtain ⟨gpus', halike, htopology⟩ := hsame regs' actions s hreordered hcompletes
      rw [htopology, sealTopology_alike halike hseal]
      rfl
    | error err =>
      refine .inr fun regs' actions s hreordered hcompletes => ?_
      obtain ⟨gpus', halike, htopology⟩ := hsame regs' actions s hreordered hcompletes
      rw [htopology]
      cases hseal' : sealTopology c.id c.tpSize c.pageFirst gpus' with
      | error err' => rfl
      | ok t => cases hseal.symm.trans (sealTopology_alike halike.symm hseal')

/-- A layer of four blocks of 256 bytes. -/
def oneLayer : RegisteredLayout false :=
  ((LayerRegistration.register false ⟨"a", 4096, 1024, 4, 256, 0, 1, none⟩).toOption).get
    (by decide +kernel)

/-- An instance of two workers. -/
def twoWorkers : Config := ⟨"instance", 2, 2, false, Nat.two_pos, Nat.two_pos⟩

/-- The context of one of the two, which holds the layer. -/
def worker (rank : ℕ) : GpuContext false := .ofLayer "a" oneLayer rank

/-- Both calls pass the first check before either of them joins. -/
def interleaved : List (Action false) :=
  [.call 0 (registrationOf (worker 0)), .call 1 (registrationOf (worker 1)), .build 1 none,
    .build 0 none, .commit 1 [], .commit 0 [worker 1]]

theorem registration_order_independent_two_workers :
    ((exec (step twoWorkers) init interleaved).map fun s =>
      s.registration.topology.map LayerTopology.names) = some (some ["a"]) ∧
    Always (step twoWorkers) (Registering twoWorkers) init interleaved ∧
    ((∃ t, ∀ regs' actions s, Reordered ([worker 0, worker 1].map registrationOf) regs' →
        Completes twoWorkers regs' actions s → s.registration.topology = some t) ∨
      ∀ regs' actions s, Reordered ([worker 0, worker 1].map registrationOf) regs' →
        Completes twoWorkers regs' actions s → s.registration.topology = none) := by
  obtain ⟨halways, horders⟩ := @registration_order_independent false twoWorkers
  have hacceptable : ∀ reg ∈ [worker 0, worker 1].map registrationOf,
      Acceptable twoWorkers reg := by
    intro reg hreg
    obtain ⟨gpu, hgpu, rfl⟩ := mem_map.mp hreg
    have hrank : ∀ gpu ∈ [worker 0, worker 1], gpu.tpRank < 2 := by decide +kernel
    exact ⟨hrank gpu hgpu, gpu.kvCaches_ne_nil, Int.natCast_nonneg _⟩
  exact ⟨by decide +kernel, halways interleaved,
    (horders _ rfl (by decide +kernel) hacceptable).2⟩

end Registration

end PegaFlow.Gpu
