/-
PegaFlow/GpuTopology.lean

Instances and the sealing of their topology (`instance.rs`).
-/
import PegaFlow.ClaimTables
import PegaFlow.GpuLayout
import PegaFlow.RunningTotals
import Mathlib.Data.List.Dedup
import Mathlib.Data.List.Sort
import Mathlib.Data.String.Basic

namespace PegaFlow.Gpu

open List

variable {ssd : Bool} {name : String}

/-! ### Devices -/

/-- Per-GPU context: the layers registered on one device. -/
structure GpuContext (ssd : Bool) where
  deviceId : ℕ
  tpRank : ℕ
  ppRank : ℕ
  /-- KV cache layouts by layer name. -/
  kvCaches : List (String × RegisteredLayout ssd)
  /-- Storage group id by layer name; absent means group 0. -/
  layerGroups : List (String × ℕ)
  names_nodup : (kvCaches.map Prod.fst).Nodup
  kvCaches_ne_nil : kvCaches ≠ []
  group_lt : ∀ e ∈ layerGroups, e.2 < 2 ^ 32

namespace GpuContext

/-- A device with one layer, on one TP rank. -/
def ofLayer (layerName : String) (layout : RegisteredLayout ssd) (tpRank : ℕ) :
    GpuContext ssd where
  deviceId := tpRank
  tpRank
  ppRank := 0
  kvCaches := [(layerName, layout)]
  layerGroups := []
  names_nodup := nodup_singleton layerName
  kvCaches_ne_nil := cons_ne_nil _ _
  group_lt := fun _ h => absurd h not_mem_nil

variable (gpu : GpuContext ssd)

def groupOfLayer (layerName : String) : ℕ :=
  (gpu.layerGroups.lookup layerName).getD 0

theorem mem_of_lookup {V : Type*} {es : List (String × V)} {v : V} (h : es.lookup name = some v) :
    (name, v) ∈ es := by
  obtain ⟨before, after, rfl, -⟩ := lookup_eq_some_iff.mp h
  exact mem_append_right _ mem_cons_self

theorem groupOfLayer_lt (layerName : String) : gpu.groupOfLayer layerName < 2 ^ 32 := by
  unfold groupOfLayer
  rcases h : gpu.layerGroups.lookup layerName with - | g
  · exact Nat.two_pow_pos 32
  · exact gpu.group_lt _ (mem_of_lookup h)

end GpuContext

/-! ### Scans over all devices -/

/-- A scan that collects one value per name and rejects two values for one name.  The last
component is the device, for the error. -/
def collectConsistent {V : Type} [DecidableEq V] (err : String → V → V → ℕ → String) :
    List (String × V × ℕ) → List (String × V) → Except String (List (String × V))
  | [], found => .ok found
  | (name, v, device) :: es, found =>
    match found.lookup name with
    | none => collectConsistent err es (found ++ [(name, v)])
    | some existing =>
      if existing = v then collectConsistent err es found
      else .error (err name existing v device)

theorem notMem_of_lookup {V : Type*} {found : List (String × V)} (h : found.lookup name = none) :
    name ∉ found.map Prod.fst := by
  intro hmem
  obtain ⟨p, hp, rfl⟩ := mem_map.mp hmem
  have hne := lookup_eq_none_iff.mp h p hp
  simp at hne

section collectConsistent

variable {V : Type} [DecidableEq V] {err : String → V → V → ℕ → String}
  {es : List (String × V × ℕ)} {found : List (String × V)} {name : String}

/-- The values found so far. -/
abbrev foundTable (V : Type) : ClaimTable (List (String × V)) String V where
  inv found := (found.map Prod.fst).Nodup
  read found name := found.lookup name
  room _ := True
  room_of_read _ _ := trivial

theorem enters_collectOne (err : String → V → V → ℕ → String) (e : String × V × ℕ) :
    (foundTable V).Enters (fun name v => name = e.1 ∧ v = e.2.1) (collectConsistent err [e]) := by
  refine ⟨fun found found' hnodup h => ?_, fun found _ _ hread => ?_⟩
  · rw [collectConsistent] at h
    split at h
    · next hlookup =>
      cases h
      refine ⟨?_, .one hlookup fun name => ?_⟩
      · show ((found ++ [(e.1, e.2.1)]).map Prod.fst).Nodup
        rw [map_append]
        refine nodup_append.mpr ⟨hnodup, nodup_singleton _, ?_⟩
        intro a ha b hb heq
        rw [heq, mem_singleton.mp hb] at ha
        exact notMem_of_lookup hlookup ha
      · show (found ++ [(e.1, e.2.1)]).lookup name = _
        rw [lookup_append, lookup_cons]
        by_cases heq : e.1 = name
        · subst heq
          simp [hlookup]
        · simp [heq, beq_false_of_ne (Ne.symm heq)]
    · next existing hlookup =>
      split at h
      · next heq =>
        cases h
        refine ⟨hnodup, fun _ _ => id, ?_, fun _ _ => .inl⟩
        rintro name v ⟨rfl, rfl⟩ -
        exact heq ▸ hlookup
      · cases h
  · rw [collectConsistent]
    split
    · exact ⟨_, rfl⟩
    · next existing hlookup => exact ⟨found, if_pos (hread _ _ _ hlookup ⟨rfl, rfl⟩)⟩

/-- Some device registered the value for the name. -/
def Registered (es : List (String × V × ℕ)) (name : String) (v : V) : Prop :=
  ∃ e ∈ es, name = e.1 ∧ v = e.2.1

theorem enters_collectConsistent (err : String → V → V → ℕ → String) (es : List (String × V × ℕ)) :
    (foundTable V).Enters (Registered es) (collectConsistent err es) := by
  refine .loop (collectConsistent err) (fun e => collectConsistent err [e]) (fun _ => rfl)
    (fun e es found => ?_) es fun e _ => enters_collectOne err e
  rw [collectConsistent, collectConsistent]
  split
  · rfl
  · split <;> rfl

theorem nodup_collectConsistent (h : collectConsistent err es [] = .ok found) :
    (found.map Prod.fst).Nodup :=
  ((enters_collectConsistent err es).entered [] found nodup_nil h).1

theorem lookup_collectConsistent (h : collectConsistent err es [] = .ok found) {v : V} :
    found.lookup name = some v ↔ Registered es name v := by
  obtain ⟨-, hentered⟩ := (enters_collectConsistent err es).entered [] found nodup_nil h
  exact ⟨fun hv => (hentered.only name v hv).resolve_left nofun,
    fun hv => hentered.claimed name v hv trivial⟩

end collectConsistent

variable (gpus : List (GpuContext ssd))

def geometryEntries : List (String × Geometry × ℕ) :=
  gpus.flatMap fun gpu => gpu.kvCaches.map fun e => (e.1, e.2.geometry, gpu.deviceId)

def groupEntries : List (String × ℕ × ℕ) :=
  gpus.flatMap fun gpu => gpu.kvCaches.map fun e => (e.1, gpu.groupOfLayer e.1, gpu.deviceId)

def geometryError (name : String) (existing new : Geometry) (device : ℕ) : String :=
  s!"layer {name} registered with inconsistent geometry: " ++
  s!"segment_bytes={existing.segmentBytes} split={existing.isSplit} " ++
  s!"padded_block_bytes={existing.paddedBlockBytes} vs segment_bytes={new.segmentBytes} " ++
  s!"split={new.isSplit} padded_block_bytes={new.paddedBlockBytes} on device {device}"

def groupError (name : String) (existing new : ℕ) (device : ℕ) : String :=
  s!"layer {name} registered in storage group {existing} on one device " ++
  s!"but group {new} on device {device}"

/-! ### Owners -/

/-- Claim the grid cells of one device's layers. -/
def claimOwners (names : List String) (tpSize : ℕ) (gpu : GpuContext ssd) :
    List String → List (Option (ℕ × ℕ)) → Except String (List (Option (ℕ × ℕ)))
  | [], owners => .ok owners
  | layerName :: rest, owners =>
    let gridId := names.idxOf layerName * tpSize + gpu.tpRank
    match owners.getD gridId none with
    | none => claimOwners names tpSize gpu rest (owners.set gridId (gpu.deviceId, gpu.ppRank))
    | some (existingDevice, existingPpRank) =>
      if existingPpRank ≠ gpu.ppRank then
        .error (s!"layer {layerName} claimed by different pipeline stages: " ++
          s!"device={existingDevice} pp_rank={existingPpRank}; " ++
          s!"device={gpu.deviceId} pp_rank={gpu.ppRank} tp_rank={gpu.tpRank}")
      else claimOwners names tpSize gpu rest owners

/-- Every `(layer, tp_rank)` cell needs an owner. -/
def checkOwners (id : String) (names : List String) (tpSize : ℕ)
    (gpus : List (GpuContext ssd)) : Except String Unit := do
  let owners ← gpus.foldlM
    (fun owners gpu => claimOwners names tpSize gpu (gpu.kvCaches.map Prod.fst) owners)
    (replicate (names.length * tpSize) none)
  match owners.findIdx? Option.isNone with
  | none => .ok ()
  | some missing =>
    let layer := names.getD (missing / tpSize) ""
    let tpRank := missing % tpSize
    .error (s!"instance {id} has incomplete KV registration: layer {layer} has no owner " ++
      s!"for tp_rank {tpRank} after all {gpus.length} workers registered")

/-! ### Page-first placement -/

/-- Page-first placement.  A shard is the set of layers one writer holds; each shard becomes one
storage slot. -/
structure PageLayout where
  /-- Shard that owns each layer, by layer id. -/
  layerShard : List ℕ
  /-- Byte offset of each layer within its shard's page. -/
  layerOffsets : List ℕ
  /-- Padded byte size of each layer's block. -/
  layerBytes : List ℕ
  /-- Page size of each shard. -/
  shardPageSizes : List ℕ
  shard_lt : ∀ s ∈ layerShard, s < shardPageSizes.length
  /-- The layers of a shard lie back to back, in the order of their ids. -/
  offsets_eq : layerOffsets = runningTotals (layerShard.zip layerBytes) fun _ => 0
  pageSize_eq : ∀ s < shardPageSizes.length,
    shardPageSizes.getD s 0 = totalOf s (layerShard.zip layerBytes)
deriving DecidableEq

namespace PageLayout

/-- Page size of a shard. -/
def shardPageSize (p : PageLayout) (shard : ℕ) : ℕ := p.shardPageSizes.getD shard 0

/-- `(byte offset, padded bytes)` of a layer within its shard's page. -/
def placement (p : PageLayout) (layerId : ℕ) : ℕ × ℕ :=
  (p.layerOffsets.getD layerId 0, p.layerBytes.getD layerId 0)

end PageLayout

/-- Mark the layers of one shard. -/
def claimLayers (names : List String) (shardId : ℕ) :
    List ℕ → List (Option ℕ) → Except String (List (Option ℕ))
  | [], layerShard => .ok layerShard
  | layerId :: rest, layerShard =>
    match layerShard.getD layerId none with
    | some other =>
      let name := names.getD layerId ""
      .error (s!"page-first layer {name} claimed by shards {other} and {shardId}: registered " ++
        "layer sets must be identical (replica) or disjoint (split)")
    | none => claimLayers names shardId rest (layerShard.set layerId (some shardId))

/-- Mark the layers of all shards, numbered from `shardId` on. -/
def claimShards (names : List String) :
    List (List ℕ) → ℕ → List (Option ℕ) → Except String (List (Option ℕ))
  | [], _, layerShard => .ok layerShard
  | layers :: rest, shardId, layerShard => do
    let layerShard ← claimLayers names shardId layers layerShard
    claimShards names rest (shardId + 1) layerShard

variable {marks marks' : List (Option ℕ)} {names : List String} {shardId : ℕ}

theorem claimLayers_entered {ids : List ℕ} (h : claimLayers names shardId ids marks = .ok marks') :
    marks'.length = marks.length ∧ Entered (· < marks.length) (fun x s => x ∈ ids ∧ s = shardId)
      (cells marks) (cells marks') := by
  induction ids generalizing marks with
  | nil =>
    cases Except.ok.inj h
    exact ⟨rfl, .nothing (by simp) _⟩
  | cons layerId ids ih =>
    rw [claimLayers] at h
    split at h
    · cases h
    · next hmark =>
      have hfree : cells marks layerId = none := hmark
      obtain ⟨hlength, hrest⟩ := ih h
      rw [length_set] at hlength hrest
      refine ⟨hlength, (Entered.one hfree fun x => cells_set marks layerId x _).trans hrest ?_⟩
      intro x s
      rw [mem_cons, or_and_right]

variable {sets : List (List ℕ)} {gpu : GpuContext ssd} {padded : List ℕ} {pageFirst : Bool}
  {p : PageLayout}

theorem claimShards_entered (h : claimShards names sets shardId marks = .ok marks') :
    marks'.length = marks.length ∧ Entered (· < marks.length)
      (fun x s => ∃ k set, sets[k]? = some set ∧ x ∈ set ∧ s = shardId + k)
      (cells marks) (cells marks') := by
  induction sets generalizing shardId marks with
  | nil =>
    cases Except.ok.inj h
    exact ⟨rfl, .nothing (by simp) _⟩
  | cons set sets ih =>
    obtain ⟨middle, hset, h⟩ := bind_ok h
    obtain ⟨hlength, hfirst⟩ := claimLayers_entered hset
    obtain ⟨hlength', hrest⟩ := ih h
    rw [hlength] at hlength' hrest
    refine ⟨hlength', hfirst.trans hrest fun x s => ?_⟩
    constructor
    · rintro ⟨_ | k, set', hk, hx, rfl⟩
      · cases Option.some.inj hk
        exact .inl ⟨hx, rfl⟩
      · exact .inr ⟨k, set', hk, hx, by omega⟩
    · rintro (⟨hx, rfl⟩ | ⟨k, set', hk, hx, rfl⟩)
      · exact ⟨0, set, rfl, hx, rfl⟩
      · exact ⟨k + 1, set', hk, hx, by omega⟩

theorem claimShards_marks {n s : ℕ}
    (h : claimShards names sets shardId (replicate n none) = .ok marks) (hs : some s ∈ marks) :
    ∃ k set, sets[k]? = some set ∧ s = shardId + k := by
  obtain ⟨x, hx⟩ := mem_iff_getElem?.mp hs
  rcases (claimShards_entered h).2.only x s (cells_eq_some.mpr hx) with hold | ⟨k, set, hk, -, rfl⟩
  · rw [cells_replicate] at hold
    cases hold
  · exact ⟨k, set, hk, rfl⟩

/-- Distinct registered sets become shards, ordered by minimum layer id. -/
def shardsOf (workerLayerSets : List (List ℕ)) : List (List ℕ) :=
  (workerLayerSets.foldl (fun shards set => if set ∈ shards then shards else shards ++ [set])
    []).insertionSort fun a b => a.headD (usizeLimit - 1) ≤ b.headD (usizeLimit - 1)

theorem foldl_distinct (sets shards : List (List ℕ)) (hshards : shards.Nodup) :
    let distinct := sets.foldl
      (fun shards set => if set ∈ shards then shards else shards ++ [set]) shards
    distinct.Nodup ∧ ∀ set, set ∈ distinct ↔ set ∈ shards ∨ set ∈ sets := by
  induction sets generalizing shards with
  | nil => exact ⟨hshards, fun set => by rw [foldl_nil]; simp⟩
  | cons set sets ih =>
    rw [foldl_cons]
    split
    · next hmem =>
      obtain ⟨hnodup, hiff⟩ := ih shards hshards
      refine ⟨hnodup, fun set' => (hiff set').trans ?_⟩
      rw [mem_cons]
      constructor
      · exact fun h => h.imp id .inr
      · rintro (h | rfl | h)
        · exact .inl h
        · exact .inl hmem
        · exact .inr h
    · next hnew =>
      have hnodup' : (shards ++ [set]).Nodup :=
        nodup_append.mpr ⟨hshards, nodup_singleton set, fun a ha b hb heq =>
          hnew (mem_singleton.mp hb ▸ heq ▸ ha)⟩
      obtain ⟨hnodup, hiff⟩ := ih (shards ++ [set]) hnodup'
      refine ⟨hnodup, fun set' => (hiff set').trans ?_⟩
      rw [mem_append, mem_singleton, mem_cons, or_assoc]

theorem mem_shardsOf {set : List ℕ} : set ∈ shardsOf sets ↔ set ∈ sets := by
  rw [shardsOf, mem_insertionSort, (foldl_distinct sets [] nodup_nil).2]
  simp only [not_mem_nil, false_or]

theorem nodup_shardsOf (sets : List (List ℕ)) : (shardsOf sets).Nodup :=
  (perm_insertionSort _ _).nodup_iff.mpr (foldl_distinct sets [] nodup_nil).1

/-- Build the page-first shard layout from each worker's registered layer-id set.  A page has one
block of each layer of its shard, which a device holds at once: no sum leaves a `usize`. -/
def buildPageLayout (workerLayerSets : List (List ℕ)) (names : List String)
    (paddedBytes : List ℕ) : Except String PageLayout :=
  match h : claimShards names (shardsOf workerLayerSets) 0 (List.replicate names.length none) with
  | .error err => .error err
  | .ok marks =>
    match hgap : marks.findIdx? Option.isNone with
    | some layerId =>
      let name := names.getD layerId ""
      .error s!"page-first layer {name} has no shard owner after sealing"
    | none =>
      let layerShard := marks.map fun mark => mark.getD (usizeLimit - 1)
      let layers := layerShard.zip paddedBytes
      .ok
        { layerShard := layerShard
          layerOffsets := runningTotals layers fun _ => 0
          layerBytes := paddedBytes
          shardPageSizes := (List.range (shardsOf workerLayerSets).length).map (totalOf · layers)
          shard_lt := by
            intro s hs
            obtain ⟨mark, hmark, rfl⟩ := List.mem_map.mp hs
            have hsome : mark.isNone = false := List.findIdx?_eq_none_iff.mp hgap mark hmark
            obtain ⟨s, rfl⟩ := Option.isSome_iff_exists.mp
              (by rw [← Option.not_isNone, hsome]; rfl)
            rw [List.length_map, List.length_range]
            obtain ⟨k, set, hk, rfl⟩ := claimShards_marks h hmark
            rw [Nat.zero_add]
            exact (List.getElem?_eq_some_iff.mp hk).1
          offsets_eq := rfl
          pageSize_eq := by
            intro s hs
            rw [List.length_map, List.length_range] at hs
            rw [List.getD_eq_getElem?_getD, List.getElem?_map, List.getElem?_range hs]
            rfl }

theorem buildPageLayout_ok (h : buildPageLayout sets names padded = .ok p) :
    ∃ marks, claimShards names (shardsOf sets) 0 (List.replicate names.length none) = .ok marks ∧
      p.layerShard = marks.map (·.getD (usizeLimit - 1)) ∧ p.layerBytes = padded ∧
      p.shardPageSizes.length = (shardsOf sets).length := by
  unfold buildPageLayout at h
  split at h
  · cases h
  · next marks hmarks =>
    split at h
    · cases h
    · cases Except.ok.inj h
      refine ⟨marks, hmarks, rfl, rfl, ?_⟩
      rw [length_map, length_range]

/-! ### The topology -/

/-- Dense layer-id space sealed from the union of registered layers.  The id of a layer is its
position in `names`. -/
structure LayerTopology where
  names : List String
  tpSize : ℕ
  /-- Storage group of each layer. -/
  layerGroup : List ℕ
  /-- Number of layers of each storage group. -/
  groupLayerCount : List ℕ
  /-- Rank of each layer within its storage group. -/
  layerGroupRank : List ℕ
  /-- `none` is the layer-first layout. -/
  pageLayout : Option PageLayout
deriving DecidableEq

namespace LayerTopology

variable (t : LayerTopology)

def numLayers : ℕ := t.names.length

def isPageFirst : Bool := t.pageLayout.isSome

def numGroups : ℕ := t.groupLayerCount.length

def groupOfLayer (layerId : ℕ) : ℕ := t.layerGroup.getD layerId 0

def groupTotalSlots (groupId : ℕ) : Except String ℕ :=
  if t.numGroups ≤ groupId then
    .error s!"storage group {groupId} out of range ({t.numGroups} groups)"
  else match t.pageLayout with
    | some p => .ok p.shardPageSizes.length
    | none => .ok (t.groupLayerCount.getD groupId 0 * t.tpSize)

/-- Storage slot of a layer and TP rank. -/
def slotIndex (layerId tpRank : ℕ) : Except String ℕ :=
  if t.numLayers ≤ layerId then
    .error s!"layer_id {layerId} out of range ({t.numLayers} layers)"
  else if t.tpSize ≤ tpRank then
    .error s!"tp_rank {tpRank} out of range (tp_size {t.tpSize})"
  else match t.pageLayout with
    -- the TP rank does not enter
    | some p => .ok (p.layerShard.getD layerId 0)
    | none => .ok (t.layerGroupRank.getD layerId 0 * t.tpSize + tpRank)

end LayerTopology

/-- The layer ids of one device, in order. -/
def layerSet (names : List String) (gpu : GpuContext ssd) : List ℕ :=
  (range names.length).filter fun id => names.getD id "" ∈ gpu.kvCaches.map Prod.fst

theorem layerSet_ne_nil {names : List String} (hnames : ∀ e ∈ gpu.kvCaches, e.1 ∈ names) :
    layerSet names gpu ≠ [] := by
  obtain ⟨e, he⟩ := exists_mem_of_ne_nil _ gpu.kvCaches_ne_nil
  obtain ⟨id, hid, hname⟩ := getElem_of_mem (hnames e he)
  refine ne_nil_of_mem (a := id) (mem_filter.mpr ⟨mem_range.mpr hid, ?_⟩)
  rw [getD_eq_getElem?_getD, getElem?_eq_getElem hid, hname]
  exact decide_eq_true (mem_map_of_mem he)

/-- The page layout of a page-first instance. -/
def sealPages (pageFirst : Bool) (gpus : List (GpuContext ssd)) (names : List String)
    (geometryByName : List (String × Geometry)) : Except String (Option PageLayout) :=
  if pageFirst then do
    let paddedBytes := names.map fun name =>
      ((geometryByName.lookup name).map Geometry.paddedBlockBytes).getD 0
    let p ← buildPageLayout (gpus.map (layerSet names)) names paddedBytes
    .ok (some p)
  else .ok none

/-- Seal the layer-id space from every registered GPU. -/
def sealTopology (id : String) (tpSize : ℕ) (pageFirst : Bool)
    (gpus : List (GpuContext ssd)) : Except String LayerTopology := do
  let geometryByName ← collectConsistent geometryError (geometryEntries gpus) []
  let names := (geometryByName.map Prod.fst).insertionSort (· ≤ ·)
  let groupByName ← collectConsistent groupError (groupEntries gpus) []
  let groups := groupByName.map Prod.snd
  let numGroups := 1 + groups.foldl max 0
  if groups.dedup.length ≠ numGroups then
    .error (s!"storage groups must be dense 0..{numGroups}: an unregistered group " ++
      "would never seal its blocks")
  else if pageFirst ∧ 1 < numGroups then
    .error (s!"page-first storage does not support multiple storage groups " ++
      s!"({numGroups} registered)")
  else do
    checkOwners id names tpSize gpus
    let pageLayout ← sealPages pageFirst gpus names geometryByName
    let layerGroup := names.map fun name => (groupByName.lookup name).getD 0
    .ok
      { names
        tpSize
        layerGroup
        groupLayerCount := (range numGroups).map layerGroup.count
        layerGroupRank := runningTotals (layerGroup.map fun group => (group, 1)) fun _ => 0
        pageLayout }

/-! ### What sealing establishes -/

/-- The facts a page layout has for the devices it was built from. -/
structure PageSealed (t : LayerTopology) (p : PageLayout) : Prop where
  layerShard_length : p.layerShard.length = t.names.length
  layerBytes_length : p.layerBytes.length = t.names.length
  layerBytes_eq : ∀ gpu ∈ gpus, ∀ e ∈ gpu.kvCaches, ∀ id : ℕ, t.names[id]? = some e.1 →
    p.layerBytes[id]? = some e.2.layout.paddedBlockBytes
  /-- Page-first instances have one storage group. -/
  numGroups_eq : t.numGroups = 1
  group_eq_zero : ∀ g ∈ t.layerGroup, g = 0
  /-- There is a layer in every shard. -/
  shard_used : ∀ shard < p.shardPageSizes.length, ∃ id < t.numLayers, p.layerShard.getD id 0 = shard

/-- The facts an accepted topology has for the devices it was sealed from. -/
structure Sealed (tpSize : ℕ) (pageFirst : Bool) (gpus : List (GpuContext ssd))
    (t : LayerTopology) : Prop where
  tpSize_eq : t.tpSize = tpSize
  names_nodup : t.names.Nodup
  mem_names : ∀ gpu ∈ gpus, ∀ e ∈ gpu.kvCaches, e.1 ∈ t.names
  /-- Same name, same stored bytes. -/
  geometry_eq : ∀ gpu ∈ gpus, ∀ gpu' ∈ gpus, ∀ e ∈ gpu.kvCaches, ∀ e' ∈ gpu'.kvCaches,
    e.1 = e'.1 → e.2.geometry = e'.2.geometry
  layerGroup_length : t.layerGroup.length = t.names.length
  group_lt : ∀ g ∈ t.layerGroup, g < 2 ^ 32
  rank_eq : t.layerGroupRank =
    runningTotals (t.layerGroup.map fun group => (group, 1)) fun _ => 0
  groupLayerCount_eq : t.groupLayerCount = (range t.numGroups).map t.layerGroup.count
  gpus_ne_nil : gpus ≠ []
  pageFirst_eq : t.isPageFirst = pageFirst
  pages : ∀ p, t.pageLayout = some p → PageSealed gpus t p

theorem mem_geometryEntries {gpus : List (GpuContext ssd)} (hgpu : gpu ∈ gpus)
    {e : String × RegisteredLayout ssd} (he : e ∈ gpu.kvCaches) :
    (e.1, e.2.geometry, gpu.deviceId) ∈ geometryEntries gpus :=
  mem_flatMap.mpr ⟨gpu, hgpu, mem_map.mpr ⟨e, he, rfl⟩⟩

theorem le_foldl_max {xs : List ℕ} {m x : ℕ} (h : x ∈ xs ∨ x ≤ m) : x ≤ xs.foldl max m := by
  induction xs generalizing m with
  | nil => exact h.resolve_left not_mem_nil
  | cons y ys ih =>
    apply ih
    rcases h with h | h
    · rcases mem_cons.mp h with rfl | h
      · exact .inr (le_max_right _ _)
      · exact .inl h
    · exact .inr (le_trans h (le_max_left _ _))

theorem buildPageLayout_shards {gpus : List (GpuContext ssd)} {names : List String}
    (h : buildPageLayout (gpus.map (layerSet names)) names padded = .ok p) :
    p.layerShard.length = names.length ∧ ∀ (k : ℕ) (set : List ℕ),
      (shardsOf (gpus.map (layerSet names)))[k]? = some set → ∀ x ∈ set,
        p.layerShard[x]? = some k := by
  obtain ⟨marks, hmarks, hshards, -, -⟩ := buildPageLayout_ok h
  obtain ⟨hlength, hentered⟩ := claimShards_entered hmarks
  rw [length_replicate] at hlength hentered
  refine ⟨by rw [hshards, length_map, hlength], ?_⟩
  intro k set hset x hx
  obtain ⟨gpu, -, rfl⟩ := mem_map.mp (mem_shardsOf.mp (mem_of_getElem? hset))
  have hlt : x < names.length := mem_range.mp (mem_of_mem_filter hx)
  have hmark := cells_eq_some.mp (hentered.claimed x (0 + k) ⟨k, _, hset, hx, rfl⟩ hlt)
  rw [hshards, getElem?_map, hmark, zero_add]
  rfl

theorem sealPages_some {gpus : List (GpuContext ssd)} {names : List String}
    {geometryByName : List (String × Geometry)} {pages : Option PageLayout}
    (h : sealPages pageFirst gpus names geometryByName = .ok pages) :
    pages.isSome = pageFirst ∧ ∀ p ∈ pages, buildPageLayout (gpus.map (layerSet names)) names
      (names.map fun name => ((geometryByName.lookup name).map Geometry.paddedBlockBytes).getD 0) =
        .ok p := by
  cases pageFirst
  · cases Except.ok.inj h
    exact ⟨rfl, nofun⟩
  · obtain ⟨p, hbuild, hp⟩ := bind_ok h
    cases Except.ok.inj hp
    exact ⟨rfl, fun p' hp' => Option.some.inj hp' ▸ hbuild⟩

/-- **What an accepted topology satisfies.** -/
theorem sealTopology_sealed {id : String} {tpSize : ℕ} {gpus : List (GpuContext ssd)}
    {t : LayerTopology} (h : sealTopology id tpSize pageFirst gpus = .ok t) :
    Sealed tpSize pageFirst gpus t := by
  obtain ⟨geometryByName, hgeometry, h⟩ := bind_ok h
  obtain ⟨groupByName, hgroup, h⟩ := bind_ok h
  obtain ⟨hdense, h⟩ := ite_error_ok h
  obtain ⟨hone, h⟩ := ite_error_ok h
  obtain ⟨u, -, h⟩ := bind_ok h
  obtain ⟨pageLayout, hpages, h⟩ := bind_ok h
  cases Except.ok.inj h
  obtain ⟨hfirst, hpages⟩ := sealPages_some hpages
  have hperm := perm_insertionSort (· ≤ ·) (geometryByName.map Prod.fst)
  have hentry : ∀ gpu ∈ gpus, ∀ e ∈ gpu.kvCaches,
      geometryByName.lookup e.1 = some e.2.geometry := fun gpu hgpu e he =>
    (lookup_collectConsistent hgeometry).mpr ⟨_, mem_geometryEntries hgpu he, rfl, rfl⟩
  have hnames : ∀ gpu ∈ gpus, ∀ e ∈ gpu.kvCaches,
      e.1 ∈ (geometryByName.map Prod.fst).insertionSort (· ≤ ·) := fun gpu hgpu e he =>
    hperm.mem_iff.mpr (mem_map.mpr ⟨_, GpuContext.mem_of_lookup (hentry gpu hgpu e he), rfl⟩)
  have hcount : ∀ {n : ℕ} {f : ℕ → ℕ}, ((range n).map f).length = n := by simp
  refine ⟨rfl, hperm.nodup_iff.mpr (nodup_collectConsistent hgeometry), hnames, ?_, length_map _,
    ?_, rfl, ?_, ?_, hfirst, ?_⟩
  · intro gpu hgpu gpu' hgpu' e he e' he' hname
    have hlookup := hentry gpu hgpu e he
    rw [hname, hentry gpu' hgpu' e' he'] at hlookup
    exact (Option.some.inj hlookup).symm
  · -- the groups are those the devices sent
    intro g hg
    obtain ⟨name, -, rfl⟩ := mem_map.mp hg
    cases hlookup : groupByName.lookup name with
    | none => exact Nat.two_pow_pos 32
    | some group =>
      obtain ⟨e, he, -, rfl⟩ := (lookup_collectConsistent hgroup).mp hlookup
      obtain ⟨gpu, -, he⟩ := mem_flatMap.mp he
      obtain ⟨layer, -, rfl⟩ := mem_map.mp he
      exact gpu.groupOfLayer_lt _
  · exact congrArg (fun n => (range n).map _) hcount.symm
  · -- without a device there is no group, and groups are dense from 0 on
    rintro rfl
    cases Except.ok.inj hgroup
    exact hdense (by decide)
  · -- the page layout, if any
    intro p hp
    obtain rfl : pageLayout = some p := hp
    have hbuild := hpages p rfl
    have hmax : (groupByName.map Prod.snd).foldl max 0 = 0 := by
      by_contra hne
      exact hone ⟨hfirst.symm, by omega⟩
    obtain ⟨hlength, hshards⟩ := buildPageLayout_shards hbuild
    obtain ⟨marks, -, -, hbytes, hpages⟩ := buildPageLayout_ok hbuild
    refine ⟨hlength, by rw [hbytes, length_map], ?_, ?_, ?_, ?_⟩
    · intro gpu hgpu e he i hi
      have hi' : (insertionSort (· ≤ ·) (geometryByName.map Prod.fst))[i]? = some e.1 := hi
      rw [hbytes, getElem?_map, hi', Option.map_some, hentry gpu hgpu e he]
      rfl
    · exact hcount.trans (by rw [hmax])
    · intro g hg
      obtain ⟨name, -, rfl⟩ := mem_map.mp hg
      cases hlookup : groupByName.lookup name with
      | none => rfl
      | some group =>
        have hle := le_foldl_max (m := 0)
          (.inl (mem_map_of_mem (f := Prod.snd) (GpuContext.mem_of_lookup hlookup)))
        rw [hmax] at hle
        exact Nat.eq_zero_of_le_zero hle
    · intro shard hshard
      rw [hpages] at hshard
      have hset := getElem?_eq_getElem hshard
      obtain ⟨gpu, hgpu, heq⟩ := mem_map.mp (mem_shardsOf.mp (mem_of_getElem? hset))
      obtain ⟨x, hx⟩ := exists_mem_of_ne_nil _ (layerSet_ne_nil (hnames gpu hgpu))
      refine ⟨x, mem_range.mp (mem_of_mem_filter hx), ?_⟩
      rw [getD_eq_getElem?_getD, hshards shard _ hset x (heq ▸ hx)]
      rfl

namespace LayerTopology

variable {t : LayerTopology}

theorem slotIndex_ok {layerId tpRank slot : ℕ} (h : t.slotIndex layerId tpRank = .ok slot) :
    layerId < t.names.length ∧ tpRank < t.tpSize ∧
      ((∃ p, t.pageLayout = some p ∧ slot = p.layerShard.getD layerId 0) ∨
        t.pageLayout = none ∧ slot = t.layerGroupRank.getD layerId 0 * t.tpSize + tpRank) := by
  obtain ⟨hid, h⟩ := ite_error_ok h
  obtain ⟨hrank, h⟩ := ite_error_ok h
  refine ⟨Nat.lt_of_not_le hid, Nat.lt_of_not_le hrank, ?_⟩
  split at h
  · next p hp => exact .inl ⟨p, hp, (Except.ok.inj h).symm⟩
  · next hp => exact .inr ⟨hp, (Except.ok.inj h).symm⟩

end LayerTopology

variable {id id' : ℕ}

section Sealed

variable {tpSize : ℕ} {pageFirst : Bool} {gpus : List (GpuContext ssd)}
  {t : LayerTopology}

section

variable (hs : Sealed tpSize pageFirst gpus t)
include hs

theorem Sealed.group_getElem? (hid : id < t.names.length) :
    t.layerGroup[id]? = some (t.groupOfLayer id) := by
  rw [← hs.layerGroup_length] at hid
  rw [LayerTopology.groupOfLayer, getD_eq_getElem?_getD, getElem?_eq_getElem hid]
  rfl

theorem Sealed.rank_eq_totalOf (hid : id < t.names.length) :
    t.layerGroupRank.getD id 0 =
      totalOf (t.groupOfLayer id) ((t.layerGroup.map fun group => (group, 1)).take id) := by
  have hentry : (t.layerGroup.map fun group => (group, 1))[id]? = some (t.groupOfLayer id, 1) := by
    rw [getElem?_map, hs.group_getElem? hid]
    rfl
  rw [hs.rank_eq, getD_eq_getElem?_getD, getElem?_runningTotals _ hentry]
  exact zero_add _

theorem Sealed.rank_lt_of_lt (hid' : id' < t.names.length)
    (hgroup : t.groupOfLayer id = t.groupOfLayer id') (hlt : id < id') :
    t.layerGroupRank.getD id 0 < t.layerGroupRank.getD id' 0 := by
  have hid : id < t.names.length := lt_trans hlt hid'
  have hentry : (t.layerGroup.map fun group => (group, 1))[id]? = some (t.groupOfLayer id, 1) := by
    rw [getElem?_map, hs.group_getElem? hid]
    rfl
  rw [hs.rank_eq_totalOf hid, hs.rank_eq_totalOf hid', ← hgroup]
  exact totalOf_take_add_le hentry hlt

theorem Sealed.rank_injective (hid : id < t.names.length) (hid' : id' < t.names.length)
    (hgroup : t.groupOfLayer id = t.groupOfLayer id')
    (hrank : t.layerGroupRank.getD id 0 = t.layerGroupRank.getD id' 0) : id = id' := by
  rcases Nat.lt_trichotomy id id' with hlt | heq | hgt
  · exact absurd hrank (hs.rank_lt_of_lt hid' hgroup hlt).ne
  · exact heq
  · exact absurd hrank (hs.rank_lt_of_lt hid hgroup.symm hgt).ne'

theorem Sealed.slotIndex_injective (hpage : t.pageLayout = none) {r r' slot : ℕ}
    (hgroup : t.groupOfLayer id = t.groupOfLayer id') (h : t.slotIndex id r = .ok slot)
    (h' : t.slotIndex id' r' = .ok slot) : id = id' ∧ r = r' := by
  obtain ⟨hid, hr, hslot⟩ := LayerTopology.slotIndex_ok h
  obtain ⟨hid', hr', hslot'⟩ := LayerTopology.slotIndex_ok h'
  rcases hslot with ⟨p, hp, -⟩ | ⟨-, hslot⟩
  · rw [hpage] at hp; cases hp
  rcases hslot' with ⟨p, hp, -⟩ | ⟨-, hslot'⟩
  · rw [hpage] at hp; cases hp
  have hpos : 0 < t.tpSize := Nat.lt_of_le_of_lt (Nat.zero_le _) hr
  have hdiv : ∀ {x y : ℕ}, y < t.tpSize → (x * t.tpSize + y) / t.tpSize = x := by
    intro x y hy
    rw [Nat.add_comm, Nat.add_mul_div_right _ _ hpos, Nat.div_eq_of_lt hy, Nat.zero_add]
  have hrank : t.layerGroupRank.getD id 0 = t.layerGroupRank.getD id' 0 := by
    have hquot := congrArg (· / t.tpSize) (hslot.symm.trans hslot')
    simpa only [hdiv hr, hdiv hr'] using hquot
  refine ⟨hs.rank_injective hid hid' hgroup hrank, ?_⟩
  rw [hslot, hrank] at hslot'
  omega

end

end Sealed

/-! ### Pages -/

section Pages

variable {gpus : List (GpuContext ssd)} {t : LayerTopology} {p : PageLayout}

section

variable (hs : PageSealed gpus t p)
include hs

variable (hid : id < t.names.length)
include hid

theorem PageSealed.layer_getElem? :
    (p.layerShard.zip p.layerBytes)[id]? =
      some (p.layerShard.getD id 0, p.layerBytes.getD id 0) := by
  have hshard : p.layerShard[id]? = some (p.layerShard.getD id 0) := by
    rw [getD_eq_getElem?_getD, getElem?_eq_getElem (hs.layerShard_length ▸ hid)]
    rfl
  have hbytes : p.layerBytes[id]? = some (p.layerBytes.getD id 0) := by
    rw [getD_eq_getElem?_getD, getElem?_eq_getElem (hs.layerBytes_length ▸ hid)]
    rfl
  rw [getElem?_zip_eq_some]
  exact ⟨hshard, hbytes⟩

theorem PageSealed.offset_eq :
    (p.placement id).1 =
      totalOf (p.layerShard.getD id 0) ((p.layerShard.zip p.layerBytes).take id) := by
  show p.layerOffsets.getD id 0 = _
  rw [p.offsets_eq, getD_eq_getElem?_getD, getElem?_runningTotals _ (hs.layer_getElem? hid)]
  exact zero_add _

theorem PageSealed.placement_inside :
    (p.placement id).1 + (p.placement id).2 ≤
      p.shardPageSize (p.layerShard.getD id 0) := by
  have hmem : p.layerShard.getD id 0 ∈ p.layerShard := by
    rw [getD_eq_getElem?_getD, getElem?_eq_getElem (hs.layerShard_length ▸ hid)]
    exact getElem_mem _
  rw [hs.offset_eq hid, PageLayout.shardPageSize, p.pageSize_eq _ (p.shard_lt _ hmem)]
  exact totalOf_take_add_le_totalOf (hs.layer_getElem? hid)

theorem PageSealed.placement_apart (hid' : id' < t.names.length) (hne : id ≠ id')
    (hshard : p.layerShard.getD id 0 = p.layerShard.getD id' 0) :
    RangesApart (p.placement id).1 (p.placement id).2
      (p.placement id').1 (p.placement id').2 := by
  rw [hs.offset_eq hid, hs.offset_eq hid', ← hshard]
  rcases Nat.lt_or_gt_of_ne hne with hlt | hgt
  · exact .inl (totalOf_take_add_le (hs.layer_getElem? hid) hlt)
  · have hentry := hs.layer_getElem? hid'
    rw [← hshard] at hentry
    exact .inr (totalOf_take_add_le hentry hgt)

end

end Pages

/-! ### Instances -/

/-- A fully registered instance: its workers and the topology the last of them sealed. -/
structure InstanceContext (ssd : Bool) where
  id : String
  tpSize : ℕ
  pageFirst : Bool
  gpus : List (GpuContext ssd)
  topology : LayerTopology
  tpSize_pos : 0 < tpSize
  device_nodup : (gpus.map GpuContext.deviceId).Nodup
  tpRank_lt : ∀ gpu ∈ gpus, gpu.tpRank < tpSize
  sealed : sealTopology id tpSize pageFirst gpus = .ok topology

namespace InstanceContext

variable (inst : InstanceContext ssd)

theorem isSealed : Sealed inst.tpSize inst.pageFirst inst.gpus inst.topology :=
  sealTopology_sealed inst.sealed

end InstanceContext

end PegaFlow.Gpu
