/-
PegaFlow/GpuSealing.lean

Sealing does not depend on the order of the devices.
-/
import Mathlib.Data.List.Pairwise
import PegaFlow.GpuTopology

namespace PegaFlow.Gpu

open List

variable {ssd : Bool} {gpus gpus' : List (GpuContext ssd)}
  {gpu gpu' : GpuContext ssd}

/-! ### The same devices in another order -/

/-- Two contexts of the same ranks and layers; their hash maps may be in different orders. -/
structure SameLayers (gpu gpu' : GpuContext ssd) : Prop where
  tpRank : gpu.tpRank = gpu'.tpRank
  ppRank : gpu.ppRank = gpu'.ppRank
  kvCaches : ∀ e, e ∈ gpu.kvCaches ↔ e ∈ gpu'.kvCaches
  group : ∀ name, gpu.groupOfLayer name = gpu'.groupOfLayer name

theorem SameLayers.refl (gpu : GpuContext ssd) : SameLayers gpu gpu :=
  ⟨rfl, rfl, fun _ => Iff.rfl, fun _ => rfl⟩

theorem SameLayers.symm (h : SameLayers gpu gpu') : SameLayers gpu' gpu :=
  ⟨h.tpRank.symm, h.ppRank.symm, fun e => (h.kvCaches e).symm, fun name => (h.group name).symm⟩

/-- Every device of the first list is in the second. -/
def Within (gpus gpus' : List (GpuContext ssd)) : Prop :=
  ∀ gpu ∈ gpus, ∃ gpu' ∈ gpus', SameLayers gpu gpu'

/-- Two lists of the same devices. -/
def Alike (gpus gpus' : List (GpuContext ssd)) : Prop :=
  Within gpus gpus' ∧ Within gpus' gpus

theorem Alike.symm (h : Alike gpus gpus') : Alike gpus' gpus :=
  ⟨h.2, h.1⟩

theorem alike_of_perm (h : gpus.Perm gpus') : Alike gpus gpus' :=
  ⟨fun gpu hgpu => ⟨gpu, h.mem_iff.mp hgpu, .refl gpu⟩,
    fun gpu hgpu => ⟨gpu, h.mem_iff.mpr hgpu, .refl gpu⟩⟩

/-! ### One value per name -/

variable {name : String} {id : String}

section Collect

variable {V : Type} [DecidableEq V] {err : String → V → V → ℕ → String}
  {es es' : List (String × V × ℕ)} {found : List (String × V)}

theorem collectConsistent_alike (hsame : ∀ name v, Registered es name v ↔ Registered es' name v)
    (h : collectConsistent err es [] = .ok found) :
    ∃ found', collectConsistent err es' [] = .ok found' ∧
      ∀ name, found'.lookup name = found.lookup name := by
  have hagree : ∀ name v v', Registered es' name v → Registered es' name v' → v = v' := by
    intro name v v' hv hv'
    have hlookup := (lookup_collectConsistent h).mpr ((hsame name v).mpr hv)
    have hlookup' := (lookup_collectConsistent h).mpr ((hsame name v').mpr hv')
    exact Option.some.inj (hlookup.symm.trans hlookup')
  obtain ⟨found', h'⟩ := (enters_collectConsistent err es').accepts [] nodup_nil
    (fun name v v' _ => hagree name v v') nofun
  refine ⟨found', h', fun name => Option.ext fun v => ?_⟩
  rw [lookup_collectConsistent h', lookup_collectConsistent h, hsame]

theorem mem_names (h : collectConsistent err es [] = .ok found) :
    name ∈ found.map Prod.fst ↔ ∃ v, Registered es name v := by
  constructor
  · intro hmem
    cases hlookup : found.lookup name with
    | none => exact absurd hmem (notMem_of_lookup hlookup)
    | some v => exact ⟨v, (lookup_collectConsistent h).mp hlookup⟩
  · rintro ⟨v, hv⟩
    have hlookup := (lookup_collectConsistent h).mpr hv
    exact mem_map.mpr ⟨_, GpuContext.mem_of_lookup hlookup, rfl⟩

theorem mem_values (h : collectConsistent err es [] = .ok found) {v : V} :
    v ∈ found.map Prod.snd ↔ ∃ name, Registered es name v := by
  constructor
  · intro hmem
    obtain ⟨p, hp, rfl⟩ := mem_map.mp hmem
    obtain ⟨before, after, rfl⟩ := append_of_mem hp
    refine ⟨p.1, (lookup_collectConsistent h).mp (lookup_eq_some_iff.mpr ⟨before, after, rfl, ?_⟩)⟩
    have hnodup := nodup_collectConsistent h
    rw [map_append, nodup_append] at hnodup
    intro e he
    simpa using (hnodup.2.2 e.1 (mem_map_of_mem he) p.1 mem_cons_self).symm
  · rintro ⟨name, hv⟩
    have hlookup := (lookup_collectConsistent h).mpr hv
    exact mem_map.mpr ⟨_, GpuContext.mem_of_lookup hlookup, rfl⟩

end Collect

section Entries

variable {gpus gpus' : List (GpuContext ssd)}

theorem Within.geometry (h : Within gpus gpus') {g : Geometry}
    (hg : Registered (geometryEntries gpus) name g) :
    Registered (geometryEntries gpus') name g := by
  obtain ⟨_, hmem, rfl, rfl⟩ := hg
  obtain ⟨gpu, hgpu, hmem⟩ := mem_flatMap.mp hmem
  obtain ⟨e, he, rfl⟩ := mem_map.mp hmem
  obtain ⟨gpu', hgpu', hsame⟩ := h gpu hgpu
  exact ⟨_, mem_geometryEntries hgpu' ((hsame.kvCaches e).mp he), rfl, rfl⟩

theorem Within.group (h : Within gpus gpus') {g : ℕ} (hg : Registered (groupEntries gpus) name g) :
    Registered (groupEntries gpus') name g := by
  obtain ⟨_, hmem, rfl, rfl⟩ := hg
  obtain ⟨gpu, hgpu, hmem⟩ := mem_flatMap.mp hmem
  obtain ⟨e, he, rfl⟩ := mem_map.mp hmem
  obtain ⟨gpu', hgpu', hsame⟩ := h gpu hgpu
  exact ⟨_, mem_flatMap.mpr ⟨gpu', hgpu', mem_map.mpr
    ⟨e, (hsame.kvCaches e).mp he, rfl⟩⟩, rfl, hsame.group e.1⟩

theorem sorted_names_eq {xs ys : List String} (hxs : xs.Nodup) (hys : ys.Nodup)
    (hmem : ∀ name, name ∈ xs ↔ name ∈ ys) :
    xs.insertionSort (· ≤ ·) = ys.insertionSort (· ≤ ·) := by
  have hperm : xs.Perm ys := (perm_ext_iff_of_nodup hxs hys).mpr hmem
  refine List.Perm.eq_of_sortedLE sortedLE_insertionSort sortedLE_insertionSort ?_
  exact (perm_insertionSort _ xs).trans (hperm.trans (perm_insertionSort _ ys).symm)

variable {xs : List ℕ} {ys : List ℕ}

theorem foldl_max_le {m b : ℕ} (hm : m ≤ b) (hxs : ∀ x ∈ xs, x ≤ b) : xs.foldl max m ≤ b := by
  induction xs generalizing m with
  | nil => exact hm
  | cons x xs ih =>
    exact ih (Nat.max_le.mpr ⟨hm, hxs x mem_cons_self⟩)
      fun y hy => hxs y (mem_cons_of_mem x hy)

theorem foldl_max_eq (hmem : ∀ g, g ∈ xs ↔ g ∈ ys) : xs.foldl max 0 = ys.foldl max 0 :=
  Nat.le_antisymm
    (foldl_max_le (Nat.zero_le _) fun x hx => le_foldl_max (.inl ((hmem x).mp hx)))
    (foldl_max_le (Nat.zero_le _) fun y hy => le_foldl_max (.inl ((hmem y).mpr hy)))

theorem length_dedup_eq (hmem : ∀ g, g ∈ xs ↔ g ∈ ys) : xs.dedup.length = ys.dedup.length := by
  refine List.Perm.length_eq ?_
  refine (perm_ext_iff_of_nodup (nodup_dedup xs) (nodup_dedup ys)).mpr fun g => ?_
  rw [mem_dedup, mem_dedup, hmem]

end Entries

/-! ### One stage per cell -/

section Owners

variable {names : List String} {tpSize : ℕ} {gpus gpus' : List (GpuContext ssd)}

/-- The cell of a layer and the rank of a device. -/
def cell (names : List String) (tpSize : ℕ) (gpu : GpuContext ssd) (name : String) : ℕ :=
  names.idxOf name * tpSize + gpu.tpRank

/-- Some device of the pipeline stage claims the cell. -/
def Claimed (names : List String) (tpSize : ℕ) (gpus : List (GpuContext ssd))
    (grid ppRank : ℕ) : Prop :=
  ∃ gpu ∈ gpus, ∃ name ∈ gpu.kvCaches.map Prod.fst,
    grid = cell names tpSize gpu name ∧ ppRank = gpu.ppRank

variable {grid : ℕ}

theorem Within.claimed (h : Within gpus gpus') {ppRank : ℕ}
    (hclaimed : Claimed names tpSize gpus grid ppRank) :
    Claimed names tpSize gpus' grid ppRank := by
  obtain ⟨gpu, hgpu, name, hname, rfl, rfl⟩ := hclaimed
  obtain ⟨gpu', hgpu', hsame⟩ := h gpu hgpu
  obtain ⟨e, he, rfl⟩ := mem_map.mp hname
  refine ⟨gpu', hgpu', e.1, mem_map_of_mem ((hsame.kvCaches e).mp he), ?_, hsame.ppRank⟩
  rw [cell, cell, hsame.tpRank]

/-- The stages that own the cells of a grid. -/
abbrev ownerTable (n : ℕ) : ClaimTable (List (Option (ℕ × ℕ))) ℕ ℕ where
  inv owners := owners.length = n
  read owners grid := (cells owners grid).map Prod.snd
  room grid := grid < n
  room_of_read := by
    rintro owners grid rank rfl h
    obtain ⟨owner, howner, -⟩ := Option.map_eq_some_iff.mp h
    exact (List.getElem?_eq_some_iff.mp (cells_eq_some.mp howner)).1

theorem enters_claimOwner (n : ℕ) (gpu : GpuContext ssd) (name : String) :
    (ownerTable n).Enters (fun grid rank => grid = cell names tpSize gpu name ∧ rank = gpu.ppRank)
      (claimOwners names tpSize gpu [name]) := by
  refine ⟨fun owners owners' hlength h => ?_, fun owners _ _ hread => ?_⟩
  · rw [claimOwners] at h
    split at h
    · next hfree =>
      cases h
      refine ⟨length_set.trans hlength, .one (congrArg (Option.map _) hfree) fun grid => ?_⟩
      show (cells (owners.set _ _) grid).map Prod.snd = _
      rw [cells_set, apply_ite (Option.map Prod.snd), hlength]
      rfl
    · next owner howner =>
      obtain ⟨hrank, h⟩ := ite_error_ok h
      cases h
      refine ⟨hlength, fun _ _ => id, ?_, fun _ _ => .inl⟩
      rintro grid rank ⟨rfl, rfl⟩ -
      exact (congrArg (Option.map _) howner).trans (congrArg some (not_ne_iff.mp hrank))
  · rw [claimOwners]
    split
    · exact ⟨_, rfl⟩
    · next owner howner =>
      have hrank := hread _ _ _ (congrArg (Option.map Prod.snd) howner) ⟨rfl, rfl⟩
      exact ⟨owners, if_neg (not_ne_iff.mpr hrank)⟩

theorem enters_claimAll (names : List String) (tpSize n : ℕ) (gpus : List (GpuContext ssd)) :
    (ownerTable n).Enters (Claimed names tpSize gpus) fun owners => gpus.foldlM
      (fun owners gpu => claimOwners names tpSize gpu (gpu.kvCaches.map Prod.fst) owners)
      owners := by
  refine .loop (fun gpus owners => gpus.foldlM _ owners) (fun gpu owners => _) (fun _ => rfl)
    (fun gpu gpus owners => foldlM_cons) gpus fun gpu _ => ?_
  refine .loop (claimOwners names tpSize gpu) (fun name => claimOwners names tpSize gpu [name])
    (fun _ => rfl) (fun name layers owners => ?_) _ fun name _ => enters_claimOwner n gpu name
  rw [claimOwners, claimOwners]
  split
  · rfl
  · split <;> rfl

theorem checkOwners_iff : checkOwners id names tpSize gpus = .ok () ↔
    ∀ grid < names.length * tpSize, (∃ rank, Claimed names tpSize gpus grid rank) ∧
      ∀ rank rank', Claimed names tpSize gpus grid rank →
        Claimed names tpSize gpus grid rank' → rank = rank' := by
  have hscan := enters_claimAll names tpSize (names.length * tpSize) gpus
  have hempty : ∀ grid, (ownerTable (names.length * tpSize)).read
      (List.replicate (names.length * tpSize) none) grid = none :=
    fun grid => congrArg (Option.map _) (cells_replicate _ grid)
  constructor
  · intro h grid hgrid
    obtain ⟨owners, howners, h⟩ := bind_ok h
    obtain ⟨hlength, hentered⟩ := hscan.entered _ _ length_replicate howners
    cases hmissing : owners.findIdx? Option.isNone with
    | some missing =>
      rw [hmissing] at h
      cases h
    | none =>
      have hlt : grid < owners.length := hlength ▸ hgrid
      have hsome := findIdx?_eq_none_iff.mp hmissing _ (getElem_mem hlt)
      obtain ⟨owner, howner⟩ := Option.isSome_iff_exists.mp (Option.isNone_eq_false_iff.mp hsome)
      have hcell : cells owners grid = some owner :=
        cells_eq_some.mpr (List.getElem?_eq_some_iff.mpr ⟨hlt, howner⟩)
      refine ⟨⟨owner.2, (hentered.only grid _ (congrArg (Option.map _) hcell)).resolve_left
        fun hold => by rw [hempty] at hold; cases hold⟩, ?_⟩
      intro rank rank' hrank hrank'
      exact Option.some.inj ((hentered.claimed grid rank hrank hgrid).symm.trans
        (hentered.claimed grid rank' hrank' hgrid))
  · intro h
    obtain ⟨owners, howners⟩ := hscan.accepts (List.replicate _ none) length_replicate
      (fun grid rank rank' hgrid => (h grid hgrid).2 rank rank')
      (fun grid rank rank' hold => by rw [hempty] at hold; cases hold)
    obtain ⟨hlength, hentered⟩ := hscan.entered _ _ length_replicate howners
    have hnone : owners.findIdx? Option.isNone = none := by
      refine findIdx?_eq_none_iff.mpr fun entry hmem => ?_
      obtain ⟨grid, hgrid, rfl⟩ := getElem_of_mem hmem
      obtain ⟨rank, hrank⟩ := (h grid (hlength ▸ hgrid)).1
      obtain ⟨owner, howner, -⟩ := Option.map_eq_some_iff.mp
        (hentered.claimed grid rank hrank (hlength ▸ hgrid))
      rw [(List.getElem?_eq_some_iff.mp (cells_eq_some.mp howner)).2]
      rfl
    simp [checkOwners, howners, hnone, bind, Except.bind]

end Owners

/-! ### Shards -/

section Shards

variable {names : List String} {sets sets' : List (List ℕ)}

/-- The smallest layer of a shard. -/
def firstLayer (set : List ℕ) : ℕ := set.headD (usizeLimit - 1)

theorem sorted_shardsOf (sets : List (List ℕ)) :
    (shardsOf sets).Pairwise fun a b => firstLayer a ≤ firstLayer b := by
  exact pairwise_insertionSort (fun a b : List ℕ => firstLayer a ≤ firstLayer b) _

theorem shardsOf_eq (hmem : ∀ set, set ∈ sets ↔ set ∈ sets') (hne : ∀ set ∈ sets, set ≠ [])
    (hapart : (shardsOf sets).Pairwise fun a b => ∀ x ∈ a, x ∉ b) :
    shardsOf sets = shardsOf sets' := by
  have hperm : (shardsOf sets).Perm (shardsOf sets') := by
    refine (perm_ext_iff_of_nodup (nodup_shardsOf sets) (nodup_shardsOf sets')).mpr ?_
    intro set
    rw [mem_shardsOf, mem_shardsOf, hmem]
  have hfirst : ∀ set ∈ shardsOf sets, firstLayer set ∈ set := by
    intro set hset
    obtain ⟨x, rest, rfl⟩ := exists_cons_of_ne_nil (hne set (mem_shardsOf.mp hset))
    exact mem_cons_self
  refine List.Perm.eq_of_pairwise ?_ (sorted_shardsOf sets) (sorted_shardsOf sets') hperm
  intro a b ha hb hab hba
  have hb := hperm.mem_iff.mpr hb
  by_contra hdiffer
  have : Std.Symm fun a b : List ℕ => ∀ x ∈ a, x ∉ b := ⟨fun a b h x hx hx' => h x hx' hx⟩
  refine hapart.forall ha hb hdiffer (firstLayer a) (hfirst a ha) ?_
  rw [le_antisymm hab hba]
  exact hfirst b hb

theorem buildPageLayout_congr (hshards : shardsOf sets = shardsOf sets') {padded : List ℕ}
    {p : PageLayout} (h : buildPageLayout sets names padded = .ok p) :
    buildPageLayout sets' names padded = .ok p := by
  unfold buildPageLayout at h
  split at h
  · cases h
  · next marks hmarks =>
    have hclaim : claimShards names (shardsOf sets') 0 (replicate names.length none) =
        .ok marks := by rw [← hshards, hmarks]
    split at h
    · cases h
    · next hgap =>
      rw [← Except.ok.inj h]
      unfold buildPageLayout
      split
      · next err herr => cases hclaim.symm.trans herr
      · next marks' hmarks' =>
        obtain rfl := Except.ok.inj (hclaim.symm.trans hmarks')
        split
        · next hgap' => cases hgap.symm.trans hgap'
        · simp only [hshards]

end Shards

/-! ### Sealing -/

section Sealing

variable {gpus gpus' : List (GpuContext ssd)} {names : List String} {pageFirst : Bool}

theorem SameLayers.layerSet (h : SameLayers gpu gpu') (names : List String) :
    layerSet names gpu = layerSet names gpu' := by
  refine filter_congr fun id _ => decide_eq_decide.mpr ?_
  simp only [mem_map, h.kvCaches]

theorem Within.layerSets (h : Within gpus gpus') {set : List ℕ}
    (hset : set ∈ gpus.map (layerSet names)) : set ∈ gpus'.map (layerSet names) := by
  obtain ⟨gpu, hgpu, rfl⟩ := mem_map.mp hset
  obtain ⟨gpu', hgpu', hsame⟩ := h gpu hgpu
  exact mem_map.mpr ⟨gpu', hgpu', (hsame.layerSet names).symm⟩

theorem sealPages_alike (halike : Alike gpus gpus')
    {geometryByName geometryByName' : List (String × Geometry)}
    (hlookup : ∀ name, geometryByName'.lookup name = geometryByName.lookup name)
    (hnames : ∀ gpu ∈ gpus, ∀ e ∈ gpu.kvCaches, e.1 ∈ names) {pages : Option PageLayout}
    (h : sealPages pageFirst gpus names geometryByName = .ok pages) :
    sealPages pageFirst gpus' names geometryByName' = .ok pages := by
  unfold sealPages at h ⊢
  simp only [hlookup]
  cases pageFirst with
  | false => exact h
  | true =>
    obtain ⟨p, hbuild, h⟩ := bind_ok h
    have hshards : shardsOf (gpus.map (layerSet names)) =
        shardsOf (gpus'.map (layerSet names)) := by
      refine shardsOf_eq (fun set => ⟨halike.1.layerSets, halike.2.layerSets⟩) ?_ ?_
      · intro set hset
        obtain ⟨gpu, hgpu, rfl⟩ := mem_map.mp hset
        exact layerSet_ne_nil (hnames gpu hgpu)
      · have hlabels := (buildPageLayout_shards hbuild).2
        refine pairwise_iff_getElem.mpr fun i j hi hj hij x hx hx' => ?_
        have hlabel := hlabels i _ (getElem?_eq_getElem hi) x hx
        rw [hlabels j _ (getElem?_eq_getElem hj) x hx'] at hlabel
        exact Nat.ne_of_gt hij (Option.some.inj hlabel)
    rw [buildPageLayout_congr hshards hbuild]
    exact h

/-- **Sealing does not depend on the order of the devices**, nor on the order of the layers within
a device. -/
theorem sealTopology_alike (halike : Alike gpus gpus') {tpSize : ℕ} {t : LayerTopology}
    (h : sealTopology id tpSize pageFirst gpus = .ok t) :
    sealTopology id tpSize pageFirst gpus' = .ok t := by
  have hsealed := sealTopology_sealed h
  obtain ⟨geometryByName, hgeometry, h⟩ := bind_ok h
  obtain ⟨groupByName, hgroup, h⟩ := bind_ok h
  obtain ⟨geometryByName', hgeometry', hlookup⟩ := collectConsistent_alike
    (fun name g => ⟨halike.1.geometry, halike.2.geometry⟩) hgeometry
  obtain ⟨groupByName', hgroup', hlookupGroup⟩ := collectConsistent_alike
    (fun name g => ⟨halike.1.group, halike.2.group⟩) hgroup
  have hnames : (geometryByName'.map Prod.fst).insertionSort (· ≤ ·) =
      (geometryByName.map Prod.fst).insertionSort (· ≤ ·) := by
    refine sorted_names_eq (nodup_collectConsistent hgeometry') (nodup_collectConsistent hgeometry)
      fun name => ?_
    rw [mem_names hgeometry', mem_names hgeometry]
    exact ⟨fun ⟨g, hg⟩ => ⟨g, halike.2.geometry hg⟩, fun ⟨g, hg⟩ => ⟨g, halike.1.geometry hg⟩⟩
  have hgroups : ∀ g, g ∈ groupByName'.map Prod.snd ↔ g ∈ groupByName.map Prod.snd := by
    intro g
    rw [mem_values hgroup', mem_values hgroup]
    exact ⟨fun ⟨n, hn⟩ => ⟨n, halike.2.group hn⟩, fun ⟨n, hn⟩ => ⟨n, halike.1.group hn⟩⟩
  unfold sealTopology
  rw [hgeometry', hgroup']
  dsimp only [Bind.bind, Except.bind]
  rw [hnames, foldl_max_eq hgroups, length_dedup_eq hgroups]
  obtain ⟨hdense, h⟩ := ite_error_ok h
  obtain ⟨hone, h⟩ := ite_error_ok h
  rw [if_neg hdense, if_neg hone]
  obtain ⟨u, howners, h⟩ := bind_ok h
  obtain ⟨pages, hpages, h⟩ := bind_ok h
  cases Except.ok.inj h
  have howners' : checkOwners id ((geometryByName.map Prod.fst).insertionSort (· ≤ ·)) tpSize
      gpus' = .ok () := by
    refine checkOwners_iff.mpr fun grid hgrid => ?_
    obtain ⟨⟨rank, hrank⟩, hunique⟩ := checkOwners_iff.mp howners grid hgrid
    exact ⟨⟨rank, halike.1.claimed hrank⟩, fun r r' hr hr' =>
      hunique r r' (halike.2.claimed hr) (halike.2.claimed hr')⟩
  rw [howners', sealPages_alike halike hlookup hsealed.mem_names hpages]
  simp only [hlookupGroup]

end Sealing

end PegaFlow.Gpu
