/-
PegaFlow/GpuPlaces.lean

Where a sealed topology puts the layers of a block.

A block of a storage group is cut into slots.  Layer-first, a slot is held by one layer of one TP
rank; page-first, it is the page of a shard, and every layer has a byte range in it.  Both are
read off tables that sealing fills with running totals, so the places of a group leave no gap
(`PlacesComplete`), whatever the topology.
-/
import PegaFlow.GpuSealing

namespace PegaFlow.Gpu

open List LayerTopology

variable {ssd : Bool}

/-! ### Places -/

/-- A slot of a block and, in page-first mode, the offset and length of a range in its page.
Layer-first slots are taken whole. -/
structure Place where
  slot : ℕ
  range : Option (ℕ × ℕ)
deriving DecidableEq, Repr

/-- Two places have nothing in common. -/
def Place.Apart (a b : Place) : Prop :=
  a.slot = b.slot → ∃ r ∈ a.range, ∃ r' ∈ b.range, RangesApart r.1 r.2 r'.1 r'.2

namespace LayerTopology

/-- Where the bytes of a layer on a TP rank are stored. -/
def place (t : LayerTopology) (layerId tpRank : ℕ) : Except String Place := do
  let slot ← t.slotIndex layerId tpRank
  .ok { slot, range := t.pageLayout.map (·.placement layerId) }

/-- Distinct pairs of a layer of the group and a TP rank have disjoint places. -/
def PlacesDisjoint (t : LayerTopology) (group : ℕ) : Prop :=
  ∀ id r id' r' a b, t.groupOfLayer id = group → t.groupOfLayer id' = group →
    (id, r) ≠ (id', r') → t.place id r = .ok a → t.place id' r' = .ok b → a.Apart b

/-- The places of a group are the slots below `totalSlots`, each of them used and, if it is a
page, full. -/
structure PlacesComplete (t : LayerTopology) (group totalSlots : ℕ) : Prop where
  defined : ∀ id < t.numLayers, ∀ r < t.tpSize, ∃ a, t.place id r = .ok a
  inside : ∀ id r a, t.groupOfLayer id = group → t.place id r = .ok a → a.slot < totalSlots
  used : ∀ slot < totalSlots, ∃ id r a, t.groupOfLayer id = group ∧ t.place id r = .ok a ∧
    a.slot = slot
  filled : ∀ p, t.pageLayout = some p → ∀ slot < totalSlots, ∀ byte,
    byte < p.shardPageSize slot ↔
      ∃ id r a, t.groupOfLayer id = group ∧ t.place id r = .ok a ∧ a.slot = slot ∧
        ∃ range ∈ a.range, range.1 ≤ byte ∧ byte < range.1 + range.2

variable {t : LayerTopology} {id r : ℕ}

theorem place_ok {a : Place} (h : t.place id r = .ok a) :
    t.slotIndex id r = .ok a.slot ∧ a.range = t.pageLayout.map (·.placement id) := by
  obtain ⟨slot, hslot, h⟩ := bind_ok h
  cases Except.ok.inj h
  exact ⟨hslot, rfl⟩

theorem place_eq {slot : ℕ} (h : t.slotIndex id r = .ok slot) :
    t.place id r = .ok { slot, range := t.pageLayout.map (·.placement id) } := by
  rw [place, h]
  rfl

theorem slotIndex_layerFirst (hpage : t.pageLayout = none) (hid : id < t.numLayers)
    (hr : r < t.tpSize) : t.slotIndex id r = .ok (t.layerGroupRank.getD id 0 * t.tpSize + r) := by
  unfold slotIndex
  rw [if_neg (not_le.mpr hid), if_neg (not_le.mpr hr), hpage]

section

variable {p : PageLayout} (hpage : t.pageLayout = some p) (hid : id < t.numLayers)
  (hr : r < t.tpSize)
include hpage hid hr

theorem slotIndex_pageFirst :
    t.slotIndex id r = .ok (p.layerShard.getD id 0) := by
  unfold slotIndex
  rw [if_neg (not_le.mpr hid), if_neg (not_le.mpr hr), hpage]

theorem place_pageFirst :
    t.place id r = .ok { slot := p.layerShard.getD id 0, range := some (p.placement id) } := by
  rw [place_eq (slotIndex_pageFirst hpage hid hr), hpage]
  rfl

end

end LayerTopology

/-! ### Completeness -/

section Places

variable {tpSize : ℕ} {pageFirst : Bool} {gpus : List (GpuContext ssd)}
  {t : LayerTopology} {p : PageLayout} {group n : ℕ} {id : ℕ}

theorem LayerTopology.groupTotalSlots_ok (h : t.groupTotalSlots group = .ok n) :
    group < t.numGroups ∧ ((∃ p, t.pageLayout = some p ∧ n = p.shardPageSizes.length) ∨
      t.pageLayout = none ∧ n = t.groupLayerCount.getD group 0 * t.tpSize) := by
  obtain ⟨hgroup, h⟩ := ite_error_ok h
  refine ⟨Nat.lt_of_not_le hgroup, ?_⟩
  split at h
  · next p hp => exact .inl ⟨p, hp, (Except.ok.inj h).symm⟩
  · next hp => exact .inr ⟨hp, (Except.ok.inj h).symm⟩

theorem PageSealed.shard_mem (hp : PageSealed gpus t p) (hid : id < t.names.length) :
    p.layerShard.getD id 0 ∈ p.layerShard := by
  rw [getD_eq_getElem?_getD, getElem?_eq_getElem (hp.layerShard_length ▸ hid)]
  exact getElem_mem _

theorem PageSealed.exists_layer (hp : PageSealed gpus t p) {shard byte : ℕ}
    (hshard : shard < p.shardPageSizes.length) (hbyte : byte < p.shardPageSize shard) :
    ∃ id < t.names.length, p.layerShard.getD id 0 = shard ∧ (p.placement id).1 ≤ byte ∧
      byte < (p.placement id).1 + (p.placement id).2 := by
  rw [PageLayout.shardPageSize, p.pageSize_eq _ hshard] at hbyte
  obtain ⟨id, w, hentry, hrange⟩ := exists_of_lt_totalOf hbyte
  have hid : id < t.names.length := by
    rw [← hp.layerShard_length]
    exact (List.getElem?_eq_some_iff.mp (getElem?_zip_eq_some.mp hentry).1).1
  have hlayer := Option.some.inj ((hp.layer_getElem? hid).symm.trans hentry)
  have hshard' : p.layerShard.getD id 0 = shard := congrArg Prod.fst hlayer
  have hbytes : (p.placement id).2 = w := congrArg Prod.snd hlayer
  refine ⟨id, hid, hshard', ?_⟩
  rwa [hp.offset_eq hid, hshard', hbytes]

section

variable (hs : Sealed tpSize pageFirst gpus t)
include hs

theorem Sealed.count_eq (hgroup : group < t.numGroups) :
    t.groupLayerCount.getD group 0 =
      totalOf group (t.layerGroup.map fun group => (group, 1)) := by
  rw [totalOf_map_one, hs.groupLayerCount_eq, getD_eq_getElem?_getD, getElem?_map,
    getElem?_range hgroup]
  rfl

theorem Sealed.rank_lt (hid : id < t.names.length) (hgroup : t.groupOfLayer id < t.numGroups) :
    t.layerGroupRank.getD id 0 < t.groupLayerCount.getD (t.groupOfLayer id) 0 := by
  rw [hs.rank_eq_totalOf hid, hs.count_eq hgroup]
  refine Nat.lt_of_succ_le (totalOf_take_add_le_totalOf (w := 1) ?_)
  rw [getElem?_map, hs.group_getElem? hid]
  rfl

theorem Sealed.exists_rank (hgroup : group < t.numGroups) {rank : ℕ}
    (hrank : rank < t.groupLayerCount.getD group 0) :
    ∃ id < t.names.length, t.groupOfLayer id = group ∧ t.layerGroupRank.getD id 0 = rank := by
  rw [hs.count_eq hgroup] at hrank
  obtain ⟨id, w, hentry, hle, hlt⟩ := exists_of_lt_totalOf hrank
  rw [getElem?_map] at hentry
  obtain ⟨group', hget, heq⟩ := Option.map_eq_some_iff.mp hentry
  cases heq
  have hid : id < t.names.length := by
    rw [← hs.layerGroup_length]
    exact (List.getElem?_eq_some_iff.mp hget).1
  have hgroup' : t.groupOfLayer id = group :=
    Option.some.inj ((hs.group_getElem? hid).symm.trans hget)
  refine ⟨id, hid, hgroup', ?_⟩
  rw [hs.rank_eq_totalOf hid, hgroup']
  omega

theorem Sealed.placesComplete_layerFirst (hpage : t.pageLayout = none)
    (hgroup : group < t.numGroups) :
    t.PlacesComplete group (t.groupLayerCount.getD group 0 * t.tpSize) where
  defined id hid r hr :=
    ⟨_, place_eq (slotIndex_layerFirst hpage hid hr)⟩
  inside id r a hid ha := by
    have hslot := (place_ok ha).1
    obtain ⟨hlt, hr, ⟨p, hp, -⟩ | ⟨-, hslot⟩⟩ := slotIndex_ok hslot
    · rw [hpage] at hp
      cases hp
    · have hrank := hs.rank_lt hlt (hid ▸ hgroup)
      rw [hid] at hrank
      rw [hslot]
      calc t.layerGroupRank.getD id 0 * t.tpSize + r
          < (t.layerGroupRank.getD id 0 + 1) * t.tpSize := by rw [Nat.succ_mul]; omega
        _ ≤ t.groupLayerCount.getD group 0 * t.tpSize := Nat.mul_le_mul_right _ hrank
  used slot hslot := by
    have hpos : 0 < t.tpSize := Nat.pos_of_mul_pos_left (Nat.zero_lt_of_lt hslot)
    obtain ⟨id, hid, hgroup', hrank⟩ := hs.exists_rank hgroup
      ((Nat.div_lt_iff_lt_mul hpos).mpr hslot)
    refine ⟨id, slot % t.tpSize, _, hgroup', place_eq
      (slotIndex_layerFirst hpage hid (Nat.mod_lt _ hpos)), ?_⟩
    rw [hrank]
    exact Nat.div_add_mod' slot t.tpSize
  filled p hp := by
    rw [hpage] at hp
    cases hp

theorem PageSealed.group_eq (hp : PageSealed gpus t p) (hid : id < t.names.length) :
    t.groupOfLayer id = 0 :=
  hp.group_eq_zero _ (mem_of_getElem? (hs.group_getElem? hid))

theorem Sealed.placesComplete_pageFirst (hpage : t.pageLayout = some p) (hpos : 0 < t.tpSize)
    (hgroup : group < t.numGroups) : t.PlacesComplete group p.shardPageSizes.length := by
  have hp := hs.pages p hpage
  have hgroup : ∀ id < t.names.length, t.groupOfLayer id = group := by
    intro id hid
    have hone := hp.numGroups_eq
    rw [PageSealed.group_eq hs hp hid]
    omega
  have hplace : ∀ id < t.names.length, ∀ r < t.tpSize, t.place id r =
      .ok { slot := p.layerShard.getD id 0, range := some (p.placement id) } :=
    fun id hid r hr => place_pageFirst hpage hid hr
  have hbound : ∀ id r a, t.place id r = .ok a → id < t.names.length ∧ r < t.tpSize := by
    intro id r a ha
    obtain ⟨hid, hr, -⟩ := slotIndex_ok (place_ok ha).1
    exact ⟨hid, hr⟩
  refine ⟨fun id hid r hr => ⟨_, hplace id hid r hr⟩, ?_, ?_, ?_⟩
  · intro id r a _ ha
    obtain ⟨hid, hr⟩ := hbound id r a ha
    cases Except.ok.inj ((hplace id hid r hr).symm.trans ha)
    exact p.shard_lt _ (hp.shard_mem hid)
  · intro slot hslot
    obtain ⟨id, hid, hshard⟩ := hp.shard_used slot hslot
    exact ⟨id, 0, _, hgroup id hid, hplace id hid 0 hpos, hshard⟩
  · intro p' hp' slot hslot byte
    cases Option.some.inj (hpage.symm.trans hp')
    constructor
    · intro hbyte
      obtain ⟨id, hid, hshard, hrange⟩ := hp.exists_layer hslot hbyte
      exact ⟨id, 0, _, hgroup id hid, hplace id hid 0 hpos, hshard, _, rfl, hrange⟩
    · rintro ⟨id, r, a, -, ha, rfl, range, hrange, -, hlt⟩
      obtain ⟨hid, hr⟩ := hbound id r a ha
      cases Except.ok.inj ((hplace id hid r hr).symm.trans ha)
      cases Option.some.inj hrange
      exact lt_of_lt_of_le hlt (hp.placement_inside hid)

/-! ### Disjointness -/

theorem Sealed.placesDisjoint_layerFirst (hpage : t.pageLayout = none) (group : ℕ) :
    t.PlacesDisjoint group := by
  intro id r id' r' a b hid hid' hne ha hb hslot
  have ha := (place_ok ha).1
  have hb := (place_ok hb).1
  rw [hslot] at ha
  obtain ⟨rfl, rfl⟩ := hs.slotIndex_injective hpage (hid.trans hid'.symm) ha hb
  exact absurd rfl hne

theorem Sealed.placesDisjoint_oneRank (hpage : t.pageLayout = some p) (hone : t.tpSize = 1)
    (group : ℕ) : t.PlacesDisjoint group := by
  intro id r id' r' a b _ _ hne ha hb hslot
  obtain ⟨hslota, hra⟩ := place_ok ha
  obtain ⟨hslotb, hrb⟩ := place_ok hb
  obtain ⟨hid, hr, -⟩ := slotIndex_ok hslota
  obtain ⟨hid', hr', -⟩ := slotIndex_ok hslotb
  rw [slotIndex_pageFirst hpage hid hr] at hslota
  rw [slotIndex_pageFirst hpage hid' hr'] at hslotb
  have hshard : p.layerShard.getD id 0 = p.layerShard.getD id' 0 := by
    rw [Except.ok.inj hslota, Except.ok.inj hslotb, hslot]
  have hids : id ≠ id' := by
    rintro rfl
    obtain rfl : r = r' := by omega
    exact hne rfl
  rw [hpage] at hra hrb
  exact ⟨_, hra, _, hrb, (hs.pages p hpage).placement_apart hid hid' hids hshard⟩

theorem Sealed.not_placesDisjoint (hpage : t.pageLayout = some p) (htwo : 1 < t.tpSize)
    (hgroup : group < t.numGroups) : ¬ t.PlacesDisjoint group := by
  intro hdisjoint
  have hp := hs.pages p hpage
  obtain ⟨gpu, hgpu⟩ := exists_mem_of_ne_nil _ hs.gpus_ne_nil
  obtain ⟨e, he⟩ := exists_mem_of_ne_nil _ gpu.kvCaches_ne_nil
  obtain ⟨id, hid, hname⟩ := getElem_of_mem (hs.mem_names gpu hgpu e he)
  have hgroup' : t.groupOfLayer id = group := by
    have hone := hp.numGroups_eq
    rw [PageSealed.group_eq hs hp hid]
    omega
  obtain ⟨range, hrange, range', hrange', hapart⟩ := hdisjoint id 0 id 1 _ _ hgroup' hgroup'
    (by simp) (place_pageFirst hpage hid (by omega))
    (place_pageFirst hpage hid htwo) rfl
  cases Option.some.inj hrange
  cases Option.some.inj hrange'
  -- a layer has at least one byte, so its range is not apart from itself
  have hbytes := hp.layerBytes_eq gpu hgpu e he id
    (List.getElem?_eq_some_iff.mpr ⟨hid, hname⟩)
  have hpositive : 0 < (p.placement id).2 := by
    show 0 < p.layerBytes.getD id 0
    rw [getD_eq_getElem?_getD, hbytes]
    exact Nat.mul_pos
      (Nat.lt_of_lt_of_le e.2.valid.segmentBytes_pos e.2.valid.segment_le_padded)
      e.2.valid.segments_pos
  unfold RangesApart at hapart
  omega

end

end Places

/-! ### The places of an instance -/

namespace InstanceContext

/-- **Storage places.**  The places of a group use every slot of its blocks and fill every page,
and nothing beyond.  They are disjoint exactly if the instance is layer-first or has one TP
rank. -/
theorem storage_places (inst : InstanceContext ssd) (group n : ℕ)
    (hn : inst.topology.groupTotalSlots group = .ok n) :
    inst.topology.PlacesComplete group n ∧
      (inst.topology.PlacesDisjoint group ↔ (inst.pageFirst = true → inst.tpSize = 1)) := by
  have hs := inst.isSealed
  have hpos : 0 < inst.topology.tpSize := by
    rw [hs.tpSize_eq]
    exact inst.tpSize_pos
  obtain ⟨hgroup, ⟨p, hpage, rfl⟩ | ⟨hpage, rfl⟩⟩ := groupTotalSlots_ok hn
  · have hfirst : inst.pageFirst = true := by
      rw [← hs.pageFirst_eq, isPageFirst, hpage]
      rfl
    refine ⟨hs.placesComplete_pageFirst hpage hpos hgroup, fun hdisjoint _ => ?_, fun hone => ?_⟩
    · rw [← hs.tpSize_eq]
      by_contra hne
      exact hs.not_placesDisjoint hpage (by omega) hgroup hdisjoint
    · exact hs.placesDisjoint_oneRank hpage (hs.tpSize_eq.trans (hone hfirst)) group
  · have hfirst : inst.pageFirst = false := by
      rw [← hs.pageFirst_eq, isPageFirst, hpage]
      rfl
    refine ⟨hs.placesComplete_layerFirst hpage hgroup, fun _ htrue => ?_, fun _ => ?_⟩
    · rw [hfirst] at htrue
      cases htrue
    · exact hs.placesDisjoint_layerFirst hpage group

/-- A layer of one block of one byte. -/
def byteLayer : RegisteredLayout false :=
  ((LayerRegistration.register false ⟨"a", 4096, 1, 1, 1, 0, 1, none⟩).toOption).get
    (by decide +kernel)

/-- A worker with the layer, on one TP rank. -/
def byteWorker (tpRank : ℕ) : GpuContext false := .ofLayer "a" byteLayer tpRank

/-- The topology of an instance of these workers, one per TP rank. -/
def byteTopology (tpSize : ℕ) (pageFirst : Bool) : Except String LayerTopology :=
  sealTopology "instance" tpSize pageFirst ((range tpSize).map byteWorker)

/-- Two TP ranks, layer-first or page-first. -/
def twoRanks (pageFirst : Bool) : InstanceContext false where
  id := "instance"
  tpSize := 2
  pageFirst
  gpus := (range 2).map byteWorker
  topology := (byteTopology 2 pageFirst).toOption.get (by cases pageFirst <;> decide +kernel)
  tpSize_pos := by decide
  device_nodup := by decide +kernel
  tpRank_lt := by decide +kernel
  sealed := by cases pageFirst <;> decide +kernel

theorem storage_places_two_ranks :
    (twoRanks false).topology.PlacesComplete 0 2 ∧ (twoRanks false).topology.PlacesDisjoint 0 := by
  obtain ⟨hcomplete, hdisjoint⟩ := storage_places (twoRanks false) 0 2 (by decide +kernel)
  exact ⟨hcomplete, hdisjoint.mpr fun h => nomatch h⟩

theorem page_first_ranks_share_place :
    (twoRanks true).topology.place 0 0 = .ok { slot := 0, range := some (0, 1) } ∧
      (twoRanks true).topology.place 0 1 = .ok { slot := 0, range := some (0, 1) } ∧
      ¬ (twoRanks true).topology.PlacesDisjoint 0 := by
  have h0 : (twoRanks true).topology.place 0 0 = .ok { slot := 0, range := some (0, 1) } := by
    decide +kernel
  have h1 : (twoRanks true).topology.place 0 1 = .ok { slot := 0, range := some (0, 1) } := by
    decide +kernel
  refine ⟨h0, h1, fun hdisjoint => ?_⟩
  obtain ⟨range, hrange, range', hrange', hapart⟩ :=
    hdisjoint 0 0 0 1 _ _ (by decide +kernel) (by decide +kernel) (by decide) h0 h1 rfl
  cases Option.some.inj hrange
  cases Option.some.inj hrange'
  unfold RangesApart at hapart
  omega

end InstanceContext

end PegaFlow.Gpu
