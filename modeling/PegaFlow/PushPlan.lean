/-
PegaFlow/PushPlan.lean

Which decode block each prefill block is pushed to (`pd_connector`).

The decode worker puts the block ids of a request into its handshake, layer by layer,
as a sorted tuple (`buildHandshakeLayers`).  The prefill worker gets its own block ids
in chunks, one per scheduler step that allocated blocks, and pairs every chunk with the
next part of the decode list (`remoteBlockIdMap`), keeping a running offset per physical
request and layer.  Both sides turn the ids into sets first, so what is paired is rank
with rank, not position with position.
-/
import Mathlib.Data.List.Dedup
import PegaFlow.SortedPairs

namespace PegaFlow

open List Function

/-- Block ids of a request, one list per KV cache group. -/
abbrev BlockIds := List (List ℕ)

/-- `PdWorkerBase.block_ids_for_layer`: the ids of the layer's group, as a set. -/
def blockIdsForLayer (groupIdx : ℕ) (blockIds : BlockIds) : List ℕ :=
  (blockIds.getD groupIdx []).dedup

/-! ### Decode side: the handshake -/

structure LayerRemoteLayout where
  layerIdx : ℕ
  blockIds : List ℕ
deriving DecidableEq, Repr

/-- The layers of one rank's handshake.  Layers without blocks are left out. -/
def buildHandshakeLayers (numLayers : ℕ) (layerGroup : ℕ → ℕ) (blockIds : BlockIds) :
    List LayerRemoteLayout :=
  (range numLayers).filterMap fun layerIdx =>
    let ids := blockIdsForLayer (layerGroup layerIdx) blockIds
    if ids = [] then none else some { layerIdx, blockIds := sorted ids }

/-- The wire form: the ids are sent once when all layers share them. -/
structure HandshakeDict where
  layers : List (ℕ × Option (List ℕ))
  blockIds : Option (List ℕ)

variable (layers : List LayerRemoteLayout)

def handshakeToDict : HandshakeDict :=
  match layers with
  | [] => { layers := [], blockIds := none }
  | first :: _ =>
      if layers.all fun layer => layer.blockIds = first.blockIds then
        { layers := layers.map fun layer => (layer.layerIdx, none)
          blockIds := some first.blockIds }
      else
        { layers := layers.map fun layer => (layer.layerIdx, some layer.blockIds)
          blockIds := none }

/-- `handshake_from_dict`; `none` where the source raises `KeyError`. -/
def handshakeFromDict (dict : HandshakeDict) : Option (List LayerRemoteLayout) :=
  dict.layers.mapM fun layer =>
    (layer.2.or dict.blockIds).map fun blockIds => { layerIdx := layer.1, blockIds }

theorem mapM_map_eq_some {α β : Type*} {f : α → β} {g : β → Option α} {xs : List α}
    (h : ∀ x ∈ xs, g (f x) = some x) : (xs.map f).mapM g = some xs := by
  induction xs with
  | nil => rfl
  | cons x xs ih =>
    rw [map_cons, mapM_cons, h x mem_cons_self,
      ih fun y hy => h y (mem_cons_of_mem _ hy)]
    rfl

/-- The prefill side reads what the decode side wrote. -/
theorem handshakeFromDict_toDict : handshakeFromDict (handshakeToDict layers) = some layers := by
  cases layers with
  | nil => rfl
  | cons first rest =>
    unfold handshakeToDict
    dsimp only
    split
    · next hall =>
      have hids : ∀ layer ∈ first :: rest, layer.blockIds = first.blockIds := by
        simpa only [all_eq_true, decide_eq_true_eq] using hall
      refine mapM_map_eq_some fun layer hlayer => ?_
      simp [← hids layer hlayer]
    · exact mapM_map_eq_some fun layer _ => by simp

/-! ### Prefill side: the map of one chunk -/

variable {offset : ℕ} {chunks : List (List ℕ)} (remote : List ℕ) {p : ℕ × ℕ}

/-- `_remote_block_id_map_for_handshake` for one layer whose decode ids are `remote`:
the pairs of this chunk, whether the decode list is now used up, and the new offset. -/
def remoteBlockIdMap (offset : ℕ) (localIds : List ℕ) : (List (ℕ × ℕ) × Bool) × ℕ :=
  let orderedLocal := sorted localIds
  if orderedLocal.length = remote.length then
    ((orderedLocal.zip remote, true), remote.length)
  else if remote.length ≤ offset then
    (([], true), offset)
  else
    let nextOffset := min (offset + orderedLocal.length) remote.length
    let localChunk := orderedLocal.take (nextOffset - offset)
    let remoteChunk := (remote.drop offset).take (nextOffset - offset)
    ((localChunk.zip remoteChunk, nextOffset == remote.length), nextOffset)

/-- The maps of successive chunks of one layer. -/
def mapChunks (remote : List ℕ) : ℕ → List (List ℕ) → List (List (ℕ × ℕ) × Bool)
  | _, [] => []
  | offset, c :: cs =>
      let r := remoteBlockIdMap remote offset c
      r.1 :: mapChunks remote r.2 cs

theorem fst_mem_of_mem_remoteBlockIdMap {remote localIds : List ℕ}
    (hp : p ∈ (remoteBlockIdMap remote offset localIds).1.1) : p.1 ∈ localIds := by
  unfold remoteBlockIdMap at hp
  dsimp only at hp
  split at hp
  · exact mem_sorted.mp (of_mem_zip hp).1
  · split at hp
    · cases hp
    · exact mem_sorted.mp (mem_of_mem_take (of_mem_zip hp).1)

theorem fst_mem_of_mem_mapChunks {remote : List ℕ}
    (hp : p ∈ (mapChunks remote offset chunks).flatMap Prod.fst) : p.1 ∈ chunks.flatten := by
  induction chunks generalizing offset with
  | nil => cases hp
  | cons c cs ih =>
    rcases mem_append.mp hp with hp | hp
    · exact mem_append_left _ (fst_mem_of_mem_remoteBlockIdMap hp)
    · exact mem_append_right _ (ih hp)

theorem mapChunks_take (offset : ℕ) (chunks : List (List ℕ)) (k : ℕ) :
    (mapChunks remote offset chunks).take k = mapChunks remote offset (chunks.take k) := by
  induction chunks generalizing offset k with
  | nil => simp [mapChunks]
  | cons c cs ih =>
    cases k with
    | zero => rfl
    | succ k =>
      simp only [mapChunks, take_succ_cons]
      rw [ih]

/-- Outside the equal-length shortcut, and for a first chunk inside it, a chunk is paired
by rank with what is left of the decode list. -/
theorem remoteBlockIdMap_eq {remote localIds : List ℕ}
    (hlen : localIds.length = remote.length → offset = 0) (hoff : offset ≤ remote.length) :
    remoteBlockIdMap remote offset localIds =
      (((sorted localIds).zip (remote.drop offset),
        decide (remote.length ≤ offset + localIds.length)),
        min (offset + localIds.length) remote.length) := by
  unfold remoteBlockIdMap
  simp only [length_sorted]
  split
  · next heq =>
    rw [hlen heq, heq]
    simp
  · split
    · next hle =>
      have : remote.length = offset := le_antisymm hle hoff
      simp [← this]
    · next hne hgt =>
      have hzip : ∀ k, k = min (sorted localIds).length (remote.drop offset).length →
          ((sorted localIds).take k).zip ((remote.drop offset).take k) =
            (sorted localIds).zip (remote.drop offset) := by
        rintro k rfl
        rw [zip, ← take_zipWith, ← length_zip]
        exact take_length
      rw [hzip _ (by simp only [length_sorted, length_drop]; omega)]
      simp only [Prod.mk.injEq, true_and, and_true]
      rw [Bool.eq_iff_iff, beq_iff_eq, decide_eq_true_eq]
      omega

/-! ### Pairing by position -/

variable {rest : List ℕ} {numLayers : ℕ}

/-- Chunk by chunk, local ids and what is left of the decode ids run in the same order. -/
def InOrder : List ℕ → List (List ℕ) → Prop
  | _, [] => True
  | remote, c :: cs => SameOrder c remote ∧ InOrder (remote.drop c.length) cs

instance InOrder.decidable : ∀ remote chunks, Decidable (InOrder remote chunks)
  | _, [] => .isTrue trivial
  | remote, c :: cs =>
      have := InOrder.decidable (remote.drop c.length) cs
      inferInstanceAs (Decidable (SameOrder c remote ∧ InOrder (remote.drop c.length) cs))

/-- No chunk but the first has the length of the whole decode list. -/
def NoFullLaterChunk (chunks : List (List ℕ)) : Prop :=
  ∀ c ∈ chunks.tail, c.length ≠ remote.length

instance (chunks : List (List ℕ)) : Decidable (NoFullLaterChunk remote chunks) :=
  inferInstanceAs (Decidable (∀ c ∈ chunks.tail, _))

theorem append_zip {α β : Type*} (xs ys : List α) (zs : List β) :
    (xs ++ ys).zip zs = xs.zip zs ++ ys.zip (zs.drop xs.length) := by
  induction xs generalizing zs with
  | nil => rfl
  | cons x xs ih =>
    cases zs with
    | nil => simp
    | cons z zs => simp [ih]

theorem mem_append_iff_of_disjoint {c : List ℕ} (hdisj : c.Disjoint rest)
    {ps ps' qs qs' : List (ℕ × ℕ)} (hps : ∀ p ∈ ps, p.1 ∈ c) (hps' : ∀ p ∈ ps', p.1 ∈ rest)
    (hqs : ∀ p ∈ qs, p.1 ∈ c) (hqs' : ∀ p ∈ qs', p.1 ∈ rest) :
    (∀ p, p ∈ ps ++ ps' ↔ p ∈ qs ++ qs') ↔ (∀ p, p ∈ ps ↔ p ∈ qs) ∧ ∀ p, p ∈ ps' ↔ p ∈ qs' := by
  constructor
  · intro h
    have hsplit := fun p => (by simpa only [mem_append] using h p :
      p ∈ ps ∨ p ∈ ps' ↔ p ∈ qs ∨ p ∈ qs')
    refine ⟨fun p => ⟨fun hp => ?_, fun hp => ?_⟩, fun p => ⟨fun hp => ?_, fun hp => ?_⟩⟩
    · exact ((hsplit p).mp (.inl hp)).resolve_right fun hq => hdisj (hps p hp) (hqs' p hq)
    · exact ((hsplit p).mpr (.inl hp)).resolve_right fun hq => hdisj (hqs p hp) (hps' p hq)
    · exact ((hsplit p).mp (.inr hp)).resolve_left fun hq => hdisj (hqs p hq) (hps' p hp)
    · exact ((hsplit p).mpr (.inr hp)).resolve_left fun hq => hdisj (hps p hq) (hqs' p hp)
  · rintro ⟨h, h'⟩ p
    rw [mem_append, mem_append, h, h']

theorem getElem_notMem_take {xs : List ℕ} (h : xs.Nodup) {k : ℕ} (hk : k < xs.length) :
    xs[k] ∉ xs.take k := by
  intro hmem
  refine disjoint_take_drop h le_rfl hmem ?_
  rw [drop_eq_getElem_cons hk]
  exact mem_cons_self

/-- A later chunk as long as the whole decode list maps ids that have no partner left. -/
theorem not_mem_zip_iff_of_full {chunk remote : List ℕ} (hc : chunk.Nodup)
    (hlen : chunk.length = remote.length) (hrest : rest.length < remote.length) :
    ¬ ∀ p, p ∈ (sorted chunk).zip remote ↔ p ∈ chunk.zip rest := by
  intro h
  have hlt : rest.length < chunk.length := by omega
  obtain ⟨y, hy⟩ : ∃ y, (chunk[rest.length], y) ∈ (sorted chunk).zip remote := by
    refine exists_mem_zip_of_mem_take ?_
    rw [take_of_length_le (by simp [hlen]), mem_sorted]
    exact getElem_mem hlt
  exact getElem_notMem_take hc hlt (fst_mem_take_of_mem_zip ((h _).mp hy))

/-- **Pairs of a run of chunks.**  `rest` is what is left of the decode list in prompt
order, after `offset` ids; the handshake holds it in ascending order. -/
theorem mem_mapChunks_iff {remote : List ℕ} (hremote : 0 < remote.length)
    (hne : ∀ c ∈ chunks, c ≠ []) (hlocal : chunks.flatten.Nodup) (hrest : rest.Nodup)
    (hdrop : remote.drop offset = sorted rest) (hoff : offset ≤ remote.length) :
    (∀ p, p ∈ (mapChunks remote offset chunks).flatMap Prod.fst ↔ p ∈ chunks.flatten.zip rest) ↔
      InOrder rest chunks ∧
        ∀ c ∈ (if offset = 0 then chunks.tail else chunks), c.length ≠ remote.length := by
  induction chunks generalizing rest offset with
  | nil => simp [mapChunks, InOrder]
  | cons c cs ih =>
    have hlenrest : rest.length = remote.length - offset := by
      rw [← length_sorted rest, ← hdrop, length_drop]
    rw [flatten_cons, nodup_append'] at hlocal
    obtain ⟨hc, hcs, hdisj⟩ := hlocal
    -- compare the first chunk and the others separately
    have hsplit : (∀ p, p ∈ (mapChunks remote offset (c :: cs)).flatMap Prod.fst ↔
          p ∈ (c :: cs).flatten.zip rest) ↔
        (∀ p, p ∈ (remoteBlockIdMap remote offset c).1.1 ↔ p ∈ c.zip rest) ∧
        ∀ p, p ∈ (mapChunks remote (remoteBlockIdMap remote offset c).2 cs).flatMap Prod.fst ↔
          p ∈ cs.flatten.zip (rest.drop c.length) := by
      rw [flatten_cons, append_zip, mapChunks]
      exact mem_append_iff_of_disjoint hdisj
        (fun p hp => fst_mem_of_mem_remoteBlockIdMap hp)
        (fun p hp => fst_mem_of_mem_mapChunks hp)
        (fun p hp => (of_mem_zip hp).1) (fun p hp => (of_mem_zip hp).1)
    rw [hsplit]
    by_cases hfull : c.length = remote.length → offset = 0
    · -- paired by rank with the rest of the decode list
      rw [remoteBlockIdMap_eq hfull hoff, hdrop]
      rw [mem_zip_sorted_iff hc hrest, InOrder, and_assoc]
      refine and_congr_right fun hsame => ?_
      have hpos : 0 < c.length := length_pos_iff.mpr (hne c mem_cons_self)
      have hnext : min (offset + c.length) remote.length ≠ 0 := by omega
      have hdrop' : remote.drop (min (offset + c.length) remote.length) =
          sorted (rest.drop c.length) := by
        rw [← (sorted_take_drop hsame.2.2).2, ← hdrop, drop_drop]
        rcases le_total (offset + c.length) remote.length with h | h
        · rw [min_eq_left h]
        · rw [min_eq_right h, drop_length, drop_of_length_le h]
      rw [ih (fun d hd => hne d (mem_cons_of_mem _ hd)) hcs
        (hrest.sublist (drop_sublist _ _)) hdrop' (min_le_right _ _), if_neg hnext]
      refine and_congr_right fun _ => ?_
      split
      · rfl
      · next ho =>
        have hcl : c.length ≠ remote.length := fun h => ho (hfull h)
        simp [hcl]
    · -- the chunk is mistaken for the whole prompt
      push Not at hfull
      obtain ⟨hlen, ho⟩ := hfull
      rw [if_neg ho]
      refine iff_of_false ?_ (fun h => h.2 c mem_cons_self hlen)
      rintro ⟨hpairs, -⟩
      have hfst : (remoteBlockIdMap remote offset c).1.1 = (sorted c).zip remote := by
        simp [remoteBlockIdMap, hlen]
      rw [hfst] at hpairs
      exact not_mem_zip_iff_of_full hc hlen (by omega) hpairs

/-- The flag of a chunk says that as many local ids have come as the decode list has. -/
theorem mapChunks_seen {remote : List ℕ} {k : ℕ} {r : List (ℕ × ℕ) × Bool}
    (hremote : 0 < remote.length) (hne : ∀ c ∈ chunks, c ≠ [])
    (hfull : ∀ c ∈ (if offset = 0 then chunks.tail else chunks), c.length ≠ remote.length)
    (hoff : offset ≤ remote.length) (hr : (mapChunks remote offset chunks)[k]? = some r) :
    r.2 ↔ remote.length ≤ offset + (chunks.take (k + 1)).flatten.length := by
  induction chunks generalizing offset k with
  | nil => simp [mapChunks] at hr
  | cons c cs ih =>
    have hpos : 0 < c.length := length_pos_iff.mpr (hne c mem_cons_self)
    have hc : c.length = remote.length → offset = 0 := by
      intro h
      by_contra ho
      rw [if_neg ho] at hfull
      exact hfull c mem_cons_self h
    rw [mapChunks, remoteBlockIdMap_eq hc hoff] at hr
    cases k with
    | zero =>
      simp only [getElem?_cons_zero, Option.some.injEq] at hr
      rw [← hr]
      simp
    | succ k =>
      have hnext : min (offset + c.length) remote.length ≠ 0 := by omega
      rw [ih (fun d hd => hne d (mem_cons_of_mem _ hd)) ?_ (min_le_right _ _) hr]
      · rw [take_succ_cons, flatten_cons, length_append]
        omega
      · rw [if_neg hnext]
        intro d hd
        refine hfull d ?_
        split
        · exact hd
        · exact mem_cons_of_mem _ hd

theorem forall_mem_exists_zip_iff {xs ys : List ℕ} (hy : ys.Nodup) :
    (∀ y ∈ ys, ∃ x, (x, y) ∈ xs.zip ys) ↔ ys.length ≤ xs.length := by
  constructor
  · intro h
    by_contra hlt
    push Not at hlt
    obtain ⟨x, hx⟩ := h _ (getElem_mem hlt)
    exact getElem_notMem_take hy hlt (fst_mem_take_of_mem_zip (mem_zip_comm.mp hx))
  · intro hle y hmem
    obtain ⟨x, hx⟩ : ∃ x, (y, x) ∈ ys.zip xs :=
      exists_mem_zip_of_mem_take (by rwa [take_of_length_le hle])
    exact ⟨x, mem_zip_comm.mp hx⟩

theorem InOrder.take {remote : List ℕ} (h : InOrder remote chunks) (k : ℕ) :
    InOrder remote (chunks.take k) := by
  induction chunks generalizing remote k with
  | nil => simpa using h
  | cons c cs ih =>
    cases k with
    | zero => trivial
    | succ k => exact ⟨h.1, ih h.2 k⟩

/-- What the connector is meant to do with the local ids `localIds` and the decode ids
`remote`, both in prompt order: the maps of the chunks pair them by position and contain
nothing else, and a chunk is reported as the last one exactly when every decode id has been
mapped by then. -/
def ByPosition (localIds remote : List ℕ) (reports : List (List (ℕ × ℕ) × Bool)) : Prop :=
  (∀ p, p ∈ reports.flatMap Prod.fst ↔ p ∈ localIds.zip remote) ∧
  ∀ k r, reports[k]? = some r →
    (r.2 ↔ ∀ b ∈ remote, ∃ a, (a, b) ∈ (reports.take (k + 1)).flatMap Prod.fst)

/-- **Ranks are positions**, for one layer. -/
theorem byPosition_mapChunks_iff {remote : List ℕ} (hremote : remote ≠ []) (hnodup : remote.Nodup)
    (hne : ∀ c ∈ chunks, c ≠ []) (hlocal : chunks.flatten.Nodup) :
    ByPosition chunks.flatten remote (mapChunks (sorted remote) 0 chunks) ↔
      InOrder remote chunks ∧ NoFullLaterChunk remote chunks := by
  have hpos : 0 < (sorted remote).length := by simpa using length_pos_iff.mpr hremote
  have hpairs := mem_mapChunks_iff hpos hne hlocal hnodup (drop_zero (l := sorted remote))
    (Nat.zero_le _)
  rw [length_sorted] at hpairs
  constructor
  · intro h
    exact hpairs.mp h.1
  · rintro ⟨hord, hfull⟩
    refine ⟨hpairs.mpr ⟨hord, hfull⟩, ?_⟩
    intro k r hr
    -- the first chunks form a run of their own
    have hsub : ∀ c ∈ chunks.take (k + 1), c ≠ [] := fun c hc => hne c (mem_of_mem_take hc)
    have hflat : (chunks.take (k + 1)).flatten.Nodup := by
      rw [← take_append_drop (k + 1) chunks, flatten_append] at hlocal
      exact hlocal.of_append_left
    have hfull' : NoFullLaterChunk remote (chunks.take (k + 1)) := by
      intro c hc
      refine hfull c ?_
      cases chunks with
      | nil => simp at hc
      | cons d ds => exact mem_of_mem_take hc
    have hinit := (mem_mapChunks_iff hpos hsub hflat hnodup
      (drop_zero (l := sorted remote)) (Nat.zero_le _)).mpr
      ⟨hord.take (k + 1), by simpa [NoFullLaterChunk] using hfull'⟩
    rw [mapChunks_seen hpos hne (by simpa [NoFullLaterChunk] using hfull) (Nat.zero_le _) hr,
      length_sorted, Nat.zero_add, ← forall_mem_exists_zip_iff hnodup, mapChunks_take]
    simp only [hinit]

/-! ### The prefill worker: all targets, all layers, all chunks -/

/-- A decode rank this prefill rank writes to: the physical request and the layers of the
rank's handshake. -/
structure PushTarget where
  physicalReqId : String
  layers : List LayerRemoteLayout

/-- Running offsets, per physical request and layer; absent keys read as 0. -/
abbrev RemoteBlockOffsets := String × ℕ → ℕ

/-- `layers_by_idx`: a dict, so the last layer with an index wins. -/
def layersByIdx (layerIdx : ℕ) : Option LayerRemoteLayout :=
  layers.reverse.find? fun layer => layer.layerIdx = layerIdx

/-- The map of one target.  `none` is the assertion on a missing decode layer. -/
def remoteBlockIdMapForHandshake (target : PushTarget) (localIds : List ℕ) (layerIdx : ℕ)
    (offsets : RemoteBlockOffsets) : Option ((List (ℕ × ℕ) × Bool) × RemoteBlockOffsets) :=
  if target.layers = [] then some ((localIds.map fun b => (b, b), true), offsets)
  else
    (layersByIdx target.layers layerIdx).map fun remote =>
      let key := (target.physicalReqId, layerIdx)
      let r := remoteBlockIdMap remote.blockIds (offsets key) localIds
      (r.1, update offsets key r.2)

/-- The maps of all targets, and whether all of them have their last chunk. -/
def remoteBlockIdMaps (localIds : List ℕ) (layerIdx : ℕ) :
    List PushTarget → RemoteBlockOffsets →
      Option ((List (List (ℕ × ℕ)) × Bool) × RemoteBlockOffsets)
  | [], offsets => some (([], true), offsets)
  | target :: targets, offsets => do
      let (one, offsets) ← remoteBlockIdMapForHandshake target localIds layerIdx offsets
      let (others, offsets) ← remoteBlockIdMaps localIds layerIdx targets offsets
      return ((one.1 :: others.1, one.2 && others.2), offsets)

structure PreparedLayerPush where
  reqBlocks : List ℕ
  /-- One block map per target. -/
  targetMaps : List (List (ℕ × ℕ))
  allChunksSeen : Bool

/-- `_prepare_push_layers`: the plan of every layer that has blocks in this chunk. -/
def preparePushLayers (layerGroup : ℕ → ℕ) (targets : List PushTarget) (localBlockIds : BlockIds) :
    List ℕ → RemoteBlockOffsets → Option (List (ℕ × PreparedLayerPush) × RemoteBlockOffsets)
  | [], offsets => some ([], offsets)
  | layerIdx :: layers, offsets => do
      let reqBlocks := blockIdsForLayer (layerGroup layerIdx) localBlockIds
      if reqBlocks = [] then preparePushLayers layerGroup targets localBlockIds layers offsets
      else
        let (maps, offsets) ← remoteBlockIdMaps reqBlocks layerIdx targets offsets
        let (plans, offsets) ←
          preparePushLayers layerGroup targets localBlockIds layers offsets
        return ((layerIdx, { reqBlocks, targetMaps := maps.1, allChunksSeen := maps.2 }) :: plans,
          offsets)

/-- The layer plans of successive `process_push_reqs` calls of one request. -/
def processPushReqs (numLayers : ℕ) (layerGroup : ℕ → ℕ) (targets : List PushTarget) :
    List BlockIds → RemoteBlockOffsets → Option (List (List (ℕ × PreparedLayerPush)))
  | [], _ => some []
  | chunk :: chunks, offsets => do
      let (plans, offsets) ←
        preparePushLayers layerGroup targets chunk (range numLayers) offsets
      let more ← processPushReqs numLayers layerGroup targets chunks offsets
      return plans :: more

/-- What one chunk reported for a layer and a target, if the layer had blocks in it. -/
def layerReport (layerIdx target : ℕ) (plan : List (ℕ × PreparedLayerPush)) :
    Option (List (ℕ × ℕ) × Bool) :=
  (plan.lookup layerIdx).map fun p => (p.targetMaps.getD target [], p.allChunksSeen)

def layerReports (layerIdx target : ℕ) (plans : List (List (ℕ × PreparedLayerPush))) :
    List (List (ℕ × ℕ) × Bool) :=
  plans.filterMap (layerReport layerIdx target)

/-- The chunks of a layer: the ids of its group, where there are any. -/
def layerChunks (groupIdx : ℕ) (chunks : List BlockIds) : List (List ℕ) :=
  (chunks.map (blockIdsForLayer groupIdx)).filter (· ≠ [])

/-- The offset of every target in every layer is the one `off` gives. -/
def OffsetsAt (targets : List PushTarget) (offsets : RemoteBlockOffsets) (off : ℕ → ℕ) : Prop :=
  ∀ t ∈ targets, ∀ layerIdx, offsets (t.physicalReqId, layerIdx) = off layerIdx

theorem all_const {α : Type*} {xs : List α} (hne : xs ≠ []) (b : Bool) :
    (xs.all fun _ => b) = b := by
  cases b with
  | true => simp
  | false => simpa using exists_mem_of_ne_nil xs hne

section Worker

variable {layers : List LayerRemoteLayout} {remote : ℕ → List ℕ} {targets : List PushTarget}
  {offsets : RemoteBlockOffsets} {off : ℕ → ℕ} {layerIdx : ℕ}

/-- Targets with the same handshake layers advance in step. -/
theorem remoteBlockIdMaps_eq (localIds : List ℕ) (hlayers : ∀ t ∈ targets, t.layers = layers)
    (hids : (targets.map PushTarget.physicalReqId).Nodup)
    (hremote : layersByIdx layers layerIdx = some { layerIdx, blockIds := remote layerIdx })
    (hoff : OffsetsAt targets offsets off) :
    ∃ offsets', remoteBlockIdMaps localIds layerIdx targets offsets =
        some ((targets.map fun _ =>
            (remoteBlockIdMap (remote layerIdx) (off layerIdx) localIds).1.1,
          targets.all fun _ => (remoteBlockIdMap (remote layerIdx) (off layerIdx) localIds).1.2),
          offsets') ∧
      OffsetsAt targets offsets' (update off layerIdx
        (remoteBlockIdMap (remote layerIdx) (off layerIdx) localIds).2) ∧
      ∀ key, key.1 ∉ targets.map PushTarget.physicalReqId → offsets' key = offsets key := by
  have hne : layers ≠ [] := by rintro rfl; cases hremote
  set r := remoteBlockIdMap (remote layerIdx) (off layerIdx) localIds with hr
  induction targets generalizing offsets with
  | nil => exact ⟨offsets, rfl, by simp [OffsetsAt], fun _ _ => rfl⟩
  | cons t ts ih =>
    rw [map_cons, nodup_cons] at hids
    -- the head writes its own key only
    set offsets₁ := update offsets (t.physicalReqId, layerIdx) r.2 with hoffsets₁
    have hhead : remoteBlockIdMapForHandshake t localIds layerIdx offsets =
        some (r.1, offsets₁) := by
      have hkey := hoff t mem_cons_self layerIdx
      have hl := hlayers t mem_cons_self
      simp [remoteBlockIdMapForHandshake, hl, hne, hremote, hkey, hr, hoffsets₁]
    have htail : OffsetsAt ts offsets₁ off := by
      intro u hu l
      have hne : u.physicalReqId ≠ t.physicalReqId := by
        intro h
        exact hids.1 (h ▸ mem_map_of_mem hu)
      rw [hoffsets₁, update_of_ne (by simp [hne])]
      exact hoff u (mem_cons_of_mem _ hu) l
    obtain ⟨offsets', hmaps, hoff', hframe⟩ :=
      ih (fun u hu => hlayers u (mem_cons_of_mem _ hu)) hids.2 htail
    refine ⟨offsets', ?_, ?_, ?_⟩
    · simp [remoteBlockIdMaps, hhead, hmaps]
    · intro u hu l
      rcases mem_cons.mp hu with rfl | hu
      · rw [hframe _ hids.1, hoffsets₁]
        by_cases hl : l = layerIdx
        · subst hl; simp
        · rw [update_of_ne (by simp [hl]), update_of_ne hl]
          exact hoff u mem_cons_self l
      · exact hoff' u hu l
    · intro key hkey
      rw [map_cons, mem_cons, not_or] at hkey
      rw [hframe key hkey.2, hoffsets₁, update_of_ne]
      intro h
      exact hkey.1 (by rw [h])

/-- The plan of one layer for a chunk, from the layer's offset alone. -/
def layerPlan (targets : List PushTarget) (remote : List ℕ) (off : ℕ) (reqBlocks : List ℕ) :
    Option PreparedLayerPush :=
  if reqBlocks = [] then none
  else
    let r := remoteBlockIdMap remote off reqBlocks
    some { reqBlocks, targetMaps := targets.map fun _ => r.1.1,
           allChunksSeen := targets.all fun _ => r.1.2 }

/-- The offset of one layer after a chunk. -/
def layerOffset (remote : List ℕ) (off : ℕ) (reqBlocks : List ℕ) : ℕ :=
  if reqBlocks = [] then off else (remoteBlockIdMap remote off reqBlocks).2

/-- Layers do not disturb each other. -/
theorem preparePushLayers_eq (layerGroup : ℕ → ℕ) (chunk : BlockIds) {layerIdxs : List ℕ}
    (hlayers : ∀ t ∈ targets, t.layers = layers)
    (hids : (targets.map PushTarget.physicalReqId).Nodup)
    (hremote : ∀ l ∈ layerIdxs, layersByIdx layers l = some { layerIdx := l, blockIds := remote l })
    (hnodup : layerIdxs.Nodup) (hoff : OffsetsAt targets offsets off) :
    ∃ plans offsets', preparePushLayers layerGroup targets chunk layerIdxs offsets =
        some (plans, offsets') ∧
      OffsetsAt targets offsets' (fun l => if l ∈ layerIdxs then
        layerOffset (remote l) (off l) (blockIdsForLayer (layerGroup l) chunk) else off l) ∧
      ∀ l, plans.lookup l = if l ∈ layerIdxs then
        layerPlan targets (remote l) (off l) (blockIdsForLayer (layerGroup l) chunk) else none := by
  induction layerIdxs generalizing offsets off with
  | nil => exact ⟨[], offsets, rfl, by simpa using hoff, by simp⟩
  | cons l ls ih =>
    rw [nodup_cons] at hnodup
    have hremote' := fun k hk => hremote k (mem_cons_of_mem l hk)
    set ids := blockIdsForLayer (layerGroup l) chunk with hids_def
    by_cases hempty : ids = []
    · -- a layer without blocks in this chunk is skipped
      obtain ⟨plans, offsets', hprep, hoff', hlookup⟩ := ih hremote' hnodup.2 hoff
      refine ⟨plans, offsets', ?_, ?_, ?_⟩
      · rw [preparePushLayers]
        simp [← hids_def, hempty, hprep]
      · intro t ht k
        rw [hoff' t ht k]
        by_cases hk : k = l
        · subst hk; simp [hnodup.1, layerOffset, ← hids_def, hempty]
        · simp [hk]
      · intro k
        rw [hlookup k]
        by_cases hk : k = l
        · subst hk; simp [hnodup.1, layerPlan, ← hids_def, hempty]
        · simp [hk]
    · obtain ⟨offsets₁, hmaps, hoff₁, -⟩ := remoteBlockIdMaps_eq ids hlayers hids
        (hremote l mem_cons_self) hoff
      obtain ⟨plans, offsets', hprep, hoff', hlookup⟩ := ih hremote' hnodup.2 hoff₁
      let plan : PreparedLayerPush :=
        { reqBlocks := ids
          targetMaps := targets.map fun _ => (remoteBlockIdMap (remote l) (off l) ids).1.1
          allChunksSeen := targets.all fun _ => (remoteBlockIdMap (remote l) (off l) ids).1.2 }
      have hplan : layerPlan targets (remote l) (off l) ids = some plan := by
        simp [layerPlan, hempty, plan]
      refine ⟨(l, plan) :: plans, offsets', ?_, ?_, ?_⟩
      · rw [preparePushLayers]
        simp [← hids_def, hempty, hmaps, hprep, plan]
      · intro t ht k
        rw [hoff' t ht k]
        by_cases hk : k = l
        · subst hk; simp [hnodup.1, layerOffset, ← hids_def, hempty]
        · simp [hk]
      · intro k
        by_cases hk : k = l
        · subst hk; simp [← hids_def, hplan]
        · rw [lookup_cons, beq_false_of_ne hk]
          simp [hlookup k, hk]

/-- **One layer of the worker is the run of its own chunks.** -/
theorem processPushReqs_eq (layerGroup : ℕ → ℕ) (chunks : List BlockIds)
    (hlayers : ∀ t ∈ targets, t.layers = layers)
    (hids : (targets.map PushTarget.physicalReqId).Nodup)
    (hremote : ∀ l < numLayers, layersByIdx layers l = some { layerIdx := l, blockIds := remote l })
    (hoff : OffsetsAt targets offsets off) :
    ∃ plans, processPushReqs numLayers layerGroup targets chunks offsets = some plans ∧
      ∀ l < numLayers, ∀ j < targets.length,
        layerReports l j plans =
          mapChunks (remote l) (off l) (layerChunks (layerGroup l) chunks) := by
  induction chunks generalizing offsets off with
  | nil => exact ⟨[], rfl, fun _ _ _ _ => rfl⟩
  | cons chunk chunks ih =>
    obtain ⟨plan, offsets₁, hprep, hoff₁, hlookup⟩ := preparePushLayers_eq layerGroup chunk
      hlayers hids (fun l hl => hremote l (mem_range.mp hl)) nodup_range hoff
    obtain ⟨plans, hrest, hreports⟩ := ih hoff₁
    refine ⟨plan :: plans, by simp [processPushReqs, hprep, hrest], ?_⟩
    intro l hl j hj
    have hall := all_const (ne_nil_of_length_pos (by omega : 0 < targets.length))
    have hmem : l ∈ range numLayers := mem_range.mpr hl
    have htail := hreports l hl j hj
    rw [if_pos hmem] at htail
    unfold layerReports layerChunks at htail ⊢
    rw [map_cons]
    by_cases hempty : blockIdsForLayer (layerGroup l) chunk = []
    · have hnone : layerReport l j plan = none := by
        rw [layerReport, hlookup l, if_pos hmem, layerPlan, if_pos hempty]; rfl
      rw [layerOffset, if_pos hempty] at htail
      rw [filterMap_cons_none hnone, htail, filter_cons_of_neg (by simpa using hempty)]
    · have hsome : layerReport l j plan =
          some (remoteBlockIdMap (remote l) (off l) (blockIdsForLayer (layerGroup l) chunk)).1 := by
        rw [layerReport, hlookup l, if_pos hmem, layerPlan, if_neg hempty]
        simp [hall, hj]
      rw [layerOffset, if_neg hempty] at htail
      rw [filterMap_cons_some hsome, htail, filter_cons_of_pos (by simpa using hempty),
        mapChunks]

end Worker

/-- The handshake of a request lists, for every layer whose group has blocks, the ids of
the group in ascending order. -/
theorem layersByIdx_buildHandshakeLayers {layerGroup : ℕ → ℕ} {blockIds : BlockIds} {l : ℕ}
    (hl : l < numLayers) (hne : blockIdsForLayer (layerGroup l) blockIds ≠ []) :
    layersByIdx (buildHandshakeLayers numLayers layerGroup blockIds) l =
      some { layerIdx := l, blockIds := sorted (blockIdsForLayer (layerGroup l) blockIds) } := by
  set layers := buildHandshakeLayers numLayers layerGroup blockIds with hlayers
  have hmem : { layerIdx := l, blockIds := sorted (blockIdsForLayer (layerGroup l) blockIds) } ∈
      layers.reverse := by
    rw [mem_reverse, hlayers, buildHandshakeLayers, mem_filterMap]
    exact ⟨l, mem_range.mpr hl, by simp [hne]⟩
  rcases hfind : layersByIdx layers l with - | layer
  · have := find?_eq_none.mp hfind _ hmem
    simp at this
  · -- no other layer has this index
    have hidx : layer.layerIdx = l := by simpa using find?_some hfind
    have hin := mem_of_find?_eq_some hfind
    rw [mem_reverse, hlayers, buildHandshakeLayers, mem_filterMap] at hin
    obtain ⟨k, -, hk⟩ := hin
    dsimp only at hk
    split at hk
    · cases hk
    · cases hk
      cases hidx
      rfl

theorem layerChunks_flatten {groupIdx : ℕ} {chunks : List BlockIds}
    (h : (chunks.flatMap fun c => c.getD groupIdx []).Nodup) :
    (layerChunks groupIdx chunks).flatten = chunks.flatMap fun c => c.getD groupIdx [] := by
  have hids : chunks.map (blockIdsForLayer groupIdx) = chunks.map fun c => c.getD groupIdx [] := by
    refine map_congr_left fun c hc => ?_
    exact ((nodup_flatMap.mp h).1 c hc).dedup
  rw [layerChunks, flatten_filter_ne_nil, hids, flatMap_def]

/-- **Block pairing by position.**  A request is prefilled in `chunks`, decoded into
`decodeIds`, and pushed to any decode ranks; every layer's decode ids are non-empty, and on
both sides ids are distinct.  Then the prefill worker produces plans for all chunks, and for
each layer and target these pair local and decode ids by position exactly when, chunk by
chunk, the ids run in the same order on both sides and no later chunk is as long as the
whole decode list. -/
theorem processPushReqs_byPosition_iff (numLayers : ℕ) (prefillGroup decodeGroup : ℕ → ℕ)
    (decodeIds : BlockIds) (chunks : List BlockIds) (targets : List PushTarget)
    (htargets : ∀ t ∈ targets, handshakeFromDict (handshakeToDict
      (buildHandshakeLayers numLayers decodeGroup decodeIds)) = some t.layers)
    (hids : (targets.map PushTarget.physicalReqId).Nodup)
    (hdecode : ∀ l < numLayers, decodeIds.getD (decodeGroup l) [] ≠ [] ∧
      (decodeIds.getD (decodeGroup l) []).Nodup)
    (hlocal : ∀ l < numLayers, (chunks.flatMap fun c => c.getD (prefillGroup l) []).Nodup) :
    ∃ plans, processPushReqs numLayers prefillGroup targets chunks (fun _ => 0) = some plans ∧
      ∀ l < numLayers, ∀ j < targets.length,
        (ByPosition (chunks.flatMap fun c => c.getD (prefillGroup l) [])
            (decodeIds.getD (decodeGroup l) []) (layerReports l j plans) ↔
          InOrder (decodeIds.getD (decodeGroup l) []) (layerChunks (prefillGroup l) chunks) ∧
          NoFullLaterChunk (decodeIds.getD (decodeGroup l) [])
            (layerChunks (prefillGroup l) chunks)) := by
  set remote := fun l => decodeIds.getD (decodeGroup l) [] with hremote
  have hlayers : ∀ t ∈ targets,
      t.layers = buildHandshakeLayers numLayers decodeGroup decodeIds := by
    intro t ht
    have := htargets t ht
    rw [handshakeFromDict_toDict] at this
    exact (Option.some.inj this).symm
  have hdedup : ∀ l < numLayers, blockIdsForLayer (decodeGroup l) decodeIds = remote l :=
    fun l hl => (hdecode l hl).2.dedup
  have hwire : ∀ l < numLayers,
      layersByIdx (buildHandshakeLayers numLayers decodeGroup decodeIds) l =
        some { layerIdx := l, blockIds := sorted (remote l) } := by
    intro l hl
    rw [← hdedup l hl]
    exact layersByIdx_buildHandshakeLayers hl (by rw [hdedup l hl]; exact (hdecode l hl).1)
  have hstart : OffsetsAt targets (fun _ => 0) fun _ => 0 := fun _ _ _ => rfl
  obtain ⟨plans, hplans, hreports⟩ :=
    processPushReqs_eq prefillGroup chunks hlayers hids hwire hstart
  refine ⟨plans, hplans, ?_⟩
  intro l hl j hj
  rw [hreports l hl j hj, ← layerChunks_flatten (hlocal l hl)]
  refine byPosition_mapChunks_iff (hdecode l hl).1 (hdecode l hl).2 ?_ ?_
  · intro c hc
    simpa using (mem_filter.mp hc).2
  · rw [layerChunks_flatten (hlocal l hl)]
    exact hlocal l hl

/-- One decode rank with one layer, listing the decode ids `decodeIds`. -/
def singleTarget (decodeIds : List ℕ) : PushTarget where
  physicalReqId := "r"
  layers := buildHandshakeLayers 1 (fun _ => 0) [decodeIds]

/-- Ascending ids on both sides, cut into two chunks, the last with one id too many. -/
theorem byPosition_ascending :
    ∃ plans, processPushReqs 1 (fun _ => 0) [singleTarget [1, 2, 7]] [[[3, 4]], [[5, 9]]]
        (fun _ => 0) = some plans ∧
      ByPosition [3, 4, 5, 9] [1, 2, 7] (layerReports 0 0 plans) := by
  obtain ⟨plans, hplans, hiff⟩ := processPushReqs_byPosition_iff 1 (fun _ => 0) (fun _ => 0)
    [[1, 2, 7]] [[[3, 4]], [[5, 9]]] [singleTarget [1, 2, 7]] (by decide) (by decide) (by decide)
    (by decide)
  exact ⟨plans, hplans, (hiff 0 (by decide) 0 (by decide)).mpr (by decide)⟩

/-- A prompt in prefill blocks 5, 3 and decode blocks 1, 2: the worker pairs 3 with 1 and
5 with 2. -/
theorem not_byPosition_descending :
    ∃ plans, processPushReqs 1 (fun _ => 0) [singleTarget [1, 2]] [[[5, 3]]] (fun _ => 0) =
        some plans ∧
      ¬ ByPosition [5, 3] [1, 2] (layerReports 0 0 plans) := by
  refine ⟨_, rfl, ?_⟩
  intro h
  have : (5, 1) ∈ [((3 : ℕ), (1 : ℕ)), (5, 2)] := (h.1 (5, 1)).mpr (by decide)
  exact absurd this (by decide)

end PegaFlow
