/-
PegaFlow/PrefillPush.lean

What the prefill worker pushes, step by step, for one request (`PrefillHandler` in
`pd_connector/prefill_worker.py`).

`processPushReq` installs the layer plans of a new chunk.  In every step the model
runner calls `save_kv_layer` for all layers in order, and `pushPendingBlocks` submits the
layer's plan, whether it was installed in this step or in an earlier one.  After the last
layer the request is finalized if its last chunk has been seen on all layers; from then on
nothing is pushed any more.
-/
import PegaFlow.PushPlan

namespace PegaFlow

open List

/-- The static side of a request on this worker: layers, their KV cache groups, and the
decode ranks to write to. -/
structure PushConfig where
  numLayers : ℕ
  layerGroup : ℕ → ℕ
  targets : List PushTarget

/-- A submitted layer push: one layer, one target, the block map. -/
structure LayerPush where
  layerIdx : ℕ
  target : ℕ
  blocks : List (ℕ × ℕ)
deriving DecidableEq, Repr

/-- The push covers a local block. -/
def LayerPush.Covers (p : LayerPush) (layerIdx blockId : ℕ) : Prop :=
  p.layerIdx = layerIdx ∧ blockId ∈ p.blocks.map Prod.fst

structure PushState where
  pushReq : Option BlockIds
  offsets : RemoteBlockOffsets
  layerPlans : List (ℕ × PreparedLayerPush)
  allLayersSeen : Bool
  /-- Layers saved in the current step, with their `all_chunks_seen`. -/
  chunkMaps : ℕ → Option Bool
  /-- `ChunkTracker`: pushed pairs of layer and block, and whether the request is done. -/
  pushedPairs : List (ℕ × ℕ)
  done : Bool

namespace PushState

def new : PushState where
  pushReq := none
  offsets _ := 0
  layerPlans := []
  allLayersSeen := false
  chunkMaps _ := none
  pushedPairs := []
  done := false

variable (cfg : PushConfig)

/-- All layers have blocks in this chunk, and all have their last one. -/
def planAllSeen (plans : List (ℕ × PreparedLayerPush)) : Bool :=
  (range cfg.numLayers).all fun l => (plans.lookup l).any PreparedLayerPush.allChunksSeen

variable (s : PushState) {localBlockIds : BlockIds}

/-- `process_push_reqs` for this request; `none` where an assertion fails. -/
def processPushReq (localBlockIds : BlockIds) : Option PushState := do
  let (plans, offsets) ←
    preparePushLayers cfg.layerGroup cfg.targets localBlockIds (range cfg.numLayers) s.offsets
  return { s with
    pushReq := some localBlockIds
    offsets
    layerPlans := plans
    allLayersSeen := planAllSeen cfg plans
    chunkMaps := fun _ => none }

/-- The tasks of one layer: a target without blocks gets none. -/
def layerPushes (layerIdx : ℕ) (p : PreparedLayerPush) : List LayerPush :=
  p.targetMaps.zipIdx.filterMap fun m =>
    if m.1 = [] then none else some { layerIdx, target := m.2, blocks := m.1 }

/-- Every block of the chunk has been pushed on every layer. -/
def hasPushedAllBlocks (localBlockIds : BlockIds) : Bool :=
  (range cfg.numLayers).all fun l =>
    (blockIdsForLayer (cfg.layerGroup l) localBlockIds).all fun b => (l, b) ∈ s.pushedPairs

/-- While not all layers have their last chunk, saved layers are written down. -/
def recordLayer (layerIdx : ℕ) (prepared : PreparedLayerPush) : PushState :=
  if s.allLayersSeen then s
  else
    { s with
      chunkMaps := Function.update s.chunkMaps layerIdx (some prepared.allChunksSeen)
      pushedPairs := s.pushedPairs ++
        prepared.targetMaps.flatten.map fun p => (layerIdx, p.1) }

/-- `_all_layer_chunks_seen`: every layer was saved in this step with its last chunk. -/
def allLayerChunksSeen : Bool :=
  (range cfg.numLayers).all fun l => (s.chunkMaps l).getD false

/-- `_push_pending_blocks` for this request: the new state, the pushes submitted, and
whether the finalize task was submitted. -/
def pushPendingBlocks (layerIdx : ℕ) : PushState × List LayerPush × Bool :=
  match s.pushReq, s.layerPlans.lookup layerIdx with
  | some req, some prepared =>
      if s.done then (s, [], false)
      else
        let pushes := layerPushes layerIdx prepared
        let s₁ := s.recordLayer layerIdx prepared
        if layerIdx ≠ cfg.numLayers - 1 then (s₁, pushes, false)
        else
          let allSeen := s.allLayersSeen || s₁.allLayerChunksSeen cfg
          let chunkComplete := s.allLayersSeen || s₁.hasPushedAllBlocks cfg req || allSeen
          if chunkComplete && allSeen then
            ({ s₁ with
                chunkMaps := fun _ => none, layerPlans := [], allLayersSeen := false,
                done := true }, pushes, true)
          else ({ s₁ with chunkMaps := fun _ => none }, pushes, false)
  | _, _ => (s, [], false)

/-- A step saves the layers in order. -/
def saveLayers (cfg : PushConfig) : PushState → List ℕ → PushState × List LayerPush × Bool
  | s, [] => (s, [], false)
  | s, l :: ls =>
      let one := s.pushPendingBlocks cfg l
      let more := saveLayers cfg one.1 ls
      (more.1, one.2.1 ++ more.2.1, one.2.2 || more.2.2)

/-- A model step: the chunk it brings, if any, then all layers. -/
def step (chunk : Option BlockIds) : Option (PushState × List LayerPush × Bool) := do
  let s ← match chunk with
    | none => some s
    | some localBlockIds => s.processPushReq cfg localBlockIds
  return s.saveLayers cfg (range cfg.numLayers)

theorem step_none : s.step cfg none = some (s.saveLayers cfg (range cfg.numLayers)) := rfl

theorem step_some {cfg : PushConfig} {s s' : PushState}
    (h : s.processPushReq cfg localBlockIds = some s') :
    s.step cfg (some localBlockIds) = some (s'.saveLayers cfg (range cfg.numLayers)) := by
  simp [step, h]

/-! ### One step of a live request -/

/-- The request has a chunk installed and is not finalized.  The flags agree with the
plans: those of the step so far, too. -/
structure Live : Prop where
  pushReq : s.pushReq ≠ none
  done : s.done = false
  allSeen : s.allLayersSeen = planAllSeen cfg s.layerPlans
  chunkMaps : ∀ l seen, s.chunkMaps l = some seen →
    ∃ p, s.layerPlans.lookup l = some p ∧ p.allChunksSeen = seen

/-- The pushes the installed plan of a layer asks for. -/
def planPushes (l : ℕ) : List LayerPush :=
  (s.layerPlans.lookup l).elim [] (layerPushes l)

/-- What a step leaves alone while the request stays live. -/
structure SamePlan (s s' : PushState) : Prop where
  pushReq : s'.pushReq = s.pushReq
  offsets : s'.offsets = s.offsets
  layerPlans : s'.layerPlans = s.layerPlans
  allLayersSeen : s'.allLayersSeen = s.allLayersSeen

variable {cfg : PushConfig} {s : PushState} {p : PreparedLayerPush} {ls : List ℕ}

/-- The pushes of a layer cover what its target maps map. -/
theorem covers_layerPushes_iff {l k b : ℕ} :
    (∃ q ∈ layerPushes l p, q.Covers k b) ↔ k = l ∧ ∃ m ∈ p.targetMaps, b ∈ m.map Prod.fst := by
  constructor
  · rintro ⟨q, hq, hk, hb⟩
    obtain ⟨⟨m, i⟩, hm, hq⟩ := mem_filterMap.mp hq
    split at hq
    · cases hq
    · cases hq
      exact ⟨hk.symm, m, (mem_zipIdx' hm).2 ▸ getElem_mem _, hb⟩
  · rintro ⟨rfl, m, hm, hb⟩
    obtain ⟨i, hi, rfl⟩ := getElem_of_mem hm
    refine ⟨{ layerIdx := k, target := i, blocks := p.targetMaps[i] }, ?_, rfl, hb⟩
    refine mem_filterMap.mpr ⟨(p.targetMaps[i], i), ?_, ?_⟩
    · exact mk_mem_zipIdx_iff_getElem?.mpr (getElem?_eq_getElem hi)
    · refine if_neg ?_
      intro hnil
      rw [show p.targetMaps[i] = [] from hnil] at hb
      cases hb

/-- Among all pushes of a step, only those of the layer's own plan cover its blocks. -/
theorem covers_planPushes_iff {l b : ℕ} (hl : l ∈ ls) :
    (∃ q ∈ ls.flatMap s.planPushes, q.Covers l b) ↔ ∃ q ∈ s.planPushes l, q.Covers l b := by
  constructor
  · rintro ⟨q, hq, hcov⟩
    obtain ⟨k, -, hq⟩ := mem_flatMap.mp hq
    rw [planPushes] at hq
    rcases hp : s.layerPlans.lookup k with - | p
    · rw [hp] at hq; cases hq
    · rw [hp] at hq
      obtain ⟨rfl, -⟩ := covers_layerPushes_iff.mp ⟨q, hq, hcov⟩
      exact ⟨q, by rw [planPushes, hp]; exact hq, hcov⟩
  · rintro ⟨q, hq, hcov⟩
    exact ⟨q, mem_flatMap.mpr ⟨l, hl, hq⟩, hcov⟩

theorem SamePlan.refl (s : PushState) : SamePlan s s := ⟨rfl, rfl, rfl, rfl⟩

theorem SamePlan.trans {s₁ s₂ s₃ : PushState} (h : SamePlan s₁ s₂) (h' : SamePlan s₂ s₃) :
    SamePlan s₁ s₃ :=
  ⟨h'.pushReq.trans h.pushReq, h'.offsets.trans h.offsets, h'.layerPlans.trans h.layerPlans,
    h'.allLayersSeen.trans h.allLayersSeen⟩

theorem SamePlan.planPushes {s s' : PushState} (h : SamePlan s s') :
    s'.planPushes = s.planPushes := by
  funext l
  rw [PushState.planPushes, PushState.planPushes, h.layerPlans]

theorem recordLayer_samePlan (s : PushState) (l : ℕ) (p : PreparedLayerPush) :
    SamePlan s (s.recordLayer l p) := by
  unfold recordLayer
  split
  · exact .refl s
  · exact ⟨rfl, rfl, rfl, rfl⟩

theorem Live.recordLayer (h : Live cfg s) {l : ℕ} (hp : s.layerPlans.lookup l = some p) :
    Live cfg (s.recordLayer l p) := by
  unfold PushState.recordLayer
  split
  · exact h
  · refine { h with chunkMaps := ?_ }
    intro k seen hk
    dsimp only at hk ⊢
    by_cases hkl : k = l
    · subst hkl
      rw [Function.update_self] at hk
      exact ⟨p, hp, Option.some.inj hk⟩
    · rw [Function.update_of_ne hkl] at hk
      exact h.chunkMaps k seen hk

/-- The flags of the step agree with those of the plans. -/
theorem Live.allLayerChunksSeen_le (h : Live cfg s) (hall : s.allLayerChunksSeen cfg) :
    s.allLayersSeen := by
  rw [h.allSeen, planAllSeen, all_eq_true]
  intro l hl
  have hseen := all_eq_true.mp hall l hl
  rcases hmap : s.chunkMaps l with - | seen
  · rw [hmap] at hseen; cases hseen
  · obtain ⟨p, hp, hflag⟩ := h.chunkMaps l seen hmap
    rw [hmap] at hseen
    simpa [hp, hflag] using hseen

theorem pushPendingBlocks_of_ne (h : Live cfg s) {l : ℕ} (hl : l ≠ cfg.numLayers - 1) :
    ∃ s', s.pushPendingBlocks cfg l = (s', s.planPushes l, false) ∧ Live cfg s' ∧
      SamePlan s s' := by
  obtain ⟨req, hreq⟩ := Option.ne_none_iff_exists'.mp h.pushReq
  unfold pushPendingBlocks planPushes
  rcases hp : s.layerPlans.lookup l with - | p
  · exact ⟨s, by rw [hreq]; rfl, h, .refl s⟩
  · refine ⟨s.recordLayer l p, ?_, h.recordLayer hp, recordLayer_samePlan s l p⟩
    simp [hreq, h.done, hl]

theorem pushPendingBlocks_last (h : Live cfg s) (hpos : 0 < cfg.numLayers) :
    ∃ s', s.pushPendingBlocks cfg (cfg.numLayers - 1) =
        (s', s.planPushes (cfg.numLayers - 1), s.allLayersSeen) ∧
      s'.done = s.allLayersSeen ∧
      (s.allLayersSeen = false → Live cfg s' ∧ SamePlan s s') := by
  obtain ⟨req, hreq⟩ := Option.ne_none_iff_exists'.mp h.pushReq
  unfold pushPendingBlocks planPushes
  rcases hp : s.layerPlans.lookup (cfg.numLayers - 1) with - | p
  · -- the last layer has no plan, so not all layers are seen
    have hno : s.allLayersSeen = false := by
      rw [h.allSeen, planAllSeen, all_eq_false]
      exact ⟨cfg.numLayers - 1, mem_range.mpr (by omega), by simp [hp]⟩
    exact ⟨s, by rw [hreq, hno]; rfl, by rw [hno]; exact h.done, fun _ => ⟨h, .refl s⟩⟩
  · have hlive := h.recordLayer hp
    have hsame := recordLayer_samePlan s (cfg.numLayers - 1) p
    rcases hseen : s.allLayersSeen with - | -
    · -- then the flags of this step are not all set either
      have hmaps : (s.recordLayer (cfg.numLayers - 1) p).allLayerChunksSeen cfg = false := by
        by_contra hne
        have := hlive.allLayerChunksSeen_le (by simpa using hne)
        rw [hsame.allLayersSeen, hseen] at this
        cases this
      refine ⟨{ s.recordLayer (cfg.numLayers - 1) p with chunkMaps := fun _ => none }, ?_,
        hlive.done, fun _ => ⟨{ hlive with chunkMaps := ?_ },
          { hsame with }⟩⟩
      · simp [hreq, h.done, hmaps]
      · intro l seen hl
        cases hl
    · refine ⟨{ s.recordLayer (cfg.numLayers - 1) p with
          chunkMaps := fun _ => none, layerPlans := [], allLayersSeen := false, done := true },
        ?_, rfl, fun hf => by cases hf⟩
      simp [hreq, h.done]

theorem saveLayers_append (cfg : PushConfig) (s : PushState) (ls ms : List ℕ) :
    s.saveLayers cfg (ls ++ ms) =
      (((s.saveLayers cfg ls).1.saveLayers cfg ms).1,
        (s.saveLayers cfg ls).2.1 ++ ((s.saveLayers cfg ls).1.saveLayers cfg ms).2.1,
        (s.saveLayers cfg ls).2.2 || ((s.saveLayers cfg ls).1.saveLayers cfg ms).2.2) := by
  induction ls generalizing s with
  | nil => rfl
  | cons l ls ih => simp [saveLayers, ih, Bool.or_assoc]

/-- Saving layers without the last one pushes their plans and changes no plan. -/
theorem saveLayers_of_notMem (h : Live cfg s) (hls : cfg.numLayers - 1 ∉ ls) :
    ∃ s', s.saveLayers cfg ls = (s', ls.flatMap s.planPushes, false) ∧ Live cfg s' ∧
      SamePlan s s' := by
  induction ls generalizing s with
  | nil => exact ⟨s, rfl, h, .refl s⟩
  | cons l ls ih =>
    rw [mem_cons, not_or] at hls
    obtain ⟨s₁, hone, hlive, hsame⟩ := pushPendingBlocks_of_ne h (Ne.symm hls.1)
    obtain ⟨s₂, hmore, hlive₂, hsame₂⟩ := ih hlive hls.2
    refine ⟨s₂, ?_, hlive₂, hsame.trans hsame₂⟩
    simp [saveLayers, hone, hmore, hsame.planPushes]

/-- **One step of a live request.**  Every installed layer plan is pushed; the request is
finalized iff all layers have seen their last chunk, and otherwise stays live with the same
plans. -/
theorem saveLayers_live (h : Live cfg s) (hpos : 0 < cfg.numLayers) :
    ∃ s', s.saveLayers cfg (range cfg.numLayers) =
        (s', (range cfg.numLayers).flatMap s.planPushes, s.allLayersSeen) ∧
      s'.done = s.allLayersSeen ∧
      (s.allLayersSeen = false → Live cfg s' ∧ SamePlan s s') := by
  have hrange : range cfg.numLayers =
      range (cfg.numLayers - 1) ++ [cfg.numLayers - 1] := by
    rw [← range_succ]
    congr 1
    omega
  obtain ⟨s₁, hfirst, hlive, hsame⟩ := saveLayers_of_notMem h
    (not_mem_range_self (n := cfg.numLayers - 1))
  obtain ⟨s₂, hlast, hdone, hrest⟩ := pushPendingBlocks_last hlive hpos
  rw [hsame.allLayersSeen] at hlast hdone hrest
  refine ⟨s₂, ?_, hdone, ?_⟩
  · rw [hrange, saveLayers_append, hfirst]
    simp [saveLayers, hlast, hsame.planPushes]
  · intro hno
    exact ⟨(hrest hno).1, hsame.trans (hrest hno).2⟩

theorem saveLayers_done (hdone : s.done) (ls : List ℕ) : s.saveLayers cfg ls = (s, [], false) := by
  have hone : ∀ l, s.pushPendingBlocks cfg l = (s, [], false) := by
    intro l
    unfold pushPendingBlocks
    split
    · rw [if_pos hdone]
    · rfl
  induction ls with
  | nil => rfl
  | cons l ls ih => simp [saveLayers, hone, ih]

theorem processPushReq_live {s' : PushState} (hdone : s.done = false)
    (h : s.processPushReq cfg localBlockIds = some s') :
    Live cfg s' ∧ ∃ plans offsets,
      preparePushLayers cfg.layerGroup cfg.targets localBlockIds (range cfg.numLayers)
        s.offsets = some (plans, offsets) ∧ s'.layerPlans = plans ∧ s'.offsets = offsets := by
  unfold processPushReq at h
  rcases hprep : preparePushLayers cfg.layerGroup cfg.targets localBlockIds
    (range cfg.numLayers) s.offsets with - | ⟨plans, offsets⟩
  · rw [hprep] at h; cases h
  · rw [hprep] at h
    cases h
    refine ⟨⟨by simp, hdone, rfl, ?_⟩, plans, offsets, rfl, rfl, rfl⟩
    intro l seen hl
    cases hl

end PushState

end PegaFlow
