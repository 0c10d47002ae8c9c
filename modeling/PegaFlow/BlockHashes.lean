/-
PegaFlow/BlockHashes.lean

The keys of a request's blocks on the scheduler side of the vLLM connector
(`connector/scheduler.py`).

vLLM hashes every full hash block of a request, each hash chained over its whole prefix.
`requestBlockHashes` keeps one hash per scheduler block: the last one inside the block.  For
prefill/decode disaggregation the partial last block of a prompt gets a key of its own
(`deriveTailBlock`), and a prefix query asks for the full blocks that are not computed yet,
followed by the tail key (`buildQuery`).
-/
import Mathlib.Data.List.Basic
import Mathlib.Data.Nat.Basic

namespace PegaFlow

open List

/-! ### Configuration -/

/-- `ConnectorContext`: block sizes, in tokens.  The hash block has been checked to divide
the scheduler block. -/
structure ConnectorContext where
  blockSize : ℕ
  dcpWorldSize : ℕ
  hashBlockSize : Option ℕ
  readEnabled : Bool
  blockSize_pos : 0 < blockSize
  dcpWorldSize_pos : 0 < dcpWorldSize
  hashBlockSize_pos : ∀ h ∈ hashBlockSize, 0 < h
  hashBlockSize_dvd : ∀ h ∈ hashBlockSize, h ∣ blockSize * dcpWorldSize

namespace ConnectorContext

/-- One decode context rank, with blocks hashed whole. -/
def whole (blockSize : ℕ) (blockSize_pos : 0 < blockSize) : ConnectorContext where
  blockSize
  dcpWorldSize := 1
  hashBlockSize := none
  readEnabled := true
  blockSize_pos
  dcpWorldSize_pos := Nat.one_pos
  hashBlockSize_pos := by simp
  hashBlockSize_dvd := by simp

variable (ctx : ConnectorContext)

def virtualBlockSize : ℕ := ctx.blockSize * ctx.dcpWorldSize

/-- Tokens per entry of `block_hashes`. -/
def spanSize : ℕ := ctx.hashBlockSize.getD ctx.virtualBlockSize

def hashScale : ℕ := ctx.virtualBlockSize / ctx.spanSize

/-- The tokens of a hit (`_finish_cache_lookup`): the last block may be a tail, and one token is
left to compute. -/
def hitTokens (numTokens computedBlocks queryLen tailTokens hitBlocks : ℕ) : ℤ :=
  let vbs : ℤ := ctx.virtualBlockSize
  let lastBlockTokens : ℤ := if 0 < tailTokens ∧ hitBlocks = queryLen then tailTokens else vbs
  min (((hitBlocks : ℤ) - 1) * vbs + lastBlockTokens)
    (max 0 ((numTokens : ℤ) - computedBlocks * vbs - 1))

/-- The last position whose recurrent state the tokens reach: a state is valid only at its own
boundary. -/
def lastCheckpoint (hitTokens : ℤ) (positions : List ℕ) : Option ℕ :=
  (positions.filter fun p => ((p : ℕ) : ℤ) < hitTokens / ctx.virtualBlockSize).max?

theorem virtualBlockSize_pos : 0 < ctx.virtualBlockSize :=
  Nat.mul_pos ctx.blockSize_pos ctx.dcpWorldSize_pos

theorem spanSize_dvd : ctx.spanSize ∣ ctx.virtualBlockSize := by
  unfold spanSize
  cases h : ctx.hashBlockSize with
  | none => exact Nat.dvd_refl _
  | some k => exact ctx.hashBlockSize_dvd k (by rw [h]; rfl)

theorem spanSize_pos : 0 < ctx.spanSize :=
  Nat.pos_of_dvd_of_pos ctx.spanSize_dvd ctx.virtualBlockSize_pos

theorem spanSize_mul_hashScale : ctx.spanSize * ctx.hashScale = ctx.virtualBlockSize :=
  Nat.mul_div_cancel' ctx.spanSize_dvd

theorem hashScale_pos : 0 < ctx.hashScale :=
  Nat.div_pos (Nat.le_of_dvd ctx.virtualBlockSize_pos ctx.spanSize_dvd) ctx.spanSize_pos

end ConnectorContext

/-- What a cache group of vLLM holds. -/
inductive GroupKind where
  | dense
  | sliding
  | recurrent
  | scratch
deriving DecidableEq, Repr

structure CacheGroup where
  kind : GroupKind
  blockSize : ℕ
deriving DecidableEq, Repr

/-- `CacheGroupLayout`: the cache groups in vLLM's order. -/
structure CacheGroupLayout where
  groups : List CacheGroup
  hashGroupIndex : ℕ
deriving DecidableEq, Repr

namespace CacheGroupLayout

def groupCount (layout : CacheGroupLayout) : ℕ := layout.groups.length

/-- Some group is of the kind. -/
def has (layout : CacheGroupLayout) (kind : GroupKind) : Bool :=
  layout.groups.any fun g => g.kind = kind

end CacheGroupLayout

/-- What a scheduler connector is configured with.  `hashBlockTokens` is vLLM's hash of a
block's tokens under a parent hash, without extra keys, and `noneHash` its root. -/
structure SchedulerConfig (Hash : Type*) where
  ctx : ConnectorContext
  cacheGroups : CacheGroupLayout
  tailSaveEnabled : Bool
  tailLoadEnabled : Bool
  hashBlockTokens : Hash → List ℕ → Hash
  noneHash : Hash
  /-- The constructor refuses tail blocks together with these groups. -/
  tail_dense : (tailSaveEnabled || tailLoadEnabled) →
    cacheGroups.has .recurrent = false ∧ cacheGroups.has .sliding = false

/-- A vLLM request, as far as its block keys go. -/
structure Request (Hash : Type*) where
  requestId : String
  numTokens : ℕ
  promptTokenIds : List ℕ
  blockHashes : List Hash
  loraRequest : Bool
  cacheSalt : Bool
  mmFeatures : Bool
deriving DecidableEq, Repr

def Request.numPromptTokens {Hash : Type*} (req : Request Hash) : ℕ := req.promptTokenIds.length

variable {Hash : Type*}

/-! ### Block keys -/

/-- `block_hashes_per_block`: `block_hashes[hash_scale - 1 :: hash_scale]`. -/
def blockHashesPerBlock (blockHashes : List Hash) (hashScale : ℕ) : List Hash :=
  (range (blockHashes.length / hashScale)).filterMap fun b =>
    blockHashes[b * hashScale + (hashScale - 1)]?

variable (ctx : ConnectorContext) {span : ℕ → Hash} {req : Request Hash} {scale : ℕ}

/-- `_request_block_hashes`.  With a cache group the keys are those of the group's own
blocks, of `groupBlockSize` tokens each. -/
def requestBlockHashes (req : Request Hash)
    (groupBlockSize : Option ℕ) : Except String (List Hash) :=
  let scale :=
    match groupBlockSize, ctx.hashBlockSize with
    | some size, some h => size * ctx.dcpWorldSize / h
    | _, _ => ctx.hashScale
  let hashed := req.numTokens / ctx.spanSize
  let stale := req.blockHashes.length - hashed
  if req.numTokens = 0 then .ok (blockHashesPerBlock req.blockHashes scale)
  else if 1 < stale then
    .error (s!"req {req.requestId}: {req.blockHashes.length} block hashes span " ++
      s!"{req.blockHashes.length * ctx.spanSize} tokens but the request has " ++
      s!"{req.numTokens}; vLLM's hash granularity is finer than the connector's {ctx.spanSize}")
  else if stale = 1 then .ok (blockHashesPerBlock (req.blockHashes.take hashed) scale)
  else .ok (blockHashesPerBlock req.blockHashes scale)

namespace SchedulerConfig

/-- `_derive_tail_block`: the key and the number of tokens of a prompt's partial last
block. -/
def deriveTailBlock (cfg : SchedulerConfig Hash) (req : Request Hash) :
    Except String (Option (Hash × ℕ)) :=
  let vbs := cfg.ctx.virtualBlockSize
  let tailLen := req.numPromptTokens % vbs
  let tailIdx := req.numPromptTokens / vbs
  if !(cfg.tailSaveEnabled || cfg.tailLoadEnabled) then .ok none
  else if req.loraRequest || req.cacheSalt || req.mmFeatures then .ok none
  -- the last prompt token is recomputed anyway
  else if tailLen ≤ 1 then .ok none
  else do
    let blockHashes ← requestBlockHashes cfg.ctx req none
    if blockHashes.length < tailIdx then
      .error (s!"req {req.requestId} missing parent hash for tail block: " ++
        s!"tail_idx={tailIdx} full_hashes={blockHashes.length}")
    else
      let parent :=
        if 0 < tailIdx then blockHashes.getD (tailIdx - 1) cfg.noneHash else cfg.noneHash
      .ok (some (cfg.hashBlockTokens parent (req.promptTokenIds.drop (tailIdx * vbs)), tailLen))

/-- `_build_query`: the keys of a prefix query, and the tokens of its tail block. -/
def buildQuery (cfg : SchedulerConfig Hash) (req : Request Hash) (computedBlocks : ℕ) :
    Except String (List Hash × ℕ) := do
  let queryHashes := (← requestBlockHashes cfg.ctx req none).drop computedBlocks
  if !cfg.tailLoadEnabled || cfg.cacheGroups.has .sliding then return (queryHashes, 0)
  match ← cfg.deriveTailBlock req with
  | none => return (queryHashes, 0)
  | some (key, tailTokens) => return (queryHashes ++ [key], tailTokens)

/-- `_copy_block_ids_by_group` -/
def copyBlockIdsByGroup (cfg : SchedulerConfig Hash) (blockIds : List (List ℕ)) :
    Except String (List (List ℕ)) :=
  if blockIds.length = cfg.cacheGroups.groupCount then .ok blockIds
  else .error ("KV cache group count mismatch: " ++
    s!"expected={cfg.cacheGroups.groupCount} actual={blockIds.length}")

end SchedulerConfig

/-! ### Which hash is the key of a block -/

/-- vLLM has hashed every full hash block of the request, and at most one block that the
request has lost since. -/
structure Request.Hashed (span : ℕ → Hash) (req : Request Hash) : Prop where
  hashes : req.blockHashes = (range req.blockHashes.length).map span
  covered : req.numTokens / ctx.spanSize ≤ req.blockHashes.length
  stale : req.blockHashes.length ≤ req.numTokens / ctx.spanSize ∨
    0 < req.numTokens ∧ req.blockHashes.length = req.numTokens / ctx.spanSize + 1

theorem blockHashesPerBlock_map_range (span : ℕ → Hash) (n : ℕ) (hscale : 0 < scale) :
    blockHashesPerBlock ((range n).map span) scale =
      (range (n / scale)).map fun b => span (b * scale + (scale - 1)) := by
  rw [blockHashesPerBlock, length_map, length_range]
  rw [← filterMap_eq_map (f := fun b => span (b * scale + (scale - 1)))]
  refine filterMap_congr ?_
  intro b hb
  have hlt : b * scale + (scale - 1) < n := by
    have hle : (b + 1) * scale ≤ n :=
      (Nat.le_div_iff_mul_le hscale).mp (mem_range.mp hb)
    rw [Nat.succ_mul] at hle
    omega
  simp [hlt]

/-- **Block keys.**  For a request whose hashes are complete, the keys at `scale` hashes per
block are the chained hashes at the ends of its full blocks. -/
theorem requestBlockHashes_scaled {ctx : ConnectorContext} (h : req.Hashed ctx span)
    {groupBlockSize : Option ℕ} (hscale : 0 < scale)
    (hgroup : (match groupBlockSize, ctx.hashBlockSize with
      | some size, some h => size * ctx.dcpWorldSize / h
      | _, _ => ctx.hashScale) = scale) :
    requestBlockHashes ctx req groupBlockSize =
      .ok ((range (req.numTokens / (ctx.spanSize * scale))).map
        fun b => span (b * scale + (scale - 1))) := by
  have htake : blockHashesPerBlock (req.blockHashes.take (req.numTokens / ctx.spanSize)) scale =
      (range (req.numTokens / (ctx.spanSize * scale))).map
        fun b => span (b * scale + (scale - 1)) := by
    rw [h.hashes, ← map_take, take_range, min_eq_left h.covered,
      blockHashesPerBlock_map_range span _ hscale, Nat.div_div_eq_div_mul]
  have hall : req.blockHashes.length ≤ req.numTokens / ctx.spanSize →
      blockHashesPerBlock req.blockHashes scale =
        (range (req.numTokens / (ctx.spanSize * scale))).map
          fun b => span (b * scale + (scale - 1)) := by
    intro hle
    rw [← htake, take_of_length_le hle]
  unfold requestBlockHashes
  simp only [hgroup]
  rcases h.stale with hle | ⟨hpos, hone⟩
  · have hstale : req.blockHashes.length - req.numTokens / ctx.spanSize = 0 :=
      Nat.sub_eq_zero_of_le hle
    simp [hstale, hall hle]
  · have hstale : req.blockHashes.length - req.numTokens / ctx.spanSize = 1 := by omega
    simp [hstale, htake, Nat.pos_iff_ne_zero.mp hpos]

/-- The key of scheduler block `b`: the chained hash at its end. -/
def blockKey (span : ℕ → Hash) (b : ℕ) : Hash :=
  span (b * ctx.hashScale + (ctx.hashScale - 1))

theorem requestBlockHashes_eq {ctx : ConnectorContext} (h : req.Hashed ctx span) :
    requestBlockHashes ctx req none =
      .ok ((range (req.numTokens / ctx.virtualBlockSize)).map (blockKey ctx span)) := by
  rw [requestBlockHashes_scaled h ctx.hashScale_pos rfl, ctx.spanSize_mul_hashScale]
  rfl

/-! ### The keys of a query -/

namespace SchedulerConfig

variable (cfg : SchedulerConfig Hash) (span : ℕ → Hash) (req : Request Hash)

/-- The key of the partial last block of the prompt: the hash of its prompt tokens under
the key of the block before it. -/
def tailKey : Hash :=
  let tailIdx := req.numPromptTokens / cfg.ctx.virtualBlockSize
  cfg.hashBlockTokens (if tailIdx = 0 then cfg.noneHash else blockKey cfg.ctx span (tailIdx - 1))
    (req.promptTokenIds.drop (tailIdx * cfg.ctx.virtualBlockSize))

/-- A tail key is derived for the prompt. -/
def HasTail : Prop :=
  (cfg.tailSaveEnabled || cfg.tailLoadEnabled) ∧
    (req.loraRequest || req.cacheSalt || req.mmFeatures) = false ∧
    1 < req.numPromptTokens % cfg.ctx.virtualBlockSize

instance : Decidable (cfg.HasTail req) :=
  inferInstanceAs (Decidable (_ ∧ _ ∧ _))

/-- The `i`-th key is that of block `computedBlocks + i`: the block's own if the block is
full, and otherwise the tail key, the block being the partial last one of the prompt. -/
def InPlace (computedBlocks : ℕ) (keys : List Hash) : Prop :=
  ∀ i key, keys[i]? = some key →
    if (computedBlocks + i + 1) * cfg.ctx.virtualBlockSize ≤ req.numTokens then
      key = blockKey cfg.ctx span (computedBlocks + i)
    else
      computedBlocks + i = req.numPromptTokens / cfg.ctx.virtualBlockSize ∧
        0 < req.numPromptTokens % cfg.ctx.virtualBlockSize ∧ key = cfg.tailKey span req

variable {cfg span req}

theorem deriveTailBlock_eq (h : req.Hashed cfg.ctx span)
    (hprompt : req.numPromptTokens ≤ req.numTokens) :
    cfg.deriveTailBlock req =
      .ok (if cfg.HasTail req then
        some (cfg.tailKey span req, req.numPromptTokens % cfg.ctx.virtualBlockSize) else none) := by
  have hidx : req.numPromptTokens / cfg.ctx.virtualBlockSize ≤
      req.numTokens / cfg.ctx.virtualBlockSize := Nat.div_le_div_right hprompt
  unfold deriveTailBlock
  by_cases hon : (cfg.tailSaveEnabled || cfg.tailLoadEnabled)
  · by_cases hplain : (req.loraRequest || req.cacheSalt || req.mmFeatures)
    · simp [HasTail, hon, hplain]
    · by_cases hlen : req.numPromptTokens % cfg.ctx.virtualBlockSize ≤ 1
      · have hno : ¬ cfg.HasTail req := fun ht => absurd ht.2.2 (by omega)
        simp [hno, hon, hplain, hlen]
      · have hyes : cfg.HasTail req := ⟨hon, by simpa using hplain, by omega⟩
        -- the block before the tail is full, so its key is there
        have hparent : (if 0 < req.numPromptTokens / cfg.ctx.virtualBlockSize then
              ((range (req.numTokens / cfg.ctx.virtualBlockSize)).map
                (blockKey cfg.ctx span)).getD
                  (req.numPromptTokens / cfg.ctx.virtualBlockSize - 1) cfg.noneHash
            else cfg.noneHash) =
            if req.numPromptTokens / cfg.ctx.virtualBlockSize = 0 then cfg.noneHash
            else blockKey cfg.ctx span (req.numPromptTokens / cfg.ctx.virtualBlockSize - 1) := by
          rcases Nat.eq_zero_or_pos (req.numPromptTokens / cfg.ctx.virtualBlockSize) with h0 | hpos
          · rw [h0]; rfl
          · have hlt : req.numPromptTokens / cfg.ctx.virtualBlockSize - 1 <
                req.numTokens / cfg.ctx.virtualBlockSize := by omega
            rw [if_pos hpos, if_neg (Nat.pos_iff_ne_zero.mp hpos)]
            simp [hlt]
        have hlong : ¬ ((range (req.numTokens / cfg.ctx.virtualBlockSize)).map
            (blockKey cfg.ctx span)).length <
              req.numPromptTokens / cfg.ctx.virtualBlockSize := by
          simpa using hidx
        rw [requestBlockHashes_eq h]
        simp only [hon, hplain, hlen, hyes, hlong, hparent, tailKey, bind, Except.bind,
          Bool.not_true, Bool.false_eq_true, if_false, if_true]
  · simp [HasTail, hon]

/-- What `_build_query` returns: the keys of the full blocks from `computedBlocks` on, and
the tail key after them. -/
theorem buildQuery_eq (h : req.Hashed cfg.ctx span) (hprompt : req.numPromptTokens ≤ req.numTokens)
    (hload : cfg.tailLoadEnabled) (computedBlocks : ℕ) :
    cfg.buildQuery req computedBlocks =
      .ok (((range (req.numTokens / cfg.ctx.virtualBlockSize)).map
          (blockKey cfg.ctx span)).drop computedBlocks ++
            (if cfg.HasTail req then [cfg.tailKey span req] else []),
        if cfg.HasTail req then req.numPromptTokens % cfg.ctx.virtualBlockSize else 0) := by
  have hsliding : cfg.cacheGroups.has .sliding = false :=
    (cfg.tail_dense (by simp [hload])).2
  unfold buildQuery
  rw [requestBlockHashes_eq h, deriveTailBlock_eq h hprompt]
  by_cases ht : cfg.HasTail req <;> simp [hload, hsliding, ht] <;> rfl

theorem getElem?_fullKeys {computedBlocks i : ℕ} {key : Hash}
    (hi : (((List.range (req.numTokens / cfg.ctx.virtualBlockSize)).map
      (blockKey cfg.ctx span)).drop computedBlocks)[i]? = some key) :
    (computedBlocks + i + 1) * cfg.ctx.virtualBlockSize ≤ req.numTokens ∧
      key = blockKey cfg.ctx span (computedBlocks + i) := by
  rw [getElem?_drop, getElem?_map, Option.map_eq_some_iff] at hi
  obtain ⟨b, hb, rfl⟩ := hi
  obtain ⟨hlt, rfl⟩ := List.getElem?_eq_some_iff.mp hb
  rw [length_range] at hlt
  rw [getElem_range]
  exact ⟨(Nat.le_div_iff_mul_le cfg.ctx.virtualBlockSize_pos).mp hlt, rfl⟩

theorem inPlace_append_tail_iff {computedBlocks : ℕ} (htail : cfg.HasTail req)
    (hcomputed : computedBlocks ≤ req.numTokens / cfg.ctx.virtualBlockSize) :
    cfg.InPlace span req computedBlocks
        (((List.range (req.numTokens / cfg.ctx.virtualBlockSize)).map
          (blockKey cfg.ctx span)).drop computedBlocks ++ [cfg.tailKey span req]) ↔
      req.numTokens / cfg.ctx.virtualBlockSize =
        req.numPromptTokens / cfg.ctx.virtualBlockSize := by
  have hlen : (((List.range (req.numTokens / cfg.ctx.virtualBlockSize)).map
      (blockKey cfg.ctx span)).drop computedBlocks).length =
        req.numTokens / cfg.ctx.virtualBlockSize - computedBlocks := by simp
  have hopen : ¬ (req.numTokens / cfg.ctx.virtualBlockSize + 1) * cfg.ctx.virtualBlockSize ≤
      req.numTokens := by
    rw [← Nat.le_div_iff_mul_le cfg.ctx.virtualBlockSize_pos]
    omega
  have hplace : computedBlocks + (req.numTokens / cfg.ctx.virtualBlockSize - computedBlocks) =
      req.numTokens / cfg.ctx.virtualBlockSize := by omega
  constructor
  · intro h
    -- the place of the tail key
    have := h (req.numTokens / cfg.ctx.virtualBlockSize - computedBlocks) (cfg.tailKey span req)
      (by rw [← hlen, getElem?_concat_length])
    rw [hplace, if_neg hopen] at this
    exact this.1
  · intro heq i key hi
    rcases Nat.lt_or_ge i (req.numTokens / cfg.ctx.virtualBlockSize - computedBlocks) with hlt | hge
    · rw [getElem?_append_left (by rwa [hlen])] at hi
      obtain ⟨hfull, hkey⟩ := getElem?_fullKeys hi
      rw [if_pos hfull]
      exact hkey
    · rw [getElem?_append_right (by rwa [hlen]), hlen] at hi
      have hlt : i - (req.numTokens / cfg.ctx.virtualBlockSize - computedBlocks) < 1 :=
        (List.getElem?_eq_some_iff.mp hi).1
      have hi' : i = req.numTokens / cfg.ctx.virtualBlockSize - computedBlocks := by omega
      rw [hi', Nat.sub_self, getElem?_cons_zero, Option.some_inj] at hi
      rw [hi', hplace, if_neg hopen]
      exact ⟨heq, Nat.lt_trans Nat.zero_lt_one htail.2.2, hi.symm⟩

/-- **Query keys sit at their block positions exactly if the tail block is still open.**
With tail blocks loaded, `_build_query` returns, and its keys are in place iff the prompt has
no tail key or the request has no full block beyond those of its prompt. -/
theorem buildQuery_inPlace_iff (cfg : SchedulerConfig Hash) (span : ℕ → Hash) (req : Request Hash)
    (computedBlocks : ℕ) (hashed : req.Hashed cfg.ctx span)
    (hprompt : req.numPromptTokens ≤ req.numTokens) (hload : cfg.tailLoadEnabled = true)
    (hcomputed : computedBlocks ≤ req.numTokens / cfg.ctx.virtualBlockSize) :
    ∃ keys tailTokens, cfg.buildQuery req computedBlocks = .ok (keys, tailTokens) ∧
      (cfg.InPlace span req computedBlocks keys ↔
        ¬ cfg.HasTail req ∨ req.numTokens / cfg.ctx.virtualBlockSize =
          req.numPromptTokens / cfg.ctx.virtualBlockSize) := by
  refine ⟨_, _, buildQuery_eq hashed hprompt hload computedBlocks, ?_⟩
  by_cases htail : cfg.HasTail req
  · simp only [htail, if_true, not_true, false_or]
    exact inPlace_append_tail_iff htail hcomputed
  · simp only [htail, if_false, append_nil, not_false_iff, true_or, iff_true]
    intro i key hi
    obtain ⟨hfull, hkey⟩ := getElem?_fullKeys hi
    rw [if_pos hfull]
    exact hkey

/-- Scheduler blocks of four tokens, hashed every two tokens, with tail blocks loaded. -/
def tailLoad : SchedulerConfig ℕ where
  ctx :=
    { blockSize := 4, dcpWorldSize := 1, hashBlockSize := some 2, readEnabled := true
      blockSize_pos := by decide, dcpWorldSize_pos := by decide
      hashBlockSize_pos := by decide, hashBlockSize_dvd := by decide }
  cacheGroups := { groups := [⟨.dense, 4⟩], hashGroupIndex := 0 }
  tailSaveEnabled := false
  tailLoadEnabled := true
  hashBlockTokens parent tokens := 100 * (parent + 1) + tokens.length
  noneHash := 0
  tail_dense := by decide

/-- A prompt of six tokens, after which `generated` more have been generated.  Hash block `j`
has the hash `j + 1`. -/
def sixTokenPrompt (generated : ℕ) : Request ℕ where
  requestId := "r"
  numTokens := 6 + generated
  promptTokenIds := [11, 12, 13, 14, 15, 16]
  blockHashes := (range ((6 + generated) / 2)).map (· + 1)
  loraRequest := false
  cacheSalt := false
  mmFeatures := false

theorem buildQuery_inPlace_openTail :
    ∃ keys tailTokens, tailLoad.buildQuery (sixTokenPrompt 1) 0 = .ok (keys, tailTokens) ∧
      tailLoad.InPlace (· + 1) (sixTokenPrompt 1) 0 keys := by
  obtain ⟨keys, tailTokens, hquery, hiff⟩ :=
    buildQuery_inPlace_iff tailLoad (· + 1) (sixTokenPrompt 1) 0
      ⟨by decide, by decide, by decide⟩ (by decide) rfl (by decide)
  exact ⟨keys, tailTokens, hquery, hiff.mpr (.inr (by decide))⟩

/-- With two generated tokens the tail block is full: the query has its own key for it, and
the tail key stands for block 2, of which the request has no token. -/
theorem not_inPlace_closedTail :
    (sixTokenPrompt 2).Hashed tailLoad.ctx (· + 1) ∧
      tailLoad.buildQuery (sixTokenPrompt 2) 0 = .ok ([2, 4, 302], 2) ∧
      ¬ tailLoad.InPlace (· + 1) (sixTokenPrompt 2) 0 [2, 4, 302] := by
  refine ⟨⟨by decide, by decide, by decide⟩, by rfl, ?_⟩
  intro h
  have hthird := h 2 302 rfl
  exact absurd hthird.1 (by decide)

end SchedulerConfig

end PegaFlow
