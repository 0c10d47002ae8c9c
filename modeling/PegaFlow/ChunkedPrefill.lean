/-
PegaFlow/ChunkedPrefill.lean

What a prompt prefilled in several steps has on the decode side when the prefill worker
declares it complete.

vLLM cuts the prefill of a prompt into steps of any size.  The block table grows with
the tokens scheduled, so a step may end inside a block, and a step may add no block.
Which blocks are pushed in a step is decided by the *table*: those added last.  Whether
what is pushed is final is decided by the *tokens*: a block is final at the end of a step
if all its prompt tokens have been computed by then.
-/
import PegaFlow.Loops
import PegaFlow.PrefillPush
import PegaFlow.PrefillScheduler

namespace PegaFlow

open List PushState PushReqMeta

/-! ### Cutting a prompt -/

variable {tokens b t start : ℕ} {r : StepRecord} {ts : List ℕ}

/-- Blocks needed for a number of tokens. -/
def blocksFor (blockSize tokens : ℕ) : ℕ :=
  (tokens + blockSize - 1) / blockSize

section Trace

variable {bs promptLen : ℕ}

section

variable (hbs : 0 < bs)
include hbs

theorem blocksFor_le_iff {n : ℕ} : blocksFor bs tokens ≤ n ↔ tokens ≤ n * bs := by
  rw [blocksFor, Nat.div_le_iff_le_mul_add_pred hbs, mul_comm]
  omega

theorem lt_blocksFor_iff {n : ℕ} : n < blocksFor bs tokens ↔ n * bs < tokens := by
  rw [← not_le, blocksFor_le_iff hbs, not_le]

theorem le_blocksFor_mul (tokens : ℕ) : tokens ≤ blocksFor bs tokens * bs :=
  (blocksFor_le_iff hbs).mp le_rfl

theorem blocksFor_mono {a : ℕ} (h : a ≤ b) : blocksFor bs a ≤ blocksFor bs b :=
  (blocksFor_le_iff hbs).mpr (h.trans (le_blocksFor_mul hbs b))

theorem blocksFor_zero : blocksFor bs 0 = 0 :=
  Nat.le_zero.mp ((blocksFor_le_iff hbs).mpr (Nat.zero_le _))

theorem blocksFor_zero_lt (ht : 0 < t) : blocksFor bs 0 < blocksFor bs t := by
  rw [blocksFor_zero hbs, lt_blocksFor_iff hbs, Nat.zero_mul]
  exact ht

theorem blocksFor_mul_le_iff :
    blocksFor bs tokens * bs ≤ tokens ↔ bs ∣ tokens := by
  constructor
  · intro h
    rw [le_antisymm (le_blocksFor_mul hbs tokens) h]
    exact Nat.dvd_mul_left _ _
  · rintro ⟨k, rfl⟩
    have : blocksFor bs (bs * k) ≤ k := by
      rw [blocksFor_le_iff hbs, mul_comm]
    calc blocksFor bs (bs * k) * bs ≤ k * bs :=
          Nat.mul_le_mul_right _ this
      _ = bs * k := mul_comm _ _

end

/-- One step: blocks `[start, stop)` are pushed, `tokens` are computed at its end. -/
structure StepRecord where
  start : ℕ
  stop : ℕ
  tokens : ℕ
deriving DecidableEq, Repr

/-- Where the table part added last begins after `t` more tokens: a step that adds no
block leaves the plan of the step before. -/
def nextStart (blockSize start tokens t : ℕ) : ℕ :=
  if blocksFor blockSize tokens < blocksFor blockSize (tokens + t) then
    blocksFor blockSize tokens
  else start

/-- The steps of a cut from `tokens` computed tokens on, with the table part added last
beginning at `start`, up to the step that reaches the last block of the prompt. -/
def pushTrace (blockSize promptLen : ℕ) : ℕ → ℕ → List ℕ → List StepRecord
  | _, _, [] => []
  | tokens, start, t :: ts =>
      { start := nextStart blockSize start tokens t
        stop := blocksFor blockSize (tokens + t)
        tokens := tokens + t } ::
        if blocksFor blockSize (tokens + t) = blocksFor blockSize promptLen then []
        else pushTrace blockSize promptLen (tokens + t) (nextStart blockSize start tokens t) ts

/-- The step pushes block `b` when all prompt tokens of `b` have been computed. -/
def StepRecord.PushesFinal (blockSize promptLen : ℕ) (r : StepRecord) (b : ℕ) : Prop :=
  r.start ≤ b ∧ b < r.stop ∧ min ((b + 1) * blockSize) promptLen ≤ r.tokens

/-- Steps that add blocks start at a block boundary, and the step that reaches the last
block computes the whole prompt. -/
def Aligned (blockSize promptLen : ℕ) : ℕ → List ℕ → Prop
  | _, [] => True
  | tokens, t :: ts =>
      (blocksFor blockSize tokens < blocksFor blockSize (tokens + t) → blockSize ∣ tokens) ∧
      if blocksFor blockSize (tokens + t) = blocksFor blockSize promptLen then
        tokens + t = promptLen
      else Aligned blockSize promptLen (tokens + t) ts

instance Aligned.decidable (blockSize promptLen : ℕ) :
    ∀ tokens ts, Decidable (Aligned blockSize promptLen tokens ts)
  | _, [] => .isTrue trivial
  | tokens, t :: ts =>
      have := Aligned.decidable blockSize promptLen (tokens + t) ts
      inferInstanceAs (Decidable ((_ → _) ∧ ite _ _ _))

theorem nextStart_of_lt (h : blocksFor bs tokens < blocksFor bs (tokens + t)) :
    nextStart bs start tokens t = blocksFor bs tokens :=
  if_pos h

theorem nextStart_of_not_lt (h : ¬ blocksFor bs tokens < blocksFor bs (tokens + t)) :
    nextStart bs start tokens t = start :=
  if_neg h

theorem le_nextStart (h : start ≤ blocksFor bs tokens) : start ≤ nextStart bs start tokens t := by
  unfold nextStart
  split <;> omega

theorem nextStart_lt
    (h : start < blocksFor bs tokens ∨ blocksFor bs tokens < blocksFor bs (tokens + t))
    (hmono : blocksFor bs tokens ≤ blocksFor bs (tokens + t)) :
    nextStart bs start tokens t < blocksFor bs (tokens + t) := by
  unfold nextStart
  split <;> omega

theorem start_le_of_mem_pushTrace (hbs : 0 < bs) (hstart : start ≤ blocksFor bs tokens)
    (hr : r ∈ pushTrace bs promptLen tokens start ts) : start ≤ r.start := by
  induction ts generalizing tokens start with
  | nil => cases hr
  | cons t ts ih =>
    have hnext := le_nextStart (t := t) hstart
    rcases mem_cons.mp hr with rfl | hr
    · exact hnext
    · split at hr
      · cases hr
      · have hmono := blocksFor_mono hbs (Nat.le_add_right tokens t)
        refine hnext.trans (ih ?_ hr)
        unfold nextStart
        split <;> omega

theorem eq_length_of_stop_eq {k : ℕ} (hr : (pushTrace bs promptLen tokens start ts)[k]? = some r)
    (hstop : r.stop = blocksFor bs promptLen) :
    k + 1 = (pushTrace bs promptLen tokens start ts).length := by
  induction ts generalizing tokens start k with
  | nil => cases hr
  | cons t ts ih =>
    rw [pushTrace] at hr ⊢
    cases k with
    | zero =>
      cases hr
      rw [if_pos hstop]
      rfl
    | succ k =>
      rw [length_cons]
      split at hr
      · cases hr
      · rw [if_neg ‹_›, ih hr]

theorem exists_stop_eq_iff (hbs : 0 < bs) (hlt : blocksFor bs tokens < blocksFor bs promptLen)
    (hsum : tokens + ts.sum ≤ promptLen) :
    (∃ r ∈ pushTrace bs promptLen tokens start ts, r.stop = blocksFor bs promptLen) ↔
    blocksFor bs (tokens + ts.sum) = blocksFor bs promptLen := by
  induction ts generalizing tokens start with
  | nil => exact iff_of_false (by rintro ⟨r, hr, -⟩; cases hr) (by simpa using hlt.ne)
  | cons t ts ih =>
    rw [sum_cons] at hsum ⊢
    rw [← add_assoc] at hsum ⊢
    rw [pushTrace]
    have hlow := blocksFor_mono hbs (Nat.le_add_right (tokens + t) ts.sum)
    have hup := blocksFor_mono hbs hsum
    by_cases hend : blocksFor bs (tokens + t) = blocksFor bs promptLen
    · exact iff_of_true ⟨_, mem_cons_self, hend⟩ (by omega)
    · simpa [hend] using ih (by omega) hsum

/-- The blocks from the current plan on are pushed when final, now or later. -/
def PushedFinal (blockSize promptLen tokens start : ℕ) (ts : List ℕ) : Prop :=
  ∀ b, start ≤ b → b < blocksFor blockSize promptLen →
    (b + 1) * blockSize ≤ tokens ∨
      ∃ r ∈ pushTrace blockSize promptLen tokens start ts, r.PushesFinal blockSize promptLen b

/-- A step before the last block is reached: the blocks it pushes when final are those
the tokens computed at its end fill. -/
theorem pushedFinal_cons_iff (hbs : 0 < bs)
    (hmore : blocksFor bs (tokens + t) < blocksFor bs promptLen)
    (hstart : start ≤ nextStart bs start tokens t)
    (hfilled : ∀ b, start ≤ b → b < nextStart bs start tokens t → (b + 1) * bs ≤ tokens) :
    PushedFinal bs promptLen tokens start (t :: ts) ↔
      PushedFinal bs promptLen (tokens + t) (nextStart bs start tokens t) ts := by
  have hpush : ∀ b, nextStart bs start tokens t ≤ b →
      (StepRecord.PushesFinal bs promptLen
        ⟨nextStart bs start tokens t, blocksFor bs (tokens + t), tokens + t⟩ b ↔
      (b + 1) * bs ≤ tokens + t) := by
    intro b hb
    have hprompt := (lt_blocksFor_iff hbs).mp hmore
    have hb' : b < blocksFor bs (tokens + t) ↔ b * bs < tokens + t :=
      lt_blocksFor_iff hbs
    constructor
    · rintro ⟨-, hlt, hmin⟩
      have hle : (b + 1) * bs ≤ blocksFor bs (tokens + t) * bs :=
        Nat.mul_le_mul_right bs hlt
      rwa [min_eq_left (by omega)] at hmin
    · intro hle
      refine ⟨hb, hb'.mpr ?_, (min_le_left _ _).trans hle⟩
      rw [Nat.add_mul] at hle
      omega
  constructor
  · intro h b hb hN
    rcases h b (hstart.trans hb) hN with hfull | ⟨r, hr, hfinal⟩
    · exact .inl (hfull.trans (Nat.le_add_right _ _))
    · rw [pushTrace, if_neg hmore.ne] at hr
      rcases mem_cons.mp hr with rfl | hr
      · exact .inl ((hpush b hb).mp hfinal)
      · exact .inr ⟨r, hr, hfinal⟩
  · intro h b hb hN
    by_cases hnew : nextStart bs start tokens t ≤ b
    · rw [pushTrace, if_neg hmore.ne]
      rcases h b hnew hN with hfull | ⟨r, hr, hfinal⟩
      · exact .inr ⟨_, mem_cons_self, (hpush b hnew).mpr hfull⟩
      · exact .inr ⟨r, mem_cons_of_mem _ hr, hfinal⟩
    · exact .inl (hfilled b hb (by omega))

theorem pushedFinal_last_iff (hbs : 0 < bs) (hsum : tokens + t ≤ promptLen)
    (hmore : blocksFor bs tokens < blocksFor bs promptLen)
    (hend : blocksFor bs (tokens + t) = blocksFor bs promptLen)
    (hstart : start ≤ blocksFor bs tokens)
    (hfilled : ∀ b, start ≤ b → b < blocksFor bs tokens → (b + 1) * bs ≤ tokens) :
    PushedFinal bs promptLen tokens start (t :: ts) ↔ tokens + t = promptLen := by
  have htrace : pushTrace bs promptLen tokens start (t :: ts) =
      [⟨blocksFor bs tokens, blocksFor bs promptLen, tokens + t⟩] := by
    rw [pushTrace, if_pos hend, nextStart_of_lt (by omega), hend]
  have hprompt := le_blocksFor_mul hbs promptLen
  rw [PushedFinal, htrace]
  constructor
  · -- look at the last block
    intro h
    have hlast : blocksFor bs promptLen - 1 + 1 = blocksFor bs promptLen := by omega
    rcases h (blocksFor bs promptLen - 1) (by omega) (by omega) with hfull | ⟨r, hr, hfin⟩
    · rw [hlast] at hfull
      omega
    · rw [mem_singleton.mp hr] at hfin
      have hmin := hfin.2.2
      rw [hlast, min_eq_right hprompt] at hmin
      exact le_antisymm hsum hmin
  · intro h b hb hN
    by_cases hnew : blocksFor bs tokens ≤ b
    · exact .inr ⟨_, mem_cons_self, hnew, hN, (min_le_right _ _).trans h.ge⟩
    · exact .inl (hfilled b hb (by omega))

theorem not_pushedFinal_of_not_dvd (hbs : 0 < bs)
    (hgrow : blocksFor bs tokens < blocksFor bs (tokens + t))
    (hmore : blocksFor bs tokens < blocksFor bs promptLen) (hstart : start < blocksFor bs tokens)
    (hdvd : ¬ bs ∣ tokens) : ¬ PushedFinal bs promptLen tokens start (t :: ts) := by
  intro h
  have hlast : blocksFor bs tokens - 1 + 1 = blocksFor bs tokens := by omega
  rcases h (blocksFor bs tokens - 1) (by omega) (by omega) with hfull | ⟨r, hr, hfin⟩
  · rw [hlast, blocksFor_mul_le_iff hbs] at hfull
    exact hdvd hfull
  · have htrace : pushTrace bs promptLen tokens start (t :: ts) =
        pushTrace bs promptLen tokens (blocksFor bs tokens) (t :: ts) := by
      rw [pushTrace, pushTrace, nextStart_of_lt hgrow, nextStart_of_lt hgrow]
    rw [htrace] at hr
    have := start_le_of_mem_pushTrace hbs le_rfl hr
    have := hfin.1
    omega

/-- **When all blocks are pushed in their final state.**  For a cut that reaches the last
block, exactly when it is aligned. -/
theorem trace_final_iff (hbs : 0 < bs) (hpos : ∀ t ∈ ts, 0 < t) (hsum : tokens + ts.sum ≤ promptLen)
    (hmore : blocksFor bs tokens < blocksFor bs promptLen)
    (hreach : blocksFor bs (tokens + ts.sum) = blocksFor bs promptLen)
    (hstart : start < blocksFor bs tokens ∨ tokens = 0 ∧ start = 0) :
    PushedFinal bs promptLen tokens start ts ↔ Aligned bs promptLen tokens ts := by
  -- induction over the steps; a step that adds blocks gives up the plan before it
  induction ts generalizing tokens start with
  | nil =>
    rw [sum_nil, Nat.add_zero] at hreach
    omega
  | cons t ts ih =>
    rw [sum_cons, ← Nat.add_assoc] at hsum hreach
    have ht := hpos t mem_cons_self
    have hmono := blocksFor_mono hbs (Nat.le_add_right tokens t)
    have hmono' := blocksFor_mono hbs (Nat.le_add_right (tokens + t) ts.sum)
    have hle : start ≤ blocksFor bs tokens := by
      rcases hstart with hlt | ⟨-, rfl⟩
      · exact hlt.le
      · exact Nat.zero_le _
    have hnext : nextStart bs start tokens t < blocksFor bs (tokens + t) := by
      refine nextStart_lt (hstart.imp_right ?_) hmono
      rintro ⟨rfl, -⟩
      rw [Nat.zero_add]
      exact blocksFor_zero_lt hbs ht
    by_cases hgrow : blocksFor bs tokens < blocksFor bs (tokens + t)
    · by_cases hdvd : bs ∣ tokens
      · -- the plan before is complete
        have hfull := (blocksFor_mul_le_iff hbs).mpr hdvd
        have hfilled : ∀ b, start ≤ b → b < blocksFor bs tokens →
            (b + 1) * bs ≤ tokens := by
          intro b _ hb
          exact (Nat.mul_le_mul_right bs (Nat.succ_le_of_lt hb)).trans hfull
        by_cases hend : blocksFor bs (tokens + t) = blocksFor bs promptLen
        · rw [Aligned, if_pos hend, pushedFinal_last_iff hbs (by omega) hmore hend hle hfilled]
          simp [hdvd]
        · rw [Aligned, if_neg hend]
          rw [pushedFinal_cons_iff hbs (by omega) (le_nextStart hle)
            (by rwa [nextStart_of_lt hgrow])]
          rw [ih (fun t ht => hpos t (mem_cons_of_mem _ ht)) hsum (by omega) hreach
            (.inl hnext)]
          simp [hdvd]
      · -- the last block of the plan before is never pushed again
        refine iff_of_false ?_ (fun h => hdvd (h.1 hgrow))
        refine not_pushedFinal_of_not_dvd hbs hgrow hmore (hstart.resolve_right ?_) hdvd
        rintro ⟨rfl, -⟩
        exact hdvd (Nat.dvd_zero bs)
    · have hend : blocksFor bs (tokens + t) ≠ blocksFor bs promptLen := by omega
      rw [Aligned, if_neg hend, pushedFinal_cons_iff hbs (by omega) (le_nextStart hle)
            (by rw [nextStart_of_not_lt hgrow]; omega),
          ih (fun t ht => hpos t (mem_cons_of_mem _ ht)) hsum (by omega) hreach
            (.inl hnext)]
      simp [hgrow]

end Trace

/-! ### Scheduler connector and worker on one prompt -/

/-- A prompt to prefill and push: one KV cache group, no prefix-cache hit on either side,
the decode side listing one block per started prompt block. -/
structure PrefillJob where
  reqId : ReqId
  blockSize : ℕ
  promptLen : ℕ
  numLayers : ℕ
  /-- The block table of the whole prompt on this side. -/
  localIds : List ℕ
  decodeIds : List ℕ
  /-- The physical request of each decode rank written to. -/
  physicalReqIds : List String
  blockSize_pos : 0 < blockSize
  promptLen_pos : 0 < promptLen
  numLayers_pos : 0 < numLayers
  localIds_nodup : localIds.Nodup
  localIds_length : localIds.length = blocksFor blockSize promptLen
  decodeIds_nodup : decodeIds.Nodup
  decodeIds_length : decodeIds.length = blocksFor blockSize promptLen
  physicalReqIds_ne : physicalReqIds ≠ []
  physicalReqIds_nodup : physicalReqIds.Nodup

namespace PrefillJob

variable (job : PrefillJob)

/-- Blocks of the prompt. -/
def numBlocks : ℕ := blocksFor job.blockSize job.promptLen

def handshakeLayers : List LayerRemoteLayout :=
  buildHandshakeLayers job.numLayers (fun _ => 0) [job.decodeIds]

def pushConfig : PushConfig where
  numLayers := job.numLayers
  layerGroup _ := 0
  targets := job.physicalReqIds.map fun r =>
    { physicalReqId := r, layers := job.handshakeLayers }

def kvParams : ProducerKvParams (List LayerRemoteLayout) where
  targetRequestId := job.reqId
  handshakes := job.physicalReqIds.map fun _ => job.handshakeLayers
  consumerAbortReturnsAck := true

/-- The blocks vLLM adds to the table for `t` more tokens. -/
def newBlocks (tokens t : ℕ) : List ℕ :=
  (job.localIds.drop (blocksFor job.blockSize tokens)).take
    (blocksFor job.blockSize (tokens + t) - blocksFor job.blockSize tokens)

structure State where
  tokens : ℕ
  scheduler : PrefillScheduler (List LayerRemoteLayout)
  worker : PushState

def init : State where
  tokens := 0
  scheduler := .new
  worker := .new

/-- What a step leaves behind: the tokens computed at its end, the layer pushes submitted
in it, and whether the finalize task was. -/
structure Output where
  tokens : ℕ
  pushes : List LayerPush
  finalized : Bool
deriving DecidableEq

/-- The scheduler half of a step: the request is new in the first step, and among the
cached requests from then on. -/
def schedule (scheduler : PrefillScheduler (List LayerRemoteLayout)) (tokens t : ℕ) :
    PdConnectorMetadata (List LayerRemoteLayout) × PrefillScheduler (List LayerRemoteLayout) :=
  if tokens = 0 then
    (scheduler.updateStateAfterAlloc job.reqId (some job.kvParams)
      [job.newBlocks tokens t]).buildConnectorMeta [] fun _ => false
  else
    scheduler.buildConnectorMeta [(job.reqId, [job.newBlocks tokens t])] fun _ => false

/-- A vLLM step that schedules `t` more tokens of the prompt. -/
def step (job : PrefillJob) (s : State) (t : ℕ) : Option (State × Output) := do
  let scheduled := job.schedule s.scheduler s.tokens t
  let (worker, pushes, finalized) ← s.worker.step job.pushConfig
    ((scheduled.1.reqsToPush job.reqId).map localBlockIds)
  return ({ tokens := s.tokens + t, scheduler := scheduled.2, worker },
    { tokens := s.tokens + t, pushes, finalized })

/-- The outputs of a prefill cut into the steps `ts`. -/
def outputs (job : PrefillJob) : State → List ℕ → Option (List Output)
  | _, [] => some []
  | s, t :: ts => do
      let (s, out) ← job.step s t
      let more ← job.outputs s ts
      return out :: more

/-- When the request is finalized, for every layer and block there was a push in a step at
whose end all prompt tokens of the block had been computed. -/
def FinalContents (outs : List Output) : Prop :=
  ∀ k out, outs[k]? = some out → out.finalized →
    ∀ l < job.numLayers, ∀ b blockId, job.localIds[b]? = some blockId →
      ∃ out' ∈ outs.take (k + 1), (∃ p ∈ out'.pushes, p.Covers l blockId) ∧
        min ((b + 1) * job.blockSize) job.promptLen ≤ out'.tokens

/-! ### The scheduler hands on the blocks added in the step -/

variable {job : PrefillJob} {w : PushState}

theorem newBlocks_nodup (tokens t : ℕ) : (job.newBlocks tokens t).Nodup :=
  job.localIds_nodup.sublist ((take_sublist _ _).trans (drop_sublist _ _))

theorem newBlocks_length (h : tokens + t ≤ job.promptLen) :
    (job.newBlocks tokens t).length =
      blocksFor job.blockSize (tokens + t) - blocksFor job.blockSize tokens := by
  have := blocksFor_mono job.blockSize_pos h
  rw [newBlocks, length_take, length_drop, job.localIds_length]
  omega

/-- Before a step no push is pending, and after the first one the request is active. -/
structure Scheduled (job : PrefillJob) (scheduler : PrefillScheduler (List LayerRemoteLayout))
    (tokens : ℕ) : Prop where
  pending : scheduler.reqsToPush job.reqId = none
  active : tokens ≠ 0 → scheduler.activePushes job.reqId ≠ none

theorem schedule_spec {scheduler : PrefillScheduler (List LayerRemoteLayout)}
    (h : Scheduled job scheduler tokens) (hpos : 0 < t) (hsum : tokens + t ≤ job.promptLen) :
    ((job.schedule scheduler tokens t).1.reqsToPush job.reqId).map localBlockIds =
        (if blocksFor job.blockSize tokens < blocksFor job.blockSize (tokens + t) then
          some [job.newBlocks tokens t] else none) ∧
      Scheduled job (job.schedule scheduler tokens t).2 (tokens + t) := by
  have hlen := newBlocks_length hsum
  unfold schedule
  by_cases hzero : tokens = 0
  · rw [if_pos hzero]
    have hgrow : blocksFor job.blockSize tokens < blocksFor job.blockSize (tokens + t) := by
      rw [hzero, zero_add]
      exact blocksFor_zero_lt job.blockSize_pos hpos
    rw [if_pos hgrow]
    refine ⟨?_, rfl, fun _ => ?_⟩ <;>
      simp [PrefillScheduler.buildConnectorMeta, PrefillScheduler.updateStateAfterAlloc]
  · rw [if_neg hzero]
    obtain ⟨req, hreq⟩ := Option.ne_none_iff_exists'.mp (h.active hzero)
    have hblocks : hasBlocks [job.newBlocks tokens t] ↔
        blocksFor job.blockSize tokens < blocksFor job.blockSize (tokens + t) := by
      simp only [hasBlocks, any_cons, any_nil, Bool.or_false, decide_eq_true_eq, hlen]
      omega
    by_cases hgrow : blocksFor job.blockSize tokens < blocksFor job.blockSize (tokens + t)
    · have := hblocks.mpr hgrow
      refine ⟨?_, rfl, fun _ => ?_⟩ <;>
        simp [PrefillScheduler.buildConnectorMeta, PrefillScheduler.addCachedProducerChunk,
          h.pending, hreq, this, hgrow]
    · have := (Bool.not_eq_true _).mp fun hb => hgrow (hblocks.mp hb)
      refine ⟨?_, rfl, fun _ => ?_⟩ <;>
        simp [PrefillScheduler.buildConnectorMeta, PrefillScheduler.addCachedProducerChunk,
          h.pending, hreq, this, hgrow]

/-! ### The worker pushes the chunk installed last -/

theorem numBlocks_pos (job : PrefillJob) : 0 < job.numBlocks :=
  Nat.pos_of_ne_zero fun h => by
    have := blocksFor_zero_lt job.blockSize_pos job.promptLen_pos
    rw [numBlocks] at h
    omega

theorem layersByIdx_handshakeLayers {l : ℕ} (hl : l < job.numLayers) :
    layersByIdx job.handshakeLayers l =
      some { layerIdx := l, blockIds := sorted job.decodeIds } := by
  have hids : blockIdsForLayer 0 [job.decodeIds] = job.decodeIds := job.decodeIds_nodup.dedup
  have hne : job.decodeIds ≠ [] := by
    have := job.numBlocks_pos
    rw [← length_pos_iff, job.decodeIds_length]
    exact this
  rw [handshakeLayers, layersByIdx_buildHandshakeLayers hl (by rw [hids]; exact hne), hids]

/-- The targets have all received the first `off` decode ids, in every layer. -/
def SentUpTo (job : PrefillJob) (offsets : RemoteBlockOffsets) (off : ℕ) : Prop :=
  ∃ f, OffsetsAt job.pushConfig.targets offsets f ∧ ∀ l < job.numLayers, f l = off

/-- The installed plan covers exactly the blocks `ids`, in every layer. -/
def PlanCovers (job : PrefillJob) (w : PushState) (ids : List ℕ) : Prop :=
  ∀ l < job.numLayers, ∀ b, (∃ q ∈ w.planPushes l, q.Covers l b) ↔ b ∈ ids

/-- Installing a chunk that fits: it is planned as a whole, and it is the last one iff it
reaches the end of the decode list. -/
theorem processPushReq_spec {c : List ℕ} {off : ℕ} (hdone : w.done = false)
    (hsent : job.SentUpTo w.offsets off) (hne : c ≠ []) (hc : c.Nodup)
    (hfits : off + c.length ≤ job.numBlocks) :
    ∃ w', w.processPushReq job.pushConfig [c] = some w' ∧ w'.Live job.pushConfig ∧
      job.SentUpTo w'.offsets (off + c.length) ∧ job.PlanCovers w' c ∧
      w'.allLayersSeen = decide (off + c.length = job.numBlocks) := by
  obtain ⟨f, hoff, hf⟩ := hsent
  have hids : blockIdsForLayer 0 [c] = c := hc.dedup
  have hlen : (sorted job.decodeIds).length = job.numBlocks := by
    rw [length_sorted, job.decodeIds_length, numBlocks]
  have hmap : remoteBlockIdMap (sorted job.decodeIds) off c =
      (((sorted c).zip ((sorted job.decodeIds).drop off),
        decide (off + c.length = job.numBlocks)), off + c.length) := by
    rw [remoteBlockIdMap_eq (by omega) (by omega), hlen, min_eq_left hfits]
    congr 2
    exact decide_eq_decide.mpr ⟨le_antisymm hfits, fun h => h.ge⟩
  have htargets : ∀ t ∈ job.pushConfig.targets, t.layers = job.handshakeLayers := by
    intro t ht
    obtain ⟨r, -, rfl⟩ := mem_map.mp ht
    rfl
  have htargets_ne : job.pushConfig.targets ≠ [] := by
    simpa [pushConfig] using job.physicalReqIds_ne
  have hphysical : (job.pushConfig.targets.map PushTarget.physicalReqId).Nodup := by
    simpa [pushConfig, map_map, Function.comp_def] using job.physicalReqIds_nodup
  obtain ⟨plans, offsets, hprep, hoff', hlookup⟩ :=
    preparePushLayers_eq job.pushConfig.layerGroup [c] htargets hphysical
      (fun l hl => layersByIdx_handshakeLayers (mem_range.mp hl))
      (nodup_range (n := job.numLayers)) hoff
  have hplan : ∀ l < job.numLayers, plans.lookup l = some
      { reqBlocks := c
        targetMaps := job.pushConfig.targets.map fun _ =>
          (sorted c).zip ((sorted job.decodeIds).drop off)
        allChunksSeen := decide (off + c.length = job.numBlocks) } := by
    intro l hl
    rw [hlookup l, if_pos (mem_range.mpr hl), layerPlan,
      show blockIdsForLayer (job.pushConfig.layerGroup l) [c] = c from hids, if_neg hne, hf l hl,
      hmap]
    dsimp only
    rw [all_const htargets_ne]
  obtain ⟨w', hw', rfl, rfl⟩ : ∃ w', w.processPushReq job.pushConfig [c] = some w' ∧
      w'.layerPlans = plans ∧ w'.offsets = offsets := by
    unfold processPushReq
    rw [show range job.pushConfig.numLayers = range job.numLayers from rfl, hprep]
    exact ⟨_, rfl, rfl, rfl⟩
  have hlive := (processPushReq_live hdone hw').1
  refine ⟨w', hw', hlive, ⟨_, hoff', ?_⟩, ?_, ?_⟩
  · intro l hl
    rw [if_pos (mem_range.mpr hl), layerOffset,
      show blockIdsForLayer (job.pushConfig.layerGroup l) [c] = c from hids, if_neg hne, hf l hl,
      hmap]
  · intro l hl b
    -- the zip cuts nothing off the chunk
    have hfst : ((sorted c).zip ((sorted job.decodeIds).drop off)).map Prod.fst = sorted c := by
      rw [map_fst_zip]
      rw [length_drop, length_sorted]
      omega
    rw [planPushes, hplan l hl]
    refine covers_layerPushes_iff.trans ⟨?_, ?_⟩
    · rintro ⟨-, m, hm, hb⟩
      obtain ⟨_, -, rfl⟩ := mem_map.mp hm
      rw [hfst] at hb
      exact mem_sorted.mp hb
    · intro hb
      obtain ⟨target, htarget⟩ := exists_mem_of_ne_nil _ htargets_ne
      exact ⟨rfl, _, mem_map.mpr ⟨target, htarget, rfl⟩, by rw [hfst]; exact mem_sorted.mpr hb⟩
  · rw [hlive.allSeen, planAllSeen, Bool.eq_iff_iff, all_eq_true]
    constructor
    · intro h
      have hfirst := h 0 (mem_range.mpr job.numLayers_pos)
      rwa [hplan 0 job.numLayers_pos] at hfirst
    · intro h l hl
      rwa [hplan l (mem_range.mp hl)]

/-! ### The run is the trace -/

variable {s : State}

/-- The state between two steps of a prompt that is not finalized yet. -/
structure Sync (job : PrefillJob) (start : ℕ) (s : State) : Prop where
  scheduled : Scheduled job s.scheduler s.tokens
  done : s.worker.done = false
  sent : job.SentUpTo s.worker.offsets (blocksFor job.blockSize s.tokens)
  more : blocksFor job.blockSize s.tokens < job.numBlocks
  plan : s.tokens ≠ 0 → s.worker.Live job.pushConfig ∧ s.worker.allLayersSeen = false ∧
    job.PlanCovers s.worker
      ((job.localIds.drop start).take (blocksFor job.blockSize s.tokens - start))

/-- The state once the prompt is finalized. -/
structure Finalized (job : PrefillJob) (s : State) : Prop where
  scheduled : Scheduled job s.scheduler s.tokens
  done : s.worker.done
  full : blocksFor job.blockSize s.tokens = job.numBlocks

theorem sync_init (job : PrefillJob) : Sync job 0 init where
  scheduled := ⟨rfl, fun h => absurd rfl h⟩
  done := rfl
  sent := ⟨fun _ => 0, fun _ _ _ => rfl, fun _ _ => (blocksFor_zero job.blockSize_pos).symm⟩
  more := (blocksFor_zero job.blockSize_pos).trans_lt job.numBlocks_pos
  plan h := absurd rfl h

/-- The output of a step is what its record says. -/
structure Matches (job : PrefillJob) (out : Output) (r : StepRecord) : Prop where
  tokens : out.tokens = r.tokens
  covers : ∀ l < job.numLayers, ∀ b, (∃ p ∈ out.pushes, p.Covers l b) ↔
    b ∈ (job.localIds.drop r.start).take (r.stop - r.start)
  finalized : out.finalized ↔ r.stop = job.numBlocks

theorem install_spec (h : Sync job start s) (hpos : 0 < t) (hsum : s.tokens + t ≤ job.promptLen) :
    ∃ w, (if blocksFor job.blockSize s.tokens < blocksFor job.blockSize (s.tokens + t) then
        s.worker.processPushReq job.pushConfig [job.newBlocks s.tokens t] else some s.worker) =
          some w ∧
      w.Live job.pushConfig ∧ job.SentUpTo w.offsets (blocksFor job.blockSize (s.tokens + t)) ∧
      job.PlanCovers w ((job.localIds.drop (nextStart job.blockSize start s.tokens t)).take
        (blocksFor job.blockSize (s.tokens + t) - nextStart job.blockSize start s.tokens t)) ∧
      w.allLayersSeen = decide (blocksFor job.blockSize (s.tokens + t) = job.numBlocks) := by
  have hmono := blocksFor_mono job.blockSize_pos (Nat.le_add_right s.tokens t)
  have hup : blocksFor job.blockSize (s.tokens + t) ≤ job.numBlocks :=
    blocksFor_mono job.blockSize_pos hsum
  by_cases hgrow : blocksFor job.blockSize s.tokens < blocksFor job.blockSize (s.tokens + t)
  · have hlen := newBlocks_length hsum
    have hnew : blocksFor job.blockSize s.tokens + (job.newBlocks s.tokens t).length =
        blocksFor job.blockSize (s.tokens + t) := by omega
    have hne : job.newBlocks s.tokens t ≠ [] := ne_nil_of_length_pos (by omega)
    obtain ⟨w, hw, hlive, hsent, hcov, hseen⟩ := processPushReq_spec h.done h.sent hne
      (newBlocks_nodup s.tokens t) (by omega)
    rw [hnew] at hsent hseen
    rw [if_pos hgrow, nextStart_of_lt hgrow]
    exact ⟨w, hw, hlive, hsent, hcov, hseen⟩
  · -- the table does not grow, so this is not the first step
    have hne : s.tokens ≠ 0 := by
      intro hzero
      rw [hzero, zero_add] at hgrow
      exact hgrow (blocksFor_zero_lt job.blockSize_pos hpos)
    have hsame : blocksFor job.blockSize (s.tokens + t) = blocksFor job.blockSize s.tokens := by
      omega
    obtain ⟨hlive, hseen, hcov⟩ := h.plan hne
    rw [if_neg hgrow, nextStart_of_not_lt hgrow, hsame]
    exact ⟨s.worker, rfl, hlive, h.sent, hcov, by rw [hseen]; simpa using h.more.ne⟩

theorem step_eq {pushes : List LayerPush} {finalized : Bool} (h : s.worker.step job.pushConfig
      (((job.schedule s.scheduler s.tokens t).1.reqsToPush job.reqId).map
        localBlockIds) = some (w, pushes, finalized)) :
    job.step s t = some (⟨s.tokens + t, (job.schedule s.scheduler s.tokens t).2, w⟩,
      ⟨s.tokens + t, pushes, finalized⟩) := by
  simp [step, h]

theorem step_spec (h : Sync job start s) (hpos : 0 < t) (hsum : s.tokens + t ≤ job.promptLen) :
    ∃ s' out, job.step s t = some (s', out) ∧ s'.tokens = s.tokens + t ∧
      Matches job out { start := nextStart job.blockSize start s.tokens t
                        stop := blocksFor job.blockSize (s.tokens + t)
                        tokens := s.tokens + t } ∧
      if blocksFor job.blockSize (s.tokens + t) = job.numBlocks then Finalized job s'
      else Sync job (nextStart job.blockSize start s.tokens t) s' := by
  obtain ⟨hchunk, hsched⟩ := schedule_spec h.scheduled hpos hsum
  obtain ⟨w, hw, hlive, hsent, hcov, hseen⟩ := install_spec h hpos hsum
  obtain ⟨w', hsave, hdone, hrest⟩ := saveLayers_live hlive job.numLayers_pos
  have hworker : s.worker.step job.pushConfig
      (((job.schedule s.scheduler s.tokens t).1.reqsToPush job.reqId).map
        localBlockIds) =
      some (w', (range job.numLayers).flatMap w.planPushes, w.allLayersSeen) := by
    rw [hchunk]
    split at hw
    · rw [if_pos ‹_›, step_some hw, hsave]
      rfl
    · cases hw
      rw [if_neg ‹_›, step_none, hsave]
      rfl
  refine ⟨_, _, step_eq hworker, rfl, ⟨rfl, ?_, ?_⟩, ?_⟩
  · intro l hl b
    exact (covers_planPushes_iff (mem_range.mpr hl)).trans (hcov l hl b)
  · simp [hseen]
  · split
    · next hend => exact ⟨hsched, by rw [hdone, hseen]; simpa using hend, hend⟩
    · next hend =>
      have hup := blocksFor_mono job.blockSize_pos hsum
      have hno : w.allLayersSeen = false := by rw [hseen]; simpa using hend
      obtain ⟨hlive', hsame⟩ := hrest hno
      refine ⟨hsched, hlive'.done, ?_, lt_of_le_of_ne hup hend, fun _ => ⟨hlive', ?_, ?_⟩⟩
      · rw [hsame.offsets]
        exact hsent
      · exact hsame.allLayersSeen.trans hno
      · intro l hl b
        rw [hsame.planPushes]
        exact hcov l hl b

theorem step_finalized (h : Finalized job s) (hpos : 0 < t) (hsum : s.tokens + t ≤ job.promptLen) :
    ∃ s' out, job.step s t = some (s', out) ∧ s'.tokens = s.tokens + t ∧ Finalized job s' ∧
      out.finalized = false := by
  obtain ⟨hchunk, hsched⟩ := schedule_spec h.scheduled hpos hsum
  have hmono := blocksFor_mono job.blockSize_pos (Nat.le_add_right s.tokens t)
  have hup : blocksFor job.blockSize (s.tokens + t) ≤ job.numBlocks :=
    blocksFor_mono job.blockSize_pos hsum
  have hfull := h.full
  rw [if_neg (by omega)] at hchunk
  have hworker : s.worker.step job.pushConfig
      (((job.schedule s.scheduler s.tokens t).1.reqsToPush job.reqId).map
        localBlockIds) = some (s.worker, [], false) := by
    rw [hchunk, step_none, saveLayers_done h.done]
  exact ⟨_, _, step_eq hworker, rfl, ⟨hsched, h.done, by dsimp only; omega⟩, rfl⟩

theorem outputs_finalized (h : Finalized job s) (hpos : ∀ t ∈ ts, 0 < t)
    (hsum : s.tokens + ts.sum ≤ job.promptLen) :
    ∃ outs, job.outputs s ts = some outs ∧ ∀ out ∈ outs, out.finalized = false := by
  induction ts generalizing s with
  | nil => exact ⟨[], rfl, by simp⟩
  | cons t ts ih =>
    rw [sum_cons] at hsum
    obtain ⟨s', out, hstep, htok, hfin, hout⟩ :=
      step_finalized h (hpos t mem_cons_self) (by omega)
    obtain ⟨outs, houts, hall⟩ := ih hfin (fun t ht => hpos t (mem_cons_of_mem _ ht))
      (by omega)
    refine ⟨out :: outs, by simp [outputs, hstep, houts], ?_⟩
    rintro o (- | ⟨-, ho⟩)
    · exact hout
    · exact hall o ho

/-- **Scheduler connector and worker produce the trace of the cut**, and after it no
finalization. -/
theorem outputs_match (h : Sync job start s) (hpos : ∀ t ∈ ts, 0 < t)
    (hsum : s.tokens + ts.sum ≤ job.promptLen) :
    ∃ outs rest, job.outputs s ts = some (outs ++ rest) ∧ Forall₂ (Matches job) outs
        (pushTrace job.blockSize job.promptLen s.tokens start ts) ∧
      ∀ out ∈ rest, out.finalized = false := by
  induction ts generalizing s start with
  | nil => exact ⟨[], [], rfl, .nil, by simp⟩
  | cons t ts ih =>
    rw [sum_cons] at hsum
    have hpos' := fun u hu => hpos u (mem_cons_of_mem t hu)
    obtain ⟨s', out, hstep, htok, hmatch, hnext⟩ :=
      step_spec h (hpos t mem_cons_self) (by omega)
    rw [pushTrace, show blocksFor job.blockSize job.promptLen = job.numBlocks from rfl]
    by_cases hend : blocksFor job.blockSize (s.tokens + t) = job.numBlocks
    · rw [if_pos hend] at hnext ⊢
      obtain ⟨rest, hrest, hall⟩ := outputs_finalized hnext hpos' (by omega)
      exact ⟨[out], rest, by simp [outputs, hstep, hrest], .cons hmatch .nil, hall⟩
    · rw [if_neg hend] at hnext ⊢
      obtain ⟨outs, rest, hrest, hmatches, hall⟩ := ih hnext hpos' (by omega)
      rw [htok] at hmatches
      exact ⟨out :: outs, rest, by simp [outputs, hstep, hrest], .cons hmatch hmatches, hall⟩

theorem mem_take_drop_iff (job : PrefillJob) {stop blockId : ℕ}
    (hb : job.localIds[b]? = some blockId) :
    blockId ∈ (job.localIds.drop start).take (stop - start) ↔ start ≤ b ∧ b < stop := by
  obtain ⟨hlt, rfl⟩ := List.getElem?_eq_some_iff.mp hb
  rw [mem_iff_getElem?]
  constructor
  · rintro ⟨i, hi⟩
    rw [getElem?_take] at hi
    split at hi
    · rw [getElem?_drop] at hi
      obtain ⟨hlt', heq⟩ := List.getElem?_eq_some_iff.mp hi
      have := (job.localIds_nodup.getElem_inj_iff).mp heq
      omega
    · cases hi
  · rintro ⟨hle, hstop⟩
    refine ⟨b - start, ?_⟩
    rw [getElem?_take, if_pos (by omega), getElem?_drop, Nat.add_sub_cancel' hle,
      getElem?_eq_getElem hlt]

theorem Matches.covers_iff {out : Output} (h : Matches job out r) {l : ℕ} (hl : l < job.numLayers)
    {blockId : ℕ} (hb : job.localIds[b]? = some blockId) :
    ((∃ p ∈ out.pushes, p.Covers l blockId) ∧
        min ((b + 1) * job.blockSize) job.promptLen ≤ out.tokens) ↔
      r.PushesFinal job.blockSize job.promptLen b := by
  rw [h.covers l hl, job.mem_take_drop_iff hb, h.tokens, StepRecord.PushesFinal, and_assoc]

/-- The contents are final iff the trace, once it reaches the last block, pushes every block
when final. -/
theorem finalContents_iff_trace {outs rest : List Output}
    (hmatch : List.Forall₂ (Matches job) outs (pushTrace job.blockSize job.promptLen 0 0 ts))
    (hrest : ∀ out ∈ rest, out.finalized = false) :
    job.FinalContents (outs ++ rest) ↔
      ((∃ r ∈ pushTrace job.blockSize job.promptLen 0 0 ts, r.stop = job.numBlocks) →
        ∀ b < job.numBlocks, ∃ r ∈ pushTrace job.blockSize job.promptLen 0 0 ts,
          r.PushesFinal job.blockSize job.promptLen b) := by
  -- the step that finalizes is the last one of the trace
  have hlast : ∀ k r, (pushTrace job.blockSize job.promptLen 0 0 ts)[k]? = some r →
      r.stop = job.numBlocks → (outs ++ rest).take (k + 1) = outs := by
    intro k r hr hstop
    rw [eq_length_of_stop_eq hr hstop, ← hmatch.length_eq]
    exact take_left
  constructor
  · rintro h ⟨r, hr, hstop⟩ b hb
    obtain ⟨k, hk⟩ := mem_iff_getElem?.mp hr
    obtain ⟨out, hout, hm⟩ := forall₂_getElem? hmatch.flip hk
    have hlt : b < job.localIds.length := by rwa [job.localIds_length]
    obtain ⟨out', hmem, hpush⟩ := h k out
      (by rw [getElem?_append_left (List.getElem?_eq_some_iff.mp hout).1]; exact hout)
      (hm.finalized.mpr hstop) 0 job.numLayers_pos b _ (getElem?_eq_getElem hlt)
    rw [hlast k r hk hstop] at hmem
    obtain ⟨k', hk'⟩ := mem_iff_getElem?.mp hmem
    obtain ⟨r', hr', hm'⟩ := forall₂_getElem? hmatch hk'
    exact ⟨r', mem_of_getElem? hr',
      (hm'.covers_iff job.numLayers_pos (getElem?_eq_getElem hlt)).mp hpush⟩
  · intro h k out hk hfin l hl b blockId hb
    have hin : k < outs.length := by
      by_contra hge
      rw [getElem?_append_right (by omega)] at hk
      have := hrest out (mem_of_getElem? hk)
      rw [hfin] at this
      cases this
    rw [getElem?_append_left hin] at hk
    obtain ⟨r, hr, hm⟩ := forall₂_getElem? hmatch hk
    have hstop := hm.finalized.mp hfin
    have hlt : b < job.numBlocks := by
      rw [numBlocks, ← job.localIds_length]
      exact (List.getElem?_eq_some_iff.mp hb).1
    obtain ⟨r', hr', hpush⟩ := h ⟨r, mem_of_getElem? hr, hstop⟩ b hlt
    obtain ⟨k', hk'⟩ := mem_iff_getElem?.mp hr'
    obtain ⟨out', hout', hm'⟩ := forall₂_getElem? hmatch.flip hk'
    rw [hlast k r hr hstop]
    exact ⟨out', mem_of_getElem? hout', (hm'.covers_iff hl hb).mpr hpush⟩

/-- **Final contents under chunked prefill.**  However the prefill is cut, scheduler
connector and worker run it through; what was pushed when the request is finalized is final
exactly when every step that adds blocks starts at a block boundary and the step that reaches
the last block computes the whole prompt. -/
theorem finalContents_iff (job : PrefillJob) (ts : List ℕ) (hpos : ∀ t ∈ ts, 0 < t)
    (hsum : ts.sum ≤ job.promptLen) :
    ∃ outs, job.outputs init ts = some outs ∧ (job.FinalContents outs ↔
        (blocksFor job.blockSize ts.sum = job.numBlocks →
          Aligned job.blockSize job.promptLen 0 ts)) := by
  have hbs := job.blockSize_pos
  have hmore : blocksFor job.blockSize 0 < blocksFor job.blockSize job.promptLen :=
    blocksFor_zero_lt hbs job.promptLen_pos
  have hsum' : 0 + ts.sum ≤ job.promptLen := by rwa [Nat.zero_add]
  obtain ⟨outs, rest, houts, hmatch, hrest⟩ := outputs_match (sync_init job) hpos hsum'
  refine ⟨outs ++ rest, houts, ?_⟩
  have hreach : (∃ r ∈ pushTrace job.blockSize job.promptLen 0 0 ts, r.stop = job.numBlocks) ↔
      blocksFor job.blockSize (0 + ts.sum) = job.numBlocks := exists_stop_eq_iff hbs hmore hsum'
  rw [Nat.zero_add] at hreach
  rw [finalContents_iff_trace hmatch hrest, hreach]
  refine imp_congr_right fun hfull => ?_
  rw [← trace_final_iff hbs hpos hsum' hmore (by rwa [Nat.zero_add]) (.inr ⟨rfl, rfl⟩)]
  -- no block is full before the first step
  have hnone : ∀ b, ¬ (b + 1) * job.blockSize ≤ 0 := fun b =>
    not_le.mpr (Nat.mul_pos b.succ_pos hbs)
  simp only [PushedFinal, numBlocks, hnone, Nat.zero_le, false_or, true_implies]

/-- A prompt of six tokens in blocks of four, one layer, one decode rank. -/
def sixTokens : PrefillJob where
  reqId := "r"
  blockSize := 4
  promptLen := 6
  numLayers := 1
  localIds := [7, 8]
  decodeIds := [1, 2]
  physicalReqIds := ["r"]
  blockSize_pos := Nat.two_pow_pos 2
  promptLen_pos := by decide
  numLayers_pos := Nat.one_pos
  localIds_nodup := by decide
  localIds_length := by decide
  decodeIds_nodup := by decide
  decodeIds_length := by decide
  physicalReqIds_ne := by decide
  physicalReqIds_nodup := by decide

theorem finalContents_fourTwo :
    ∃ outs, sixTokens.outputs init [4, 2] = some outs ∧ sixTokens.FinalContents outs := by
  obtain ⟨outs, houts, hiff⟩ := finalContents_iff sixTokens [4, 2] (by decide) (by decide)
  exact ⟨outs, houts, hiff.mpr fun _ => by decide⟩

/-- Cut after three tokens, block 7 is pushed with three of its four tokens only, and the
request is finalized in the second step. -/
theorem not_finalContents_threeThree :
    ∃ outs, sixTokens.outputs init [3, 3] = some outs ∧ ¬ sixTokens.FinalContents outs := by
  refine ⟨[⟨3, [⟨0, 0, [(7, 1)]⟩], false⟩, ⟨6, [⟨0, 0, [(8, 2)]⟩], true⟩], by decide, ?_⟩
  intro h
  obtain ⟨out, hout, ⟨p, hp, -, hcov⟩, htok⟩ := h 1 _ rfl rfl 0 (by decide) 0 7 rfl
  rcases hout with - | ⟨-, hout⟩
  · exact absurd htok (by decide)
  · cases mem_singleton.mp hout
    cases mem_singleton.mp hp
    exact absurd hcov (by decide)

/-! ### One finalization -/

theorem countP_finalized (h : Sync job start s) (hpos : ∀ t ∈ ts, 0 < t)
    (hsum : s.tokens + ts.sum ≤ job.promptLen) :
    ∃ outs, job.outputs s ts = some outs ∧ outs.countP Output.finalized =
      if blocksFor job.blockSize (s.tokens + ts.sum) = job.numBlocks then 1 else 0 := by
  induction ts generalizing s start with
  | nil => exact ⟨[], rfl, (if_neg h.more.ne).symm⟩
  | cons t ts ih =>
    rw [sum_cons, ← add_assoc] at hsum ⊢
    have hpos' := fun u hu => hpos u (mem_cons_of_mem t hu)
    obtain ⟨s', out, hstep, htok, hmatch, hnext⟩ :=
      step_spec h (hpos t mem_cons_self) (by omega)
    rw [← htok] at hsum hmatch hnext ⊢
    by_cases hend : blocksFor job.blockSize s'.tokens = job.numBlocks
    · -- the step finalizes, and no later one does
      rw [if_pos hend] at hnext
      obtain ⟨rest, hrest, hnone⟩ := outputs_finalized hnext hpos' hsum
      refine ⟨out :: rest, by simp [outputs, hstep, hrest], ?_⟩
      have hlow := blocksFor_mono job.blockSize_pos (Nat.le_add_right s'.tokens ts.sum)
      have hup : _ ≤ job.numBlocks := blocksFor_mono job.blockSize_pos hsum
      rw [countP_cons_of_pos (hmatch.finalized.mpr hend), if_pos (by omega)]
      simpa using hnone
    · rw [if_neg hend] at hnext
      obtain ⟨outs, houts, hcount⟩ := ih hnext hpos' hsum
      refine ⟨out :: outs, by simp [outputs, hstep, houts], ?_⟩
      rw [countP_cons_of_neg (mt hmatch.finalized.mp hend), hcount]

/-- **A prompt is finalized once.**  However the prefill is cut, scheduler connector and worker run
it through, and exactly one step finalizes the request if the tokens computed reach its last block,
none otherwise. -/
theorem finalized_once (job : PrefillJob) (ts : List ℕ) (hpos : ∀ t ∈ ts, 0 < t)
    (hsum : ts.sum ≤ job.promptLen) :
    ∃ outs, job.outputs init ts = some outs ∧ outs.countP Output.finalized =
      if blocksFor job.blockSize ts.sum = job.numBlocks then 1 else 0 := by
  have hsum' : init.tokens + ts.sum ≤ job.promptLen := by rwa [init, Nat.zero_add]
  have := countP_finalized (sync_init job) hpos hsum'
  rwa [init, Nat.zero_add] at this

theorem finalized_once_three_two_one :
    ∃ outs, sixTokens.outputs init [3, 2, 1] = some outs ∧ outs.countP Output.finalized = 1 :=
  finalized_once sixTokens [3, 2, 1] (by decide) (by decide)

end PrefillJob

end PegaFlow
