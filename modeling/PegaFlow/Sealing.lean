/-
PegaFlow/Sealing.lean

What the insert worker makes of the deliveries of a key, and what it leaves in flight.

A delivery is a slot with its block and the NUMA node of its batch.  The state of a key depends on
the list of its deliveries only, however they are cut into entries and batches: in flight, slot
`i` is the first delivery for `i` (`Assembled`), and as soon as there is a delivery for every slot
the key is sealed with exactly these (`IsSealed`).  Inside a batch the entries that follow start
again from nothing, and may seal the key once more (`KeyState`).
-/
import PegaFlow.WritePath
import PegaFlow.Run
import Mathlib.Data.List.Induction

namespace PegaFlow.WritePath

open List Option InflightBlock WriteState Worker

variable {K B : Type} [DecidableEq K] {fp : B → ℕ}

/-! ### Deliveries -/

/-- A slot id with its block and the NUMA node of the batch. -/
abbrev Delivery (B : Type) := ℕ × B × NumaNode

/-- The first delivery for slot `i`. -/
def firstFor (i : ℕ) (ds : List (Delivery B)) : Option (B × NumaNode) :=
  (ds.find? (·.1 = i)).map Prod.snd

/-- The deliveries an entry makes. -/
def deliver (numaNode : NumaNode) (slots : List (ℕ × B)) : List (Delivery B) :=
  slots.map fun p => (p.1, p.2, numaNode)

/-- The entries that arrive for one key, each with the NUMA node of its batch. -/
abbrev Arrivals (B : Type) := List (NumaNode × List (ℕ × B))

def Arrivals.deliveries (as : Arrivals B) : List (Delivery B) :=
  as.flatMap fun a => deliver a.1 a.2

variable (n : ℕ)

/-- No slot of `n` is missing. -/
def Arrivals.Complete (as : Arrivals B) : Prop :=
  as ≠ [] ∧ ∀ i < n, (firstFor i as.deliveries).isSome

variable (batch : InsertBatch K B)

/-- The entries for `key` in a batch, in the order the worker sees them. -/
def InsertBatch.arrivals (key : K) : Arrivals B :=
  (batch.entries.filter (·.1 = key)).map fun e => (batch.numaNode, e.2)

/-- The entries for `key` in a sequence of batches. -/
def arrivals (key : K) (inputs : List ((K → Bool) × InsertBatch K B)) : Arrivals B :=
  inputs.flatMap fun x => x.2.arrivals key

theorem firstFor_append (i : ℕ) (ds es : List (Delivery B)) :
    firstFor i (ds ++ es) = (firstFor i ds).or (firstFor i es) := by
  rw [firstFor, find?_append, map_or]
  rfl

theorem firstFor_append_of_isSome {i : ℕ} {ds : List (Delivery B)} (es : List (Delivery B))
    (h : (firstFor i ds).isSome) : firstFor i (ds ++ es) = firstFor i ds := by
  obtain ⟨d, hd⟩ := isSome_iff_exists.mp h
  rw [firstFor_append, hd]
  rfl

theorem Arrivals.deliveries_append (as bs : Arrivals B) :
    Arrivals.deliveries (as ++ bs) = as.deliveries ++ bs.deliveries :=
  flatMap_append

theorem Arrivals.deliveries_singleton (numaNode : NumaNode) (slots : List (ℕ × B)) :
    Arrivals.deliveries [(numaNode, slots)] = deliver numaNode slots :=
  append_nil _

theorem Arrivals.Complete.append {n : ℕ} {as : Arrivals B} (h : as.Complete n) (bs : Arrivals B) :
    Arrivals.Complete n (as ++ bs) := by
  refine ⟨append_ne_nil_of_left_ne_nil h.1 bs, ?_⟩
  intro i hi
  rw [Arrivals.deliveries_append, firstFor_append_of_isSome _ (h.2 i hi)]
  exact h.2 i hi

theorem Arrivals.Complete.prepend {n : ℕ} {bs : Arrivals B} (h : bs.Complete n) (as : Arrivals B) :
    Arrivals.Complete n (as ++ bs) := by
  refine ⟨append_ne_nil_of_right_ne_nil as h.1, ?_⟩
  intro i hi
  rw [Arrivals.deliveries_append, firstFor_append, isSome_or, h.2 i hi, Bool.or_true]

/-- The last entry brings what was missing. -/
def Arrivals.Completes (as : Arrivals B) : Prop :=
  as.Complete n ∧ ∀ pre rest, as = pre ++ rest → pre.Complete n → rest = []

theorem Arrivals.completes_snoc {n : ℕ} {as : Arrivals B} {a : NumaNode × List (ℕ × B)}
    (hopen : ¬ as.Complete n) (h : Arrivals.Complete n (as ++ [a])) :
    Arrivals.Completes n (as ++ [a]) := by
  refine ⟨h, fun pre rest heq hpre => ?_⟩
  rcases eq_nil_or_concat' rest with rfl | ⟨rest, b, rfl⟩
  · rfl
  · rw [← append_assoc] at heq
    exact absurd ((append_inj' heq rfl).1 ▸ hpre.append rest) hopen

theorem Arrivals.exists_completes {n : ℕ} {as : Arrivals B} (h : as.Complete n) :
    ∃ pre rest, as = pre ++ rest ∧ pre.Completes n := by
  induction as using reverseRecOn with
  | nil => exact absurd rfl h.1
  | append_singleton as a ih =>
    by_cases has : Arrivals.Complete n as
    · obtain ⟨pre, rest, rfl, hpre⟩ := ih has
      exact ⟨pre, rest ++ [a], append_assoc .., hpre⟩
    · exact ⟨as ++ [a], [], (append_nil _).symm, completes_snoc has h⟩

/-! ### The blocks the deliveries make -/

variable (ds : List (Delivery B)) {block : InflightBlock fp}

/-- Slot by slot the first delivery, if there is one. -/
def slotsOf : List (Option B) :=
  (range n).map fun i => (firstFor i ds).map Prod.fst

def numasOf : List NumaNode :=
  (range n).map fun i => ((firstFor i ds).map Prod.snd).getD NumaNode.unknown

/-- The block in flight after the deliveries `ds`. -/
structure Assembled (block : InflightBlock fp) : Prop where
  slots_eq : block.slots = slotsOf n ds
  numas_eq : block.slotNumas = numasOf n ds

/-- The sealed block of the deliveries `ds`. -/
structure IsSealed (block : SealedBlock fp) : Prop where
  slots_eq : block.slots.map some = slotsOf n ds
  numas_eq : block.slotNumas = numasOf n ds

section Slots

variable {n i : ℕ} {ds : List (Delivery B)} {raw : B} {numaNode : NumaNode}

theorem getElem?_slotsOf (hi : i < n) :
    (slotsOf n ds)[i]? = some ((firstFor i ds).map Prod.fst) := by
  rw [slotsOf, getElem?_map, getElem?_range hi]
  rfl

theorem firstFor_singleton (j : ℕ) :
    firstFor j [(i, raw, numaNode)] = if i = j then some (raw, numaNode) else none := by
  rw [firstFor]
  by_cases h : i = j <;> simp [h]

theorem firstFor_snoc_of_isSome (h : (firstFor i ds).isSome) (j : ℕ) :
    firstFor j (ds ++ [(i, raw, numaNode)]) = firstFor j ds := by
  rcases eq_or_ne i j with rfl | hne
  · exact firstFor_append_of_isSome _ h
  · rw [firstFor_append, firstFor_singleton, if_neg hne, or_none]

theorem firstFor_snoc_of_none (h : firstFor i ds = none) (j : ℕ) :
    firstFor j (ds ++ [(i, raw, numaNode)]) =
      if i = j then some (raw, numaNode) else firstFor j ds := by
  rw [firstFor_append, firstFor_singleton]
  split
  · next heq => rw [← heq, h]; rfl
  · rw [or_none]

theorem slotsOf_snoc (h : firstFor i ds = none) :
    slotsOf n (ds ++ [(i, raw, numaNode)]) = (slotsOf n ds).set i (some raw) := by
  refine ext_getElem (by simp [slotsOf]) ?_
  intro j _ _
  rw [getElem_set]
  simp only [slotsOf, getElem_map, getElem_range, firstFor_snoc_of_none h]
  split
  · rfl
  · rfl

theorem numasOf_snoc (h : firstFor i ds = none) :
    numasOf n (ds ++ [(i, raw, numaNode)]) = (numasOf n ds).set i numaNode := by
  refine ext_getElem (by simp [numasOf]) ?_
  intro j _ _
  rw [getElem_set]
  simp only [numasOf, getElem_map, getElem_range, firstFor_snoc_of_none h]
  split
  · rfl
  · rfl

variable {block block' : InflightBlock fp}

theorem assembled_new (n : ℕ) : Assembled n [] (new fp n) := by
  constructor
  · refine ext_getElem (by simp [new, slotsOf]) ?_
    intro j _ _
    simp [new, slotsOf, firstFor]
  · refine ext_getElem (by simp [new, numasOf]) ?_
    intro j _ _
    simp [new, numasOf, firstFor]

section

variable (h : Assembled n ds block)
include h

theorem Assembled.congr {es : List (Delivery B)} (hes : ∀ j < n, firstFor j es = firstFor j ds) :
    Assembled n es block := by
  constructor
  · rw [h.slots_eq]
    exact map_congr_left fun j hj => by rw [hes j (mem_range.mp hj)]
  · rw [h.numas_eq]
    exact map_congr_left fun j hj => by rw [hes j (mem_range.mp hj)]

theorem Assembled.insertSlot_none (hi : i < n) (hinsert : block.insertSlot i raw numaNode = none) :
    (firstFor i ds).isSome := by
  rcases hfirst : firstFor i ds with - | d
  · have hslot : block.slots[i]? = some none := by
      rw [h.slots_eq, getElem?_slotsOf hi, hfirst]
      rfl
    unfold insertSlot at hinsert
    split at hinsert
    · cases hinsert
    · next hnot => exact absurd hslot hnot
  · rfl

/-- A slot that is inserted was free, and holds its first delivery. -/
theorem Assembled.insertSlot_some (hi : i < n)
    (hinsert : block.insertSlot i raw numaNode = some block') :
    Assembled n (ds ++ [(i, raw, numaNode)]) block' := by
  unfold insertSlot at hinsert
  split at hinsert
  · next hslot =>
    have hfirst : firstFor i ds = none := by
      rw [h.slots_eq, getElem?_slotsOf hi] at hslot
      exact map_eq_none_iff.mp (some.inj hslot)
    cases hinsert
    constructor
    · rw [slotsOf_snoc hfirst, ← h.slots_eq]
    · rw [numasOf_snoc hfirst, ← h.numas_eq]
  · cases hinsert

theorem Assembled.remaining_eq_zero :
    block.remaining = 0 ↔ ∀ i < n, (firstFor i ds).isSome := by
  rw [block.remaining_eq, countP_eq_zero, h.slots_eq]
  constructor
  · intro hslots i hi
    have hslot := hslots _ (mem_of_getElem? (getElem?_slotsOf hi))
    exact isSome_iff_ne_none.mpr (by simpa using hslot)
  · intro hfirst slot hslot
    obtain ⟨i, hi, rfl⟩ := mem_map.mp hslot
    obtain ⟨d, hd⟩ := isSome_iff_exists.mp (hfirst i (mem_range.mp hi))
    rw [hd]
    simp

end

/-- Unwrapping the slots of a complete block keeps their positions. -/
theorem InflightBlock.map_some_reduceOption (hdone : block.remaining = 0) :
    block.slots.reduceOption.map some = block.slots := by
  have hall : ∀ slot ∈ block.slots, slot.isSome :=
    reduceOption_length_eq_iff.mp (length_reduceOption_of_remaining hdone)
  rw [reduceOption, map_filterMap]
  refine (filterMap_congr ?_).trans filterMap_some
  intro slot hslot
  obtain ⟨b, rfl⟩ := isSome_iff_exists.mp (hall slot hslot)
  rfl

theorem Assembled.sealBlock (h : Assembled n ds block) (hdone : block.remaining = 0) :
    IsSealed n ds (block.sealBlock hdone) := by
  refine ⟨?_, h.numas_eq⟩
  rw [← h.slots_eq]
  exact map_some_reduceOption hdone

theorem IsSealed.append {sealedBlock : SealedBlock fp} (h : IsSealed n ds sealedBlock)
    (hall : ∀ i < n, (firstFor i ds).isSome) (es : List (Delivery B)) :
    IsSealed n (ds ++ es) sealedBlock := by
  constructor
  · rw [h.slots_eq]
    refine map_congr_left ?_
    intro i hi
    rw [firstFor_append_of_isSome es (hall i (mem_range.mp hi))]
  · rw [h.numas_eq]
    refine map_congr_left ?_
    intro i hi
    rw [firstFor_append_of_isSome es (hall i (mem_range.mp hi))]

end Slots

/-! ### One entry -/

/-- What the loop over the slots of an entry leaves, given the deliveries up to its end. -/
def FillOutcome.Leaves : FillOutcome fp → Prop
  | .pending block _ => Assembled n ds block ∧ block.remaining ≠ 0
  | .completed block h _ =>
    IsSealed n ds (block.sealBlock h) ∧ ∀ i < n, (firstFor i ds).isSome

/-- The loop over the slots: every delivery is assembled, up to the one that completes the block. -/
theorem fillSlots_leaves {n : ℕ} (numaNode : NumaNode) {slots : List (ℕ × B)}
    (hslots : ∀ p ∈ slots, p.1 < n) {ds : List (Delivery B)} (h : Assembled n ds block)
    (hopen : block.remaining ≠ 0) (added : ℕ) :
    (fillSlots numaNode slots block added).Leaves n (ds ++ deliver numaNode slots) := by
  induction slots generalizing ds block added with
  | nil => exact ⟨by rwa [deliver, map_nil, append_nil], hopen⟩
  | cons p rest ih =>
    obtain ⟨slotId, raw⟩ := p
    have hi : slotId < n := hslots _ mem_cons_self
    have hrest : ∀ p ∈ rest, p.1 < n := fun p hp => hslots p (mem_cons_of_mem _ hp)
    have hsplit : ds ++ deliver numaNode ((slotId, raw) :: rest) =
        (ds ++ [(slotId, raw, numaNode)]) ++ deliver numaNode rest := by
      rw [append_assoc]
      rfl
    rw [fillSlots, hsplit]
    split
    · next hnone =>
      have hdup := h.insertSlot_none hi hnone
      exact ih hrest (h.congr fun j _ => firstFor_snoc_of_isSome hdup j) hopen added
    · next block' hsome =>
      have hnew := h.insertSlot_some hi hsome
      split
      · next hdone =>
        have hall := hnew.remaining_eq_zero.mp hdone
        refine ⟨(hnew.sealBlock hdone).append hall _, ?_⟩
        intro i hi
        rw [firstFor_append_of_isSome _ (hall i hi)]
        exact hall i hi
      · next hmore => exact ih hrest hnew hmore _

/-- **Where a key stands** after the entries `as`, within a batch: untouched, in flight with the
deliveries so far, or sealed with the first ones and where the entries after that put it. -/
inductive KeyState (n : ℕ) :
    Arrivals B → Option (InflightBlock fp) → List (SealedBlock fp) → Prop
  | absent : KeyState n [] none []
  | pending {as : Arrivals B} {block : InflightBlock fp} (hne : as ≠ [])
      (h : Assembled n as.deliveries block) (hopen : block.remaining ≠ 0) :
      KeyState n as (some block) []
  | done {as rest : Arrivals B} {inflight : Option (InflightBlock fp)} {block : SealedBlock fp}
      {blocks : List (SealedBlock fp)} (hcompletes : as.Completes n)
      (h : IsSealed n as.deliveries block) (hrest : KeyState n rest inflight blocks) :
      KeyState n (as ++ rest) inflight (block :: blocks)

section KeyState

variable {n : ℕ} {as : Arrivals B} {inflight : Option (InflightBlock fp)}
  {blocks : List (SealedBlock fp)}

theorem not_complete_nil : ¬ Arrivals.Complete (B := B) n [] := fun h => h.1 rfl

theorem Assembled.not_complete (h : Assembled n as.deliveries block) (hopen : block.remaining ≠ 0) :
    ¬ as.Complete n :=
  fun hc => hopen (h.remaining_eq_zero.mpr hc.2)

theorem KeyState.ne_nil_iff (h : KeyState n as inflight blocks) : blocks ≠ [] ↔ as.Complete n := by
  cases h with
  | absent => exact iff_of_false (fun h => h rfl) not_complete_nil
  | pending _ hblock hopen => exact iff_of_false (fun h => h rfl) (hblock.not_complete hopen)
  | done hcompletes => exact iff_of_true (cons_ne_nil _ _) (hcompletes.1.append _)

/-- The first block sealed is that of the entries up to the last missing slot. -/
theorem KeyState.split {pre rest : Arrivals B} (h : KeyState n (pre ++ rest) inflight blocks)
    (hpre : pre.Completes n) : ∃ block more, blocks = block :: more ∧
      IsSealed n pre.deliveries block ∧ KeyState n rest inflight more := by
  generalize has : pre ++ rest = as at h
  cases h with
  | absent => exact absurd (append_eq_nil_iff.mp has).1 hpre.1.1
  | pending _ hblock hopen => exact absurd (has ▸ hpre.1.append rest) (hblock.not_complete hopen)
  | done hcompletes hsealed hrest =>
    rcases append_eq_append_iff.mp has with ⟨more, rfl, rfl⟩ | ⟨more, rfl, rfl⟩
    · obtain rfl := hcompletes.2 pre more rfl hpre.1
      exact ⟨_, _, rfl, by rwa [append_nil] at hsealed, hrest⟩
    · obtain rfl := hpre.2 _ more rfl hcompletes.1
      rw [append_nil]
      exact ⟨_, _, rfl, hsealed, hrest⟩

end KeyState

/-- The blocks sealed under `key`, in order. -/
def blocksOf (key : K) (sealedBlocks : List (K × SealedBlock fp)) : List (SealedBlock fp) :=
  (sealedBlocks.filter (·.1 = key)).map Prod.snd

/-- Where `key` stands inside a batch. -/
def BatchState.At (st : BatchState K fp) (n : ℕ) (key : K) (as : Arrivals B) : Prop :=
  KeyState n as (st.inflight.lookup key) (blocksOf key st.sealedBlocks)

/-- What the loop over the slots leaves: the block in flight, or the one that is sealed. -/
def FillOutcome.parts : FillOutcome fp → Option (InflightBlock fp) × Option (SealedBlock fp)
  | .pending block _ => (some block, none)
  | .completed block h _ => (none, some (block.sealBlock h))

/-- What an entry leaves in flight under its key, and the block it seals. -/
def entryParts (resident : K → Bool) (totalSlots : ℕ) (numaNode : NumaNode)
    (entry : K × List (ℕ × B)) (old : Option (InflightBlock fp)) :
    Option (InflightBlock fp) × Option (SealedBlock fp) :=
  if resident entry.1 then (old, none)
  else match old with
    | none => match fromOrderedSlotInserts fp entry.2 totalSlots numaNode with
      | some block => (none, some block)
      | none => (fillSlots numaNode entry.2 (new fp totalSlots) 0).parts
    | some block =>
      if block.totalSlots ≠ totalSlots then (some block, none)
      else (fillSlots numaNode entry.2 block 0).parts

/-- The state changes under one key. -/
structure BatchState.Does (st st' : BatchState K fp) (key : K)
    (parts : Option (InflightBlock fp) × Option (SealedBlock fp)) : Prop where
  inflight : ∀ key', st'.inflight.lookup key' =
    if key' = key then parts.1 else st.inflight.lookup key'
  sealedBlocks : st'.sealedBlocks =
    st.sealedBlocks ++ (parts.2.map fun block => (key, block)).toList

variable {n} {totalSlots : ℕ} {numaNode : NumaNode} {slots : List (ℕ × B)}
  {entry : K × List (ℕ × B)} {entries : InsertEntries K B} {old : Option (InflightBlock fp)}
  {parts : Option (InflightBlock fp) × Option (SealedBlock fp)} {resident : K → Bool}
  {st st' : BatchState K fp} {key : K} {as : Arrivals B}

theorem BatchState.Does.lookup (h : st.Does st' key parts) (key' : K) :
    st'.sealedBlocks.lookup key' =
      (st.sealedBlocks.lookup key').or (if key' = key then parts.2 else none) := by
  rw [h.sealedBlocks, lookup_append]
  congr 1
  cases parts.2 with
  | none => exact (ite_self _).symm
  | some block =>
    rcases eq_or_ne key' key with rfl | hne
    · rw [if_pos rfl]
      exact lookup_cons_self
    · rw [if_neg hne]
      exact lookup_eq_none_iff.mpr (by simpa using hne)

theorem BatchState.Does.blocksOf (h : st.Does st' key parts) (key' : K) :
    blocksOf key' st'.sealedBlocks =
      blocksOf key' st.sealedBlocks ++ if key' = key then parts.2.toList else [] := by
  rw [h.sealedBlocks, WritePath.blocksOf, filter_append, map_append]
  congr 1
  cases parts.2 with
  | none => exact (ite_self _).symm
  | some block => by_cases hkey : key' = key <;> simp [hkey, Ne.symm]

theorem does_fill : st.Does (st.fill numaNode key slots block) key
    (fillSlots numaNode slots block 0).parts := by
  unfold BatchState.fill
  cases fillSlots numaNode slots block 0 with
  | pending block' added => exact ⟨fun key' => lookup_insert_apply key', (append_nil _).symm⟩
  | completed block' h added => exact ⟨fun key' => lookup_erase_apply key', rfl⟩

/-- **What an entry does** depends on the block of its key, and changes nothing else. -/
theorem processEntry_does (resident : K → Bool) (totalSlots : ℕ) (numaNode : NumaNode)
    (st : BatchState K fp) (entry : K × List (ℕ × B)) :
    st.Does (processEntry resident totalSlots numaNode st entry) entry.1
      (entryParts resident totalSlots numaNode entry (st.inflight.lookup entry.1)) := by
  have hsame : ∀ key', st.inflight.lookup key' =
      if key' = entry.1 then st.inflight.lookup entry.1 else st.inflight.lookup key' := by
    intro key'
    split
    · next heq => rw [heq]
    · rfl
  unfold processEntry entryParts insertPartialSlots
  by_cases hres : resident entry.1
  · rw [if_pos hres, if_pos hres]
    exact ⟨hsame, (append_nil _).symm⟩
  rw [if_neg hres, if_neg hres]
  cases hlookup : st.inflight.lookup entry.1 with
  | none =>
    rw [hlookup] at hsame
    cases fromOrderedSlotInserts fp entry.2 totalSlots numaNode with
    | none => exact does_fill
    | some block => exact ⟨hsame, rfl⟩
  | some block =>
    rw [hlookup] at hsame
    have hsome : (some block).isSome := rfl
    rw [if_pos hsome]
    dsimp only
    split
    · exact ⟨hsame, (append_nil _).symm⟩
    · exact does_fill

section Fast

variable {block : SealedBlock fp}

/-- A complete, ordered entry has slot `i` at position `i`. -/
theorem firstFor_deliver_of_ordered (numaNode : NumaNode) (h : slots.map Prod.fst = range n) {i : ℕ}
    (hi : i < n) :
    ∃ raw, (slots.map Prod.snd)[i]? = some raw ∧
      firstFor i (deliver numaNode slots) = some (raw, numaNode) := by
  have hlen : slots.length = n := by
    rw [← length_map Prod.fst, h, length_range]
  have hfst : ∀ (j : ℕ) (hj : j < slots.length), slots[j].1 = j := by
    intro j hj
    have hget : (slots.map Prod.fst)[j]? = some j := by
      rw [h, getElem?_range (hlen ▸ hj)]
    rw [getElem?_map, getElem?_eq_getElem hj] at hget
    exact some.inj hget
  have hi' : i < slots.length := hlen ▸ hi
  refine ⟨slots[i].2, ?_, ?_⟩
  · rw [getElem?_map, getElem?_eq_getElem hi']
    rfl
  · have hfind : (deliver numaNode slots).find? (·.1 = i) = some (i, slots[i].2, numaNode) := by
      rw [find?_eq_some_iff_getElem]
      refine ⟨by simp, i, by rw [deliver, length_map]; exact hi', ?_, ?_⟩
      · simp only [deliver, getElem_map, hfst i hi']
      · intro j hj
        simp only [deliver, getElem_map, hfst j (hj.trans hi')]
        simpa using hj.ne
    rw [firstFor, hfind]
    rfl

/-- The fast path seals the deliveries of its entry. -/
theorem fromOrderedSlotInserts_isSealed
    (h : fromOrderedSlotInserts fp slots n numaNode = some block) :
    IsSealed n (deliver numaNode slots) block ∧
      ∀ i < n, (firstFor i (deliver numaNode slots)).isSome := by
  unfold fromOrderedSlotInserts at h
  split at h
  · next hids =>
    cases h
    have hlen : slots.length = n := by
      rw [← length_map Prod.fst, hids, length_range]
    refine ⟨⟨?_, ?_⟩, ?_⟩
    · refine ext_getElem? ?_
      intro i
      rcases lt_or_ge i n with hi | hi
      · obtain ⟨raw, hraw, hfirst⟩ := firstFor_deliver_of_ordered numaNode hids hi
        rw [getElem?_slotsOf hi, hfirst]
        rw [getElem?_map, hraw]
        rfl
      · rw [getElem?_eq_none (by simpa [hlen] using hi),
          getElem?_eq_none (by simpa [slotsOf] using hi)]
    · refine ext_getElem (by simp [numasOf]) ?_
      intro i hi _
      obtain ⟨raw, -, hfirst⟩ := firstFor_deliver_of_ordered numaNode hids (by simpa using hi)
      simp [numasOf, hfirst]
    · intro i hi
      obtain ⟨raw, -, hfirst⟩ := firstFor_deliver_of_ordered numaNode hids hi
      rw [hfirst]
      rfl
  · cases h

theorem IsSealed.unique {ds : List (Delivery B)} {block' : SealedBlock fp} (h : IsSealed n ds block)
    (h' : IsSealed n ds block') : block = block' := by
  have hslots : block.slots = block'.slots :=
    map_injective_iff.mpr (fun _ _ => some.inj) (h.slots_eq.trans h'.slots_eq.symm)
  have hnumas : block.slotNumas = block'.slotNumas := h.numas_eq.trans h'.numas_eq.symm
  have hfootprint : block.footprint = block'.footprint := by
    rw [block.footprint_eq, block'.footprint_eq, hslots]
  cases block
  cases block'
  cases hslots
  cases hnumas
  cases hfootprint
  rfl

/-- With no slot to fill there is nothing to deliver, and the fast path takes the entry. -/
theorem new_remaining_ne_zero (hslots : ∀ p ∈ slots, p.1 < n)
    (hslow : fromOrderedSlotInserts fp slots n numaNode = none) : (new fp n).remaining ≠ 0 := by
  intro (hzero : n = 0)
  subst hzero
  have hnil : slots = [] :=
    eq_nil_iff_forall_not_mem.mpr fun p hp => Nat.not_lt_zero _ (hslots p hp)
  subst hnil
  cases hslow

/-- **The fast path and the partial path seal the same block.** -/
theorem fillSlots_of_fromOrderedSlotInserts (hne : slots ≠ [])
    (h : fromOrderedSlotInserts fp slots n numaNode = some block) :
    ∃ (full : InflightBlock fp) (hfull : full.remaining = 0) (added : ℕ),
      fillSlots numaNode slots (new fp n) 0 = .completed full hfull added ∧
        full.sealBlock hfull = block := by
  obtain ⟨hsealed, hall⟩ := fromOrderedSlotInserts_isSealed h
  have hids : slots.map Prod.fst = range n := by
    unfold fromOrderedSlotInserts at h
    split at h
    · assumption
    · cases h
  have hslots : ∀ p ∈ slots, p.1 < n := by
    intro p hp
    exact mem_range.mp (hids ▸ mem_map_of_mem hp)
  have hopen : (new fp n).remaining ≠ 0 := by
    intro (hzero : n = 0)
    subst hzero
    exact hne (map_eq_nil_iff.mp hids)
  have hleaves := fillSlots_leaves numaNode hslots (assembled_new n) hopen 0
  cases hfill : fillSlots numaNode slots (new fp n) 0 with
  | pending full added =>
    rw [hfill] at hleaves
    exact absurd (hleaves.1.remaining_eq_zero.mpr hall) hleaves.2
  | completed full hfull added =>
    rw [hfill] at hleaves
    exact ⟨full, hfull, added, rfl, hleaves.1.unique hsealed⟩

end Fast

/-- What an entry of the key comes to, as long as nothing is sealed. -/
theorem KeyState.of_completes {block : SealedBlock fp} (hopen : ¬ as.Complete n)
    (hall : ∀ i < n, (firstFor i (as ++ [(numaNode, slots)]).deliveries).isSome)
    (h : IsSealed n (as ++ [(numaNode, slots)]).deliveries block) :
    KeyState n (as ++ [(numaNode, slots)]) none [block] := by
  have hdone := KeyState.done (Arrivals.completes_snoc hopen ⟨by simp, hall⟩) h .absent
  rwa [append_nil] at hdone

theorem KeyState.fill (hslots : ∀ p ∈ slots, p.1 < n) (hblock : Assembled n as.deliveries block)
    (hopen : block.remaining ≠ 0) :
    KeyState n (as ++ [(numaNode, slots)]) (fillSlots numaNode slots block 0).parts.1
      (fillSlots numaNode slots block 0).parts.2.toList := by
  have hleaves := fillSlots_leaves numaNode hslots hblock hopen 0
  rw [← Arrivals.deliveries_singleton, ← Arrivals.deliveries_append] at hleaves
  cases hfill : fillSlots numaNode slots block 0 with
  | pending block' added =>
    rw [hfill] at hleaves
    exact KeyState.pending (by simp) hleaves.1 hleaves.2
  | completed block' h added =>
    rw [hfill] at hleaves
    exact KeyState.of_completes (hblock.not_complete hopen) hleaves.2 hleaves.1

omit [DecidableEq K] in
/-- **Step lemma**: an entry of the key. -/
theorem KeyState.processEntry {blocks : List (SealedBlock fp)} (h : KeyState n as old blocks)
    (numaNode : NumaNode) (hres : resident key = false) (hslots : ∀ p ∈ slots, p.1 < n) :
    KeyState n (as ++ [(numaNode, slots)]) (entryParts resident n numaNode (key, slots) old).1
      (blocks ++ (entryParts resident n numaNode (key, slots) old).2.toList) := by
  -- the blocks that were sealed stay, so the induction is on how many there are
  induction h with
  | absent =>
    unfold entryParts
    rw [if_neg (by rw [hres]; exact Bool.false_ne_true)]
    cases hfast : fromOrderedSlotInserts fp slots n numaNode with
    | some block =>
      obtain ⟨hblock, hall⟩ := fromOrderedSlotInserts_isSealed hfast
      rw [← Arrivals.deliveries_singleton] at hblock hall
      exact KeyState.of_completes not_complete_nil hall hblock
    | none =>
      exact KeyState.fill hslots (assembled_new n) (new_remaining_ne_zero hslots hfast)
  | @pending _ block _ hassembled hopen =>
    unfold entryParts
    rw [if_neg (by rw [hres]; exact Bool.false_ne_true)]
    have htotal : block.totalSlots = n := by
      rw [totalSlots, hassembled.slots_eq, slotsOf, length_map, length_range]
    dsimp only
    rw [if_neg (not_not.mpr htotal)]
    exact KeyState.fill hslots hassembled hopen
  | done hcompletes hsealed _ ih =>
    rw [append_assoc]
    exact KeyState.done hcompletes hsealed ih

theorem BatchState.At.processEntry (h : st.At n key as) (numaNode : NumaNode)
    (hres : resident key = false) (hslots : ∀ p ∈ slots, p.1 < n) :
    (processEntry resident n numaNode st (key, slots)).At n key (as ++ [(numaNode, slots)]) := by
  have hdoes := processEntry_does resident n numaNode st (key, slots)
  unfold BatchState.At at h ⊢
  rw [hdoes.inflight, hdoes.blocksOf, if_pos rfl, if_pos rfl]
  exact h.processEntry numaNode hres hslots

theorem BatchState.At.processEntry_of_ne (h : st.At n key as) (hne : entry.1 ≠ key)
    (totalSlots : ℕ) :
    (WritePath.processEntry resident totalSlots numaNode st entry).At n key as := by
  have hdoes := processEntry_does resident totalSlots numaNode st entry
  unfold BatchState.At at h ⊢
  rwa [hdoes.inflight, hdoes.blocksOf, if_neg hne.symm, if_neg hne.symm, append_nil]

/-! ### Batches and runs -/

/-- Every entry for `key` in the batch is about `n` slots. -/
def InsertBatch.Delivers (n : ℕ) (key : K) : Prop :=
  ∀ e ∈ batch.entries, e.1 = key → batch.totalSlots = n ∧ ∀ p ∈ e.2, p.1 < n

instance (n : ℕ) (key : K) : Decidable (batch.Delivers n key) :=
  inferInstanceAs (Decidable (∀ e ∈ batch.entries, _))

theorem BatchState.At.processEntries (h : st.At n key as) (hres : resident key = false)
    (hentries : ∀ e ∈ entries, e.1 = key → totalSlots = n ∧ ∀ p ∈ e.2, p.1 < n) :
    (processEntries resident totalSlots numaNode entries st).At n key
      (as ++ (entries.filter (·.1 = key)).map fun e => (numaNode, e.2)) := by
  induction entries generalizing st as with
  | nil => rwa [filter_nil, map_nil, append_nil]
  | cons e entries ih =>
    obtain ⟨k, slots⟩ := e
    have hrest : ∀ e ∈ entries, e.1 = key → totalSlots = n ∧ ∀ p ∈ e.2, p.1 < n :=
      fun e he => hentries e (mem_cons_of_mem _ he)
    rcases eq_or_ne k key with rfl | hne
    · obtain ⟨rfl, hslots⟩ := hentries _ mem_cons_self rfl
      have hstep := ih (h.processEntry numaNode hres hslots) hrest
      rw [filter_cons_of_pos (by simp)]
      rwa [append_assoc] at hstep
    · rw [filter_cons_of_neg (by simpa using hne)]
      exact ih (h.processEntry_of_ne hne totalSlots) hrest

variable {w : Worker K fp}

theorem Worker.processed_at {batch : InsertBatch K B} (h : KeyState n as (w.inflight.lookup key) [])
    (hres : resident key = false) (hbatch : batch.Delivers n key) :
    (w.processed resident batch).At n key (as ++ batch.arrivals key) :=
  BatchState.At.processEntries (by exact h) hres hbatch

theorem arrivals_snoc (inputs : List ((K → Bool) × InsertBatch K B))
    (x : (K → Bool) × InsertBatch K B) :
    arrivals key (inputs ++ [x]) = arrivals key inputs ++ x.2.arrivals key := by
  rw [arrivals, flatMap_append, flatMap_singleton]
  rfl

/-- **Run lemma**: as long as something is missing, the key is where its deliveries put it. -/
theorem Worker.run_tracks (hinit : w.inflight.lookup key = none)
    {inputs : List ((K → Bool) × InsertBatch K B)}
    (hinputs : ∀ x ∈ inputs, x.1 key = false ∧ x.2.Delivers n key)
    (hmissing : ¬ (arrivals key inputs).Complete n) :
    KeyState n (arrivals key inputs) ((w.run inputs).inflight.lookup key) [] := by
  induction inputs using reverseRecOn with
  | nil =>
    show KeyState n [] (w.inflight.lookup key) []
    rw [hinit]
    exact KeyState.absent
  | append_singleton inputs x ih =>
    rw [arrivals_snoc] at hmissing ⊢
    have hbefore := ih (fun y hy => hinputs y (mem_append_left _ hy))
      (fun hc => hmissing (hc.append _))
    obtain ⟨hres, hbatch⟩ := hinputs x (by simp)
    have hafter := processed_at hbefore hres hbatch
    have hnone : blocksOf key ((w.run inputs).processed x.1 x.2).sealedBlocks = [] :=
      not_not.mp fun hne => hmissing (hafter.ne_nil_iff.mp hne)
    unfold BatchState.At at hafter
    rw [hnone] at hafter
    rwa [run, foldl_append]

/-- What the sealed block of a key is. -/
structure SealedBlock.Holds (block : SealedBlock fp) (n : ℕ) (ds : List (Delivery B)) : Prop where
  slots_length : block.slots.length = n
  /-- Slot `i` is the first block delivered for it, with the NUMA node of its batch. -/
  slot : ∀ i < n, ∃ raw numaNode, firstFor i ds = some (raw, numaNode) ∧
    block.slots[i]? = some raw ∧ block.slotNumas[i]? = some numaNode
  footprint : block.footprint = (block.slots.map fp).sum

theorem IsSealed.holds {n : ℕ} {ds : List (Delivery B)} {block : SealedBlock fp}
    (h : IsSealed n ds block) (hall : ∀ i < n, (firstFor i ds).isSome) : block.Holds n ds := by
  refine ⟨?_, ?_, block.footprint_eq⟩
  · rw [← length_map some, h.slots_eq, slotsOf, length_map, length_range]
  · intro i hi
    obtain ⟨⟨raw, numaNode⟩, hfirst⟩ := isSome_iff_exists.mp (hall i hi)
    refine ⟨raw, numaNode, hfirst, ?_, ?_⟩
    · have hslot : (block.slots.map some)[i]? = some (some raw) := by
        rw [h.slots_eq, getElem?_slotsOf hi, hfirst]
        rfl
      rw [getElem?_map] at hslot
      obtain ⟨raw', hraw, heq⟩ := map_eq_some_iff.mp hslot
      rw [hraw, heq]
    · rw [h.numas_eq, numasOf, getElem?_map, getElem?_range hi, map_some, hfirst]
      rfl

/-- The blocks that a batch seals under a key, as they should be after the entries `as`: one if
they are complete, with the first deliveries, and none otherwise. -/
structure SealsOnce (n : ℕ) (as : Arrivals B) (blocks : List (SealedBlock fp)) : Prop where
  isSealed_iff : blocks ≠ [] ↔ as.Complete n
  once : blocks.length ≤ 1
  holds : ∀ block ∈ blocks, block.Holds n as.deliveries

/-- After the entry that brings the last missing slot, the batch does not bring all slots again. -/
def BringsOnce (n : ℕ) (before batch : Arrivals B) : Prop :=
  ∀ pre rest, batch = pre ++ rest → Arrivals.Complete n (before ++ pre) → ¬ rest.Complete n

theorem KeyState.sealsOnce_iff {n : ℕ} {before batch : Arrivals B}
    {inflight : Option (InflightBlock fp)} {blocks : List (SealedBlock fp)}
    (h : KeyState n (before ++ batch) inflight blocks) (hopen : ¬ before.Complete n) :
    SealsOnce n (before ++ batch) blocks ↔ BringsOnce n before batch := by
  by_cases hcomplete : Arrivals.Complete n (before ++ batch)
  · obtain ⟨first, rest, heq, hfirst⟩ := Arrivals.exists_completes hcomplete
    obtain ⟨block, more, rfl, hsealed, hrest⟩ := (heq ▸ h).split hfirst
    -- the first block takes all entries from before, and some of the batch
    obtain ⟨pre, rfl, rfl⟩ : ∃ pre, first = before ++ pre ∧ batch = pre ++ rest := by
      rcases append_eq_append_iff.mp heq with ⟨pre, hpre, hbatch⟩ | ⟨pre, hpre, hbatch⟩
      · exact ⟨pre, hpre, hbatch⟩
      · exact absurd (hpre ▸ hfirst.1.append pre) hopen
    constructor
    · intro honce pre' rest' hsplit hpre' hrest'
      -- what follows a complete part follows the first one, too
      have hsuffix : ∃ between, rest = between ++ rest' := by
        rcases append_eq_append_iff.mp hsplit with ⟨more, rfl, hmore⟩ | ⟨more, rfl, hmore⟩
        · exact ⟨more, hmore⟩
        · have hnil : more = [] := hfirst.2 (before ++ pre') more (append_assoc ..).symm hpre'
          exact ⟨[], by rw [hmore, hnil]; rfl⟩
      obtain ⟨between, rfl⟩ := hsuffix
      have hmore := hrest.ne_nil_iff.mpr (hrest'.prepend between)
      exact hmore (length_eq_zero_iff.mp (Nat.le_zero.mp (Nat.le_of_succ_le_succ honce.once)))
    · intro hbrings
      have hnil : more = [] := not_not.mp fun hne =>
        hbrings pre rest rfl hfirst.1 (hrest.ne_nil_iff.mp hne)
      refine ⟨h.ne_nil_iff, by rw [hnil]; exact le_rfl, ?_⟩
      intro block' hmem
      rw [hnil] at hmem
      obtain rfl := mem_singleton.mp hmem
      rw [← append_assoc, Arrivals.deliveries_append]
      refine (hsealed.append hfirst.1.2 _).holds ?_
      rw [← Arrivals.deliveries_append]
      exact (hfirst.1.append rest).2
  · have hnil : blocks = [] := not_not.mp fun hne => hcomplete (h.ne_nil_iff.mp hne)
    refine iff_of_true ⟨h.ne_nil_iff, by simp [hnil], by simp [hnil]⟩ ?_
    intro pre rest heq hpre _
    rw [heq, ← append_assoc] at hcomplete
    exact hcomplete (hpre.append rest)

/-- **Sealing.**  Let the worker take any batches, `key` being neither in flight at the start nor
resident until it is sealed, and every entry for it about the same `n` slots.  A batch seals the key
as it should, namely once if it brings the last missing slot, slot by slot the first delivery with
the NUMA node of its batch, and not at all otherwise, if and only if its further entries do not
bring all slots again.  A complete entry in slot order is sealed directly to the block that filling
its slots would give.  After every batch the metric reads the bytes in flight. -/
theorem sealed_in_the_batch_of_the_last_missing_slot (w : Worker K fp) (hmetric : w.MetricOk)
    (n : ℕ) (key : K) (hinit : w.inflight.lookup key = none) :
    (∀ (done : List ((K → Bool) × InsertBatch K B)) (x : (K → Bool) × InsertBatch K B),
      (∀ y ∈ done ++ [x], y.1 key = false ∧ y.2.Delivers n key) →
      ¬ (arrivals key done).Complete n →
        (SealsOnce n (arrivals key (done ++ [x]))
            (blocksOf key ((w.run done).sealedIn x.1 x.2)) ↔
          BringsOnce n (arrivals key done) (x.2.arrivals key))) ∧
    (∀ (numaNode : NumaNode) (slots : List (ℕ × B)) (block : SealedBlock fp), slots ≠ [] →
      fromOrderedSlotInserts fp slots n numaNode = some block →
        ∃ (full : InflightBlock fp) (hfull : full.remaining = 0) (added : ℕ),
          fillSlots numaNode slots (new fp n) 0 = .completed full hfull added ∧
            full.sealBlock hfull = block) ∧
    ∀ inputs, (w.run inputs).MetricOk := by
  refine ⟨?_, fun _ _ _ => fillSlots_of_fromOrderedSlotInserts, fun inputs => hmetric.run inputs⟩
  intro done x hinputs hmissing
  obtain ⟨hres, hbatch⟩ := hinputs x (by simp)
  have hbefore := run_tracks hinit (fun y hy => hinputs y (mem_append_left _ hy))
    hmissing
  have hafter := processed_at hbefore hres hbatch
  rw [arrivals_snoc]
  exact hafter.sealsOnce_iff hmissing

/-- One entry for the key does not bring all slots after it. -/
theorem bringsOnce_of_length_le_one {n : ℕ} {before batch : Arrivals B}
    (hopen : ¬ before.Complete n) (h : batch.length ≤ 1) : BringsOnce n before batch := by
  rintro pre rest rfl hpre hrest
  rw [length_append] at h
  have hlen := length_pos_of_ne_nil hrest.1
  obtain rfl : pre = [] := length_eq_zero_iff.mp (by omega)
  exact hopen (append_nil before ▸ hpre)

/-- Slot 1 comes first, twice, then both slots: the second batch seals slot 0 of its own and slot 1
of the first batch. -/
theorem sealed_after_two_batches :
    let first : (ℕ → Bool) × InsertBatch ℕ ℕ :=
      (fun _ => false, ⟨[(7, [(1, 10), (1, 11)])], 2, ⟨0⟩⟩)
    let second : (ℕ → Bool) × InsertBatch ℕ ℕ :=
      (fun _ => false, ⟨[(7, [(0, 20), (1, 21)])], 2, ⟨1⟩⟩)
    let blocks := blocksOf 7
      ((Worker.init : Worker ℕ (id : ℕ → ℕ)).run [first] |>.sealedIn second.1 second.2)
    SealsOnce 2 (arrivals 7 [first, second]) blocks ∧
      blocks.map SealedBlock.slots = [[20, 10]] ∧
      blocks.map SealedBlock.slotNumas = [[⟨1⟩, ⟨0⟩]] := by
  intro first second blocks
  have hmissing : ¬ (arrivals 7 [first]).Complete 2 := by
    intro hcomplete
    exact absurd (hcomplete.2 0 (by decide)) (by decide)
  have hsealing := (sealed_in_the_batch_of_the_last_missing_slot
    (init : Worker ℕ (id : ℕ → ℕ)) rfl 2 7 rfl).1 [first] second (by decide) hmissing
  exact ⟨hsealing.mpr (bringsOnce_of_length_le_one hmissing (by decide)), rfl, rfl⟩

/-- A batch with two complete entries for a key seals it twice. -/
theorem sealed_twice_in_one_batch :
    ¬ ∀ x : (ℕ → Bool) × InsertBatch ℕ ℕ, x.1 7 = false → x.2.Delivers 1 7 →
      SealsOnce 1 (x.2.arrivals 7)
        (blocksOf 7 ((Worker.init : Worker ℕ (id : ℕ → ℕ)).sealedIn x.1 x.2)) :=
  fun h => absurd (h (fun _ => false, ⟨buildInsertEntries [⟨0, [10, 11], [7, 7]⟩], 1, ⟨0⟩⟩) rfl
    (by decide)).once (by decide)

/-! ### Resident and in flight -/

/-- No key in flight is resident or sealed in this batch. -/
def BatchState.Apart (st : BatchState K fp) (resident : K → Bool) : Prop :=
  ∀ key, (st.inflight.lookup key).isSome →
    resident key = false ∧ st.sealedBlocks.lookup key = none

omit [DecidableEq K] in
/-- A block in flight was not sealed by the entry, and is in flight from before or not resident. -/
theorem entryParts_inflight (h : (entryParts resident totalSlots numaNode entry old).1.isSome) :
    (entryParts resident totalSlots numaNode entry old).2 = none ∧
      (resident entry.1 → old.isSome) := by
  have hparts : ∀ o : FillOutcome fp, o.parts.1.isSome → o.parts.2 = none := by
    rintro (_ | _) ho
    · rfl
    · cases ho
  unfold entryParts at h ⊢
  split at h
  · next hres =>
    rw [if_pos hres]
    exact ⟨rfl, fun _ => h⟩
  · next hres =>
    rw [if_neg hres]
    refine ⟨?_, fun htrue => absurd htrue hres⟩
    split at h
    · split at h
      · cases h
      · exact hparts _ h
    · split at h
      · next htotal => rw [if_pos htotal]
      · next htotal =>
        rw [if_neg htotal]
        exact hparts _ h

/-- **Step lemma**: an entry whose key was not sealed earlier in the batch. -/
theorem BatchState.Apart.processEntry (h : st.Apart resident)
    (hnew : st.sealedBlocks.lookup entry.1 = none) :
    (processEntry resident totalSlots numaNode st entry).Apart resident := by
  have hdoes := processEntry_does resident totalSlots numaNode st entry
  intro key hkey
  rw [hdoes.inflight] at hkey
  rw [hdoes.lookup]
  split at hkey
  · next heq =>
    obtain ⟨hnone, hold⟩ := entryParts_inflight hkey
    rw [if_pos heq, heq, hnew, hnone]
    refine ⟨Bool.eq_false_iff.mpr fun hres => ?_, rfl⟩
    rw [(h entry.1 (hold hres)).1] at hres
    cases hres
  · next hne =>
    rw [if_neg hne, or_none]
    exact h key hkey

theorem BatchState.Apart.processEntries (h : st.Apart resident) (totalSlots : ℕ)
    (numaNode : NumaNode) (hnew : ∀ e ∈ entries, st.sealedBlocks.lookup e.1 = none)
    (hnodup : (entries.map Prod.fst).Nodup) :
    (processEntries resident totalSlots numaNode entries st).Apart resident := by
  induction entries generalizing st with
  | nil => exact h
  | cons entry entries ih =>
    rw [map_cons, nodup_cons] at hnodup
    refine ih (h.processEntry (hnew entry mem_cons_self)) ?_ hnodup.2
    intro e he
    have hne : e.1 ≠ entry.1 := fun heq => hnodup.1 (heq ▸ mem_map_of_mem he)
    rw [(processEntry_does resident totalSlots numaNode st entry).lookup, if_neg hne, or_none]
    exact hnew e (mem_cons_of_mem _ he)

/-- The first block sealed under a key is the one that becomes resident. -/
theorem lookup_publish (cache : AList fun _ : K => SealedBlock fp)
    (sealedBlocks : List (K × SealedBlock fp)) (key : K) :
    (publish cache sealedBlocks).lookup key =
      (cache.lookup key).or (sealedBlocks.lookup key) := by
  induction sealedBlocks generalizing cache with
  | nil => exact (or_none).symm
  | cons e sealedBlocks ih =>
    obtain ⟨k, block⟩ := e
    rw [publish, foldl_cons]
    refine (ih _).trans ?_
    rcases eq_or_ne key k with rfl | hne
    · cases hlookup : cache.lookup key with
      | none => rw [if_neg (by simp), AList.lookup_insert, lookup_cons_self]; rfl
      | some b =>
        have hsome : (some b).isSome := rfl
        rw [if_pos hsome, hlookup]
        rfl
    · have hrest : ((k, block) :: sealedBlocks).lookup key = sealedBlocks.lookup key := by
        rw [lookup_cons, beq_false_of_ne hne]
      rw [hrest]
      split
      · rfl
      · rw [AList.lookup_insert_ne hne]

/-- Every key of a batch has one entry, unless the layers share a hash list that repeats a hash. -/
def RawSaveBatch.HashesOnce (batch : RawSaveBatch K B) : Prop :=
  canUseOrderedFastPath batch.layers →
    ((batch.layers.head?.map RawSaveLayer.blockHashes).getD []).Nodup

instance (batch : RawSaveBatch K B) : Decidable batch.HashesOnce :=
  inferInstanceAs (Decidable (_ → _))

omit [DecidableEq K] in
theorem map_fst_buildOrderedInsertEntries (hashes : List K) (layers : List (RawSaveLayer K B)) :
    (buildOrderedInsertEntries hashes layers).map Prod.fst = hashes := by
  rw [buildOrderedInsertEntries, List.map_map]
  exact zipIdx_map_fst 0 hashes

theorem map_fst_buildHashedInsertEntries (layers : List (RawSaveLayer K B)) :
    (buildHashedInsertEntries layers).map Prod.fst = ((keyedSlots layers).map Prod.fst).dedup := by
  rw [buildHashedInsertEntries, List.map_map]
  exact map_id _

theorem RawSaveBatch.HashesOnce.nodup {batch : RawSaveBatch K B} (h : batch.HashesOnce) :
    ((buildInsertEntries batch.layers).map Prod.fst).Nodup := by
  unfold buildInsertEntries
  split
  · next hordered =>
    rw [map_fst_buildOrderedInsertEntries]
    exact h hordered
  · rw [map_fst_buildHashedInsertEntries]
    exact nodup_dedup _

/-- No key is both resident and in flight. -/
def WriteState.Exclusive (s : WriteState K fp) : Prop :=
  ∀ key, ¬ ((s.cache.lookup key).isSome ∧ (s.inflight.lookup key).isSome)

theorem WriteState.Exclusive.processRawSaveBatch {s : WriteState K fp} (h : s.Exclusive)
    {batch : RawSaveBatch K B} (hbatch : batch.HashesOnce) :
    (s.processRawSaveBatch batch).Exclusive := by
  have hstart : BatchState.Apart
      { inflight := s.inflight, sealedBlocks := [], inflightBytesAdded := 0,
        inflightBytesRemoved := 0 } s.resident := by
    intro key hkey
    exact ⟨Bool.eq_false_iff.mpr fun hres => h key ⟨hres, hkey⟩, rfl⟩
  have hdone := hstart.processEntries batch.totalSlots batch.numaNode (fun _ _ => rfl)
    hbatch.nodup
  rintro key ⟨hcache, hinflight⟩
  obtain ⟨hres, hsealed⟩ := hdone key hinflight
  refine absurd hcache ?_
  show ¬ ((publish s.cache _).lookup key).isSome
  rw [lookup_publish, not_isSome_iff_eq_none.mp (Bool.eq_false_iff.mp hres)]
  exact not_isSome_iff_eq_none.mpr hsealed

/-- The insert worker, one raw save batch a step. -/
def WriteState.step (s : WriteState K fp) (batch : RawSaveBatch K B) : Option (WriteState K fp) :=
  some (s.processRawSaveBatch batch)

/-- **Resident or in flight, never both**, as long as no batch with one hash list for all its
layers repeats a hash in it.  In the other batches the worker groups the slots by hash first. -/
theorem never_resident_and_inflight (batches : List (RawSaveBatch K B))
    (h : Along step (fun _ batch => batch.HashesOnce) (init : WriteState K fp) batches) :
    Always step WriteState.Exclusive (init : WriteState K fp) batches := by
  refine always_of_along ?_ ?_ h
  · intro s batch s' hs hbatch hstep
    obtain rfl := Option.some.inj hstep
    exact hs.processRawSaveBatch hbatch
  · intro key hkey
    cases hkey.2

/-- Two batches with one hash each, and one with two layers that differ. -/
theorem never_resident_and_inflight_regrouped :
    Always step WriteState.Exclusive
      (init : WriteState ℕ (id : ℕ → ℕ))
      [⟨2, ⟨0⟩, [⟨0, [10], [7]⟩]⟩, ⟨2, ⟨0⟩, [⟨1, [11, 12], [7, 7]⟩, ⟨0, [13], [8]⟩]⟩] :=
  never_resident_and_inflight _ (by decide)

/-- Slot 0 of a block is in flight, and a batch for slot 1 repeats the hash.  Its first entry
completes and seals the block; for the second one the block is neither in flight nor resident yet,
so that it goes in flight again, with slot 0 never to come. -/
theorem resident_and_inflight_after_repeated_hash :
    ¬ ∀ batches : List (RawSaveBatch ℕ ℕ), Always step WriteState.Exclusive
      (init : WriteState ℕ (id : ℕ → ℕ)) batches :=
  fun h => not_always (fun s => ¬ ((s.cache.lookup 7).isSome = true ∧
      (s.inflight.lookup 7).isSome = true)) (fun _ h => h 7) (by decide)
    (h [⟨2, ⟨0⟩, [⟨0, [10], [7]⟩]⟩, ⟨2, ⟨0⟩, [⟨1, [11, 12], [7, 7]⟩]⟩])

end PegaFlow.WritePath
