/-
PegaFlow/EntryBuilders.lean

The two ways to group a save batch (`build_ordered_insert_entries`, `build_hashed_insert_entries`).
-/
import PegaFlow.Sealing

namespace PegaFlow.WritePath

open List RawSaveLayer

variable {K B : Type} [DecidableEq K] {fp : B → ℕ}

/-! ### Entries with distinct keys -/

/-- The blocks that an entry seals. -/
def sealsOf (resident : K → Bool) (totalSlots : ℕ) (numaNode : NumaNode) (st : BatchState K fp)
    (entry : K × List (ℕ × B)) : List (K × SealedBlock fp) :=
  ((entryParts resident totalSlots numaNode entry (st.inflight.lookup entry.1)).2.map
    fun block => (entry.1, block)).toList

theorem processEntries_distinct (resident : K → Bool) (totalSlots : ℕ) (numaNode : NumaNode)
    {entries : InsertEntries K B} (hnodup : (entries.map Prod.fst).Nodup) (st : BatchState K fp) :
    let st' := processEntries resident totalSlots numaNode entries st
    (∀ e ∈ entries, st'.inflight.lookup e.1 =
      (entryParts resident totalSlots numaNode e (st.inflight.lookup e.1)).1) ∧
    (∀ key ∉ entries.map Prod.fst, st'.inflight.lookup key = st.inflight.lookup key) ∧
    st'.sealedBlocks =
      st.sealedBlocks ++ entries.flatMap (sealsOf resident totalSlots numaNode st) := by
  induction entries generalizing st with
  | nil => exact ⟨fun _ he => absurd he not_mem_nil, fun _ _ => rfl, (append_nil _).symm⟩
  | cons entry entries ih =>
    rw [map_cons, nodup_cons] at hnodup
    have hdoes := processEntry_does resident totalSlots numaNode st entry
    rw [processEntries, foldl_cons]
    generalize processEntry resident totalSlots numaNode st entry = st₁ at hdoes ⊢
    obtain ⟨hmem, hother, hsealed⟩ := ih hnodup.2 st₁
    have hold : ∀ e ∈ entries, st₁.inflight.lookup e.1 = st.inflight.lookup e.1 := by
      intro e he
      rw [hdoes.inflight, if_neg]
      exact fun heq => hnodup.1 (heq ▸ mem_map_of_mem he)
    refine ⟨?_, ?_, ?_⟩
    · intro e he
      rcases mem_cons.mp he with rfl | he
      · exact (hother e.1 hnodup.1).trans ((hdoes.inflight e.1).trans (if_pos rfl))
      · rw [← hold e he]
        exact hmem e he
    · intro key hkey
      rw [map_cons, mem_cons, not_or] at hkey
      exact (hother key hkey.2).trans ((hdoes.inflight key).trans (if_neg hkey.1))
    · rw [flatMap_cons, ← append_assoc]
      refine hsealed.trans ?_
      rw [hdoes.sealedBlocks]
      refine congrArg _ (flatMap_congr fun e he => ?_)
      rw [sealsOf, sealsOf, hold e he]

/-! ### The entries of a batch -/

variable {layers : List (RawSaveLayer K B)} {hashes : List K}

theorem map_fst_filter_zip (hnodup : hashes.Nodup) (blocks : List B) {i : ℕ} {key : K}
    (hi : hashes[i]? = some key) :
    ((blocks.zip hashes).filter (·.2 = key)).map Prod.fst = blocks[i]?.toList := by
  induction hashes generalizing blocks i with
  | nil => cases hi
  | cons hash hashes ih =>
    obtain ⟨hnew, hnodup⟩ := nodup_cons.mp hnodup
    cases blocks with
    | nil => rfl
    | cons block blocks =>
      rw [zip_cons_cons]
      cases i with
      | zero =>
        obtain rfl : hash = key := Option.some.inj hi
        have hrest : (blocks.zip hashes).filter (·.2 = hash) = [] := by
          refine filter_eq_nil_iff.mpr fun e he => ?_
          rw [decide_eq_true_eq]
          exact fun heq => hnew (heq ▸ (of_mem_zip he).2)
        rw [filter_cons_of_pos (by simp), hrest]
        rfl
      | succ i =>
        have hne : hash ≠ key := fun heq => hnew (heq ▸ mem_of_getElem? hi)
        rw [filter_cons_of_neg (by simpa using hne)]
        exact ih hnodup blocks hi

theorem slots_of_hash (hsame : ∀ layer ∈ layers, layer.blockHashes = hashes) (hnodup : hashes.Nodup)
    {i : ℕ} {key : K} (hi : hashes[i]? = some key) :
    ((keyedSlots layers).filter (·.1 = key)).map Prod.snd =
      layers.filterMap fun layer => layer.blocks[i]?.map fun block => (layer.slotId, block) := by
  rw [keyedSlots, filter_flatMap, map_flatMap, filterMap_eq_flatMap_toList]
  refine flatMap_congr fun layer hlayer => ?_
  rw [filter_map, map_map, hsame layer hlayer]
  have hone := congrArg (map fun block => (layer.slotId, block))
    (map_fst_filter_zip hnodup layer.blocks hi)
  rw [map_map] at hone
  refine Eq.trans ?_ (hone.trans ?_)
  · rfl
  · cases layer.blocks[i]? <;> rfl

theorem mem_keys_iff (hne : layers ≠ []) (hsame : ∀ layer ∈ layers, layer.blockHashes = hashes)
    (hparallel : ∀ layer ∈ layers, layer.blocks.length = layer.blockHashes.length) (key : K) :
    key ∈ ((keyedSlots layers).map Prod.fst).dedup ↔ key ∈ hashes := by
  have hlayer : ∀ layer ∈ layers, ((layer.blocks.zip layer.blockHashes).map fun e =>
      (e.2, layer.slotId, e.1)).map Prod.fst = hashes := by
    intro layer hlayer
    rw [map_map, ← hsame layer hlayer]
    exact map_snd_zip (hparallel layer hlayer).ge
  rw [mem_dedup, keyedSlots, map_flatMap, mem_flatMap]
  constructor
  · rintro ⟨layer, hmem, hkey⟩
    rwa [hlayer layer hmem] at hkey
  · intro hkey
    obtain ⟨layer, hmem⟩ := exists_mem_of_ne_nil layers hne
    exact ⟨layer, hmem, by rwa [hlayer layer hmem]⟩

/-- **The builders make the same entries.** -/
theorem buildHashedInsertEntries_perm (hne : layers ≠ [])
    (hsame : ∀ layer ∈ layers, layer.blockHashes = hashes)
    (hparallel : ∀ layer ∈ layers, layer.blocks.length = layer.blockHashes.length)
    (hnodup : hashes.Nodup) :
    (buildHashedInsertEntries layers).Perm (buildOrderedInsertEntries hashes layers) := by
  have hkeys : ((keyedSlots layers).map Prod.fst).dedup.Perm hashes :=
    (perm_ext_iff_of_nodup (nodup_dedup _) hnodup).mpr (mem_keys_iff hne hsame hparallel)
  have hordered : buildOrderedInsertEntries hashes layers = hashes.map fun key =>
      (key, ((keyedSlots layers).filter (·.1 = key)).map Prod.snd) := by
    conv_rhs => rw [← zipIdx_map_fst 0 hashes, map_map]
    refine map_congr_left fun e he => ?_
    have hi : hashes[e.2]? = some e.1 := by simpa using mk_mem_zipIdx_iff_getElem?.mp he
    exact congrArg (Prod.mk e.1) (slots_of_hash hsame hnodup hi).symm
  rw [hordered]
  exact hkeys.map _

/-- Processing the entries in either order leaves the same blocks in flight and seals the same
blocks. -/
def Agree (resident : K → Bool) (totalSlots : ℕ) (numaNode : NumaNode)
    (entries entries' : InsertEntries K B) (st : BatchState K fp) : Prop :=
  (∀ key, (processEntries resident totalSlots numaNode entries st).inflight.lookup key =
    (processEntries resident totalSlots numaNode entries' st).inflight.lookup key) ∧
  (processEntries resident totalSlots numaNode entries st).sealedBlocks.Perm
    (processEntries resident totalSlots numaNode entries' st).sealedBlocks

theorem agree_of_nodup (resident : K → Bool) (totalSlots : ℕ) (numaNode : NumaNode)
    {entries entries' : InsertEntries K B} (hnodup : (entries.map Prod.fst).Nodup)
    (hperm : entries'.Perm entries) (st : BatchState K fp) :
    Agree resident totalSlots numaNode entries entries' st := by
  obtain ⟨hmem, hother, hsealed⟩ :=
    processEntries_distinct resident totalSlots numaNode hnodup st
  obtain ⟨hmem', hother', hsealed'⟩ :=
    processEntries_distinct resident totalSlots numaNode ((hperm.map _).nodup_iff.mpr hnodup) st
  refine ⟨fun key => ?_, ?_⟩
  · by_cases hkey : key ∈ entries.map Prod.fst
    · obtain ⟨e, he, rfl⟩ := mem_map.mp hkey
      exact (hmem e he).trans (hmem' e (hperm.mem_iff.mpr he)).symm
    · exact (hother key hkey).trans
        (hother' key fun hkey' => hkey ((hperm.map _).mem_iff.mp hkey')).symm
  · rw [hsealed, hsealed']
    exact (hperm.symm.flatMap_right _).append_left _

/-! ### A repeated hash -/

theorem KeyState.of_nil {n : ℕ} {inflight : Option (InflightBlock fp)}
    {blocks : List (SealedBlock fp)} (h : KeyState n [] inflight blocks) :
    inflight = none ∧ blocks = [] := by
  generalize has : ([] : Arrivals B) = as at h
  cases h with
  | absent => exact ⟨rfl, rfl⟩
  | pending hne => exact absurd has.symm hne
  | done hcompletes => exact absurd (append_eq_nil_iff.mp has.symm).1 hcompletes.1.1

theorem KeyState.eq_nil {n : ℕ} {as : Arrivals B}
    (h : KeyState n as (none : Option (InflightBlock fp)) []) : as = [] := by
  cases h
  rfl

section Repeated

variable {n s : ℕ} {numaNode : NumaNode} {as : Arrivals B} {block : InflightBlock fp} {key : K}

/-- A block in flight that lacks slot `s` only. -/
structure OneMissing (n s : ℕ) (as : Arrivals B) (block : InflightBlock fp) : Prop where
  ne_nil : as ≠ []
  assembled : Assembled n as.deliveries block
  isOpen : block.remaining ≠ 0
  others : ∀ i < n, i ≠ s → (firstFor i as.deliveries).isSome

theorem exists_oneMissing (fp : B → ℕ) (b : B) (hs : s < n) :
    ∃ (as : Arrivals B) (block : InflightBlock fp), OneMissing n s as block := by
  let slots : List (ℕ × B) := ((range n).erase s).map fun i => (i, b)
  have hslots : ∀ p ∈ slots, p.1 < n := by
    intro p hp
    obtain ⟨i, hi, rfl⟩ := mem_map.mp hp
    exact mem_range.mp (mem_of_mem_erase hi)
  have hfirst : ∀ i, (firstFor i (Arrivals.deliveries [(NumaNode.unknown, slots)])).isSome ↔
      i < n ∧ i ≠ s := by
    intro i
    rw [Arrivals.deliveries_singleton, firstFor, Option.isSome_map, find?_isSome]
    simp only [deliver, mem_map, decide_eq_true_eq, slots]
    constructor
    · rintro ⟨_, ⟨_, ⟨j, hj, rfl⟩, rfl⟩, rfl⟩
      exact ⟨mem_range.mp (mem_of_mem_erase hj), fun h => nodup_range.not_mem_erase (h ▸ hj)⟩
    · rintro ⟨hi, hne⟩
      exact ⟨_, ⟨_, ⟨i, (mem_erase_of_ne hne).mpr (mem_range.mpr hi), rfl⟩, rfl⟩, rfl⟩
  have hopen : (InflightBlock.new fp n).remaining ≠ 0 := fun (hzero : n = 0) => by omega
  have hleaves := fillSlots_leaves NumaNode.unknown hslots (assembled_new n) hopen 0
  rw [nil_append, ← Arrivals.deliveries_singleton] at hleaves
  cases hfill : fillSlots NumaNode.unknown slots (InflightBlock.new fp n) 0 with
  | pending block added =>
    rw [hfill] at hleaves
    exact ⟨_, block, cons_ne_nil _ _, hleaves.1, hleaves.2,
      fun i hi hne => (hfirst i).mpr ⟨hi, hne⟩⟩
  | completed block h added =>
    rw [hfill] at hleaves
    exact absurd rfl ((hfirst s).mp (hleaves.2 s hs)).2

theorem OneMissing.completes (h : OneMissing n s as block) {slots : List (ℕ × B)}
    (hs : s ∈ slots.map Prod.fst) : Arrivals.Completes n (as ++ [(numaNode, slots)]) := by
  refine Arrivals.completes_snoc (h.assembled.not_complete h.isOpen) ⟨by simp, fun i hi => ?_⟩
  rw [Arrivals.deliveries_append, firstFor_append, Option.isSome_or, Bool.or_eq_true]
  rcases eq_or_ne i s with rfl | hne
  · right
    obtain ⟨p, hp, hfst⟩ := mem_map.mp hs
    rw [Arrivals.deliveries_singleton, firstFor, Option.isSome_map, find?_isSome]
    exact ⟨_, mem_map_of_mem hp, decide_eq_true hfst⟩
  · exact .inl (h.others i hi hne)

/-- From that block, two ways to group entries that all bring slot `s` agree only if the key has no
second entry in the one, given that it has one in the other. -/
theorem agree_of_oneMissing (h : OneMissing n s as block) {entries entries' : InsertEntries K B}
    (hentries : ∀ e ∈ entries ++ entries', e.1 = key → ∀ p ∈ e.2, p.1 < n)
    (hs : ∀ e ∈ entries ++ entries', e.1 = key → s ∈ e.2.map Prod.fst)
    (hone : (entries'.filter (·.1 = key)).length = 1)
    (hagree : Agree (fun _ => false) n numaNode entries entries'
      ⟨(∅ : AList fun _ : K => InflightBlock fp).insert key block, [], 0, 0⟩) :
    (entries.filter (·.1 = key)).length ≤ 1 := by
  let st : BatchState K fp := ⟨(∅ : AList _).insert key block, [], 0, 0⟩
  have hstart : st.At n key as := by
    unfold BatchState.At
    rw [AList.lookup_insert]
    exact .pending h.ne_nil h.assembled h.isOpen
  have hat : ∀ es, es ⊆ entries ++ entries' → (processEntries (fun _ => false) n numaNode es
      st).At n key (as ++ (es.filter (·.1 = key)).map fun e => (numaNode, e.2)) :=
    fun es hes => hstart.processEntries rfl fun e he hkey => ⟨rfl, hentries e (hes he) hkey⟩
  have hordered := hat entries (subset_append_left _ _)
  have hhashed := hat entries' (subset_append_right _ _)
  have hmem : ∀ {es : InsertEntries K B}, es ⊆ entries ++ entries' →
      ∀ e ∈ es.filter (·.1 = key), s ∈ e.2.map Prod.fst := by
    intro es hes e he
    obtain ⟨he, hkey⟩ := mem_filter.mp he
    exact hs e (hes he) (of_decide_eq_true hkey)
  -- the one entry seals the block and leaves nothing behind
  obtain ⟨e', he'⟩ := length_eq_one_iff.mp hone
  unfold BatchState.At at hordered hhashed
  rw [he', map_singleton, ← append_nil (as ++ _)] at hhashed
  obtain ⟨block', more', hblocks', -, hrest'⟩ := hhashed.split (h.completes
    (hmem (subset_append_right _ _) e' (he' ▸ mem_cons_self)))
  -- so do the others: none of them is left for a second block
  have hcount : (blocksOf key (processEntries (fun _ => false) n numaNode entries
      st).sealedBlocks).length = (blocksOf key (processEntries (fun _ => false) n numaNode entries'
      st).sealedBlocks).length := by
    rw [blocksOf, blocksOf, length_map, length_map]
    exact (hagree.2.filter _).length_eq
  cases hes : entries.filter (·.1 = key) with
  | nil => exact Nat.zero_le _
  | cons e es =>
    rw [hes, map_cons, ← singleton_append, ← append_assoc] at hordered
    obtain ⟨block₁, more, hblocks, -, hrest⟩ := hordered.split (h.completes
      (hmem (subset_append_left _ _) e (hes ▸ mem_cons_self)))
    rw [hagree.1 key] at hrest
    rw [hblocks, hblocks', length_cons, length_cons, Nat.succ_inj] at hcount
    obtain ⟨hnone, rfl⟩ := hrest'.of_nil
    rw [length_nil, length_eq_zero_iff] at hcount
    rw [hnone, hcount] at hrest
    rw [map_eq_nil_iff.mp hrest.eq_nil]
    exact le_rfl

end Repeated

theorem length_filter_key (entries : InsertEntries K B) (key : K) :
    (entries.filter (·.1 = key)).length = (entries.map Prod.fst).count key := by
  rw [count, countP_map, countP_eq_length_filter]
  rfl

section Slots

variable {e : K × List (ℕ × B)}

omit [DecidableEq K] in
theorem slots_ordered (hsame : ∀ layer ∈ layers, layer.blockHashes = hashes)
    (hparallel : ∀ layer ∈ layers, layer.blocks.length = layer.blockHashes.length)
    (he : e ∈ buildOrderedInsertEntries hashes layers) (s : ℕ) :
    s ∈ e.2.map Prod.fst ↔ s ∈ layers.map slotId := by
  obtain ⟨⟨key, i⟩, hmem, rfl⟩ := mem_map.mp he
  have hi : hashes[i]? = some key := by simpa using mk_mem_zipIdx_iff_getElem?.mp hmem
  have hi : i < hashes.length := (List.getElem?_eq_some_iff.mp hi).1
  rw [map_filterMap]
  refine (mem_filterMap.trans ?_).trans mem_map.symm
  refine exists_congr fun layer => and_congr_right fun hlayer => ?_
  have hlt : i < layer.blocks.length := by rwa [hparallel layer hlayer, hsame layer hlayer]
  rw [getElem?_eq_getElem hlt]
  exact Option.some_inj

theorem slots_hashed (hsame : ∀ layer ∈ layers, layer.blockHashes = hashes)
    (hparallel : ∀ layer ∈ layers, layer.blocks.length = layer.blockHashes.length)
    (he : e ∈ buildHashedInsertEntries layers) (hkey : e.1 ∈ hashes) (s : ℕ) :
    s ∈ e.2.map Prod.fst ↔ s ∈ layers.map slotId := by
  obtain ⟨key, -, rfl⟩ := mem_map.mp he
  simp only [keyedSlots, mem_map, mem_filter, mem_flatMap, decide_eq_true_eq]
  constructor
  · rintro ⟨_, ⟨_, ⟨⟨layer, hlayer, _, _, rfl⟩, -⟩, rfl⟩, rfl⟩
    exact ⟨layer, hlayer, rfl⟩
  · rintro ⟨layer, hlayer, rfl⟩
    have hsnd : key ∈ (layer.blocks.zip layer.blockHashes).map Prod.snd := by
      rw [map_snd_zip (hparallel layer hlayer).ge, hsame layer hlayer]
      exact hkey
    obtain ⟨p, hp, hpkey⟩ := mem_map.mp hsnd
    exact ⟨_, ⟨_, ⟨⟨layer, hlayer, p, hp, rfl⟩, hpkey⟩, rfl⟩, rfl⟩

end Slots

/-- **The builders agree**, from every state of the worker and of the cache and in whatever order
the hash map yields its entries, if and only if the hash list of the batch repeats no hash. -/
theorem builders_agree_iff (fp : B → ℕ) (totalSlots : ℕ) (numaNode : NumaNode)
    (layers : List (RawSaveLayer K B)) (hpath : canUseOrderedFastPath layers = true)
    (hparallel : ∀ layer ∈ layers, layer.blocks.length = layer.blockHashes.length)
    (hslots : ∀ layer ∈ layers, layer.slotId < totalSlots) :
    (∀ (resident : K → Bool) (entries : InsertEntries K B),
      entries.Perm (buildHashedInsertEntries layers) → ∀ st : BatchState K fp,
        Agree resident totalSlots numaNode (buildOrderedInsertEntries
          ((layers.head?.map blockHashes).getD []) layers) entries st) ↔
      ((layers.head?.map blockHashes).getD []).Nodup := by
  obtain ⟨first, rest, rfl⟩ : ∃ first rest, layers = first :: rest := by
    cases layers with
    | nil => cases hpath
    | cons first rest => exact ⟨first, rest, rfl⟩
  have hsame : ∀ layer ∈ first :: rest, layer.blockHashes = first.blockHashes :=
    fun layer hlayer => of_decide_eq_true (all_eq_true.mp hpath _ hlayer)
  show (∀ (resident : K → Bool) (entries : InsertEntries K B), _ → ∀ st : BatchState K fp,
    Agree resident totalSlots numaNode (buildOrderedInsertEntries first.blockHashes _) entries st) ↔
      first.blockHashes.Nodup
  constructor
  · intro h
    refine nodup_iff_count_le_one.mpr fun key => ?_
    by_cases hkey : key ∈ first.blockHashes
    swap
    · exact (count_eq_zero.mpr hkey).le.trans (Nat.zero_le 1)
    -- a block that lacks the slot of the first layer tells one entry from two
    have hblocks : first.blocks ≠ [] := by
      refine ne_nil_of_length_pos ?_
      rw [hparallel first mem_cons_self]
      exact length_pos_of_mem hkey
    obtain ⟨b, -⟩ := exists_mem_of_ne_nil _ hblocks
    obtain ⟨as, block, hmissing⟩ := exists_oneMissing fp b (hslots first mem_cons_self)
    have hslot : ∀ e ∈ buildOrderedInsertEntries first.blockHashes (first :: rest) ++
        buildHashedInsertEntries (first :: rest), e.1 = key →
        ∀ s, s ∈ e.2.map Prod.fst ↔ s ∈ (first :: rest).map slotId := by
      rintro e he rfl s
      rcases mem_append.mp he with he | he
      · exact slots_ordered hsame hparallel he s
      · exact slots_hashed hsame hparallel he hkey s
    have hone : ((buildHashedInsertEntries (first :: rest)).filter (·.1 = key)).length = 1 := by
      rw [length_filter_key, map_fst_buildHashedInsertEntries]
      exact count_eq_one_of_mem (nodup_dedup _)
        ((mem_keys_iff (cons_ne_nil _ _) hsame hparallel key).mpr hkey)
    rw [← map_fst_buildOrderedInsertEntries first.blockHashes (first :: rest), ← length_filter_key]
    refine agree_of_oneMissing hmissing ?_ ?_ hone (h _ _ (Perm.refl _) _)
    · intro e he hek p hp
      obtain ⟨layer, hlayer, heq⟩ := mem_map.mp ((hslot e he hek p.1).mp (mem_map_of_mem hp))
      exact heq ▸ hslots layer hlayer
    · exact fun e he hek => (hslot e he hek _).mpr mem_cons_self
  · intro hnodup resident entries hentries st
    refine agree_of_nodup resident totalSlots numaNode ?_
      (hentries.trans (buildHashedInsertEntries_perm (cons_ne_nil _ _) hsame hparallel hnodup)) st
    rw [map_fst_buildOrderedInsertEntries]
    exact hnodup

theorem builders_agree_on_two_blocks :
    Agree (fun _ => false) 2 ⟨0⟩
      (buildOrderedInsertEntries [7, 8] [⟨0, [10, 20], [7, 8]⟩, ⟨1, [11, 21], [7, 8]⟩])
      [(8, [(0, 20), (1, 21)]), (7, [(0, 10), (1, 11)])]
      (⟨∅, [], 0, 0⟩ : BatchState ℕ (id : ℕ → ℕ)) :=
  (builders_agree_iff id 2 ⟨0⟩ [⟨0, [10, 20], [7, 8]⟩, ⟨1, [11, 21], [7, 8]⟩] rfl (by decide)
    (by decide)).mpr (by decide) _ _ (by decide) _

/-- Slot 0 of a block is in flight, and a layer with slot 1 repeats its hash.  The first of the two
ordered entries seals the block and the second one puts it in flight again; the hashed entry seals
it and drops the other slot. -/
theorem builders_differ_on_repeated_hash :
    ¬ ∀ (resident : ℕ → Bool) (totalSlots : ℕ) (numaNode : NumaNode)
      (layers : List (RawSaveLayer ℕ ℕ)), canUseOrderedFastPath layers = true →
      (∀ layer ∈ layers, layer.blocks.length = layer.blockHashes.length) →
      (∀ layer ∈ layers, layer.slotId < totalSlots) → ∀ st : BatchState ℕ (id : ℕ → ℕ),
        Agree resident totalSlots numaNode (buildOrderedInsertEntries
          ((layers.head?.map blockHashes).getD []) layers)
          (buildHashedInsertEntries layers) st := by
  intro h
  have hsame := congrArg Option.isSome ((h (fun _ => false) 2 ⟨0⟩ [⟨1, [11, 12], [7, 7]⟩] rfl
    (by decide) (by decide)
    (processEntries (fun _ => false) 2 ⟨0⟩ [(7, [(0, 10)])] ⟨∅, [], 0, 0⟩)).1 7)
  revert hsame
  decide

end PegaFlow.WritePath
