/-
PegaFlow/ReadCacheEviction.lean

Which blocks pressure eviction takes, and in which order.
-/
import PegaFlow.ReadCacheTable

namespace PegaFlow.Resident

open List ReadCacheInner

variable {K V : Type} [DecidableEq K]

/-! ### The order of eviction -/

/-- The keys of a class that nobody else holds, least recently used first. -/
def freeOrder (held : K → Bool) (m : LruCache K ResidentMetadata) : List K :=
  m.order.filter fun key => !held key

/-- Reclaimable blocks first, then retained ones. -/
def evictionOrder (held : K → Bool) (s : ReadCacheInner K V) : List K :=
  freeOrder held s.reclaimable ++ freeOrder held s.retained

/-- The resident keys that nobody else holds. -/
def freeKeys (held : K → Bool) (s : ReadCacheInner K V) : List K :=
  s.cache.lru.keys.filter fun key => !held key

/-! ### What the loop looks at -/

namespace ReadCacheInner

/-- The keys that `remove_lru_batch_from_class` looks at, turn by turn. -/
def inspectedFromClass (cls : ResidentClass) (batchSize : ℕ) (held : K → Bool) :
    ℕ → List (K × V) → ReadCacheInner K V → List K
  | 0, _, _ => []
  | candidates + 1, removed, s =>
    if removed.length = batchSize then []
    else match (s.classLru cls).lru with
      | none => []
      | some (key, _) =>
        key ::
          if s.cache.isCacheOwnedOnly held key then
            match s.removeLru cls (s.classLru cls).entries.length with
            | some (some block, s) =>
              inspectedFromClass cls batchSize held candidates (removed ++ [block]) s
            | _ => []
          else
            inspectedFromClass cls batchSize held candidates removed
              (s.setClassLru cls ((s.classLru cls).touch key))

/-- The keys that `remove_lru_batch` looks at: those of the first loop and, if it was not enough,
those of the second. -/
def inspected (batchSize : ℕ) (held : K → Bool) (s : ReadCacheInner K V) : List K :=
  inspectedFromClass .reclaimable batchSize held s.reclaimable.entries.length [] s ++
    match evictClass .reclaimable batchSize held [] s with
    | some (removed, s) =>
      if removed.length < batchSize then
        inspectedFromClass .retained batchSize held s.retained.entries.length removed s
      else []
    | none => []

end ReadCacheInner

open ReadCacheInner

/-! ### One entry -/

/-- The table without some keys. -/
def Table.without (T : Table K V) (keys : List K) : Table K V :=
  fun key => if key ∈ keys then none else T key

variable {T : Table K V} {n : ℕ} {s s' : ReadCacheInner K V} {cls : ResidentClass} {key : K}
  {md : ResidentMetadata} {e : Entry V} {keys : List K}

theorem Table.without_append (T : Table K V) (keys keys' : List K) :
    (T.without keys).without keys' = T.without (keys ++ keys') := by
  funext key
  unfold Table.without
  simp only [mem_append]
  by_cases h : key ∈ keys
  · simp only [h, if_true, ite_self, true_or]
  · simp only [h, if_false, false_or]

theorem Table.without_singleton (T : Table K V) (key : K) :
    T.without [key] = Function.update T key none := by
  funext key'
  rw [Function.update_apply]
  exact if_congr mem_singleton rfl rfl

theorem Table.eq_some_of_without (h : T.without keys key = some e) : T key = some e :=
  (Option.ite_none_left_eq_some.mp h).2

/-- The state without one entry of a class. -/
def ReadCacheInner.evictEntry (s : ReadCacheInner K V) (cls : ResidentClass) (key : K)
    (md : ResidentMetadata) : ReadCacheInner K V :=
  setBytes { s.setClassLru cls ((s.classLru cls).erase key) with cache := s.cache.remove key } cls
    (s.bytesOf cls - md.bytes)

theorem ReadCacheInner.classLru_evictEntry {cls' : ResidentClass} :
    (s.evictEntry cls key md).classLru cls' =
      if cls' = cls then (s.classLru cls).erase key else s.classLru cls' := by
  cases cls <;> cases cls' <;> rfl

theorem Tracks.evictEntry (h : Tracks T n s) (hkey : T key = some e) :
    Tracks (T.without [key]) n (s.evictEntry e.cls key e.md) := by
  have hold : n < 2 ^ 64 → Numbered (T.without [key]) n := fun hlt =>
    (h.numbered hlt).of_old fun _ d hd => ⟨d, Table.eq_some_of_without hd, rfl⟩
  rw [Table.without_singleton] at hold ⊢
  refine ⟨h.set ?_ ?_ ?_, ?_, hold⟩
  · intro key'
    rw [ReadCacheInner.resident, ReadCacheInner.evictEntry, cache_setBytes]
    exact lookup_erase_apply key'
  · intro cls' key'
    rw [classLru_evictEntry]
    split
    · next heq =>
      rw [heq]
      exact lookup_erase_apply key'
    · next hne =>
      refine h.lookup_absent ?_ key'
      rw [hkey]
      exact if_neg (Ne.symm hne)
  · intro cls'
    rw [ReadCacheInner.evictEntry, bytesOf_setBytes, hkey, Option.bind_some, Entry.inClass]
    have hle := h.bytes_le hkey
    split
    · next heq =>
      subst heq
      rw [if_pos rfl]
      exact Nat.sub_add_cancel hle
    · next hne =>
      rw [if_neg (Ne.symm hne)]
      exact congrArg (· + 0) bytesOf_setClassLru
  · rw [ReadCacheInner.evictEntry, nextGeneration_setBytes]
    exact nextGeneration_setClassLru.trans h.nextGeneration_eq

/-- The victim of a class is resident, so the loop of `remove_lru` ends with it. -/
theorem Represents.removeLru (h : Represents T s) (hlru : (s.classLru cls).lru = some (key, md)) :
    ∃ block, T key = some ⟨cls, md, block⟩ ∧
      s.removeLru cls (s.classLru cls).entries.length =
        some (some (key, block), s.evictEntry cls key md) := by
  obtain ⟨block, hkey⟩ := h.of_lookup (LruCache.lookup_of_lru hlru)
  have hblock : s.cache.lru.lookup key = some block := (h.resident key).trans (by rw [hkey]; rfl)
  have hle : md.bytes ≤ s.bytesOf cls := h.bytes_le hkey
  have hsub : ∀ s₁ : ReadCacheInner K V, s₁.bytesOf cls = s.bytesOf cls →
      s₁.subBytes cls md.bytes = some (s₁.setBytes cls (s.bytesOf cls - md.bytes)) := by
    intro s₁ hs₁
    rw [subBytes, hs₁, if_pos hle]
  obtain ⟨fuel, hfuel⟩ : ∃ fuel, (s.classLru cls).entries.length = fuel + 1 := by
    refine Nat.exists_eq_succ_of_ne_zero fun hzero => ?_
    rw [LruCache.lru_eq_none.mpr (length_eq_zero_iff.mp hzero)] at hlru
    cases hlru
  refine ⟨block, hkey, ?_⟩
  rw [hfuel, ReadCacheInner.removeLru, hlru]
  dsimp only
  rw [cache_setClassLru, hblock]
  rw [hsub _ (by cases cls <;> rfl)]
  rfl

theorem Represents.isCacheOwnedOnly (h : Represents T s) (hkey : T key = some e) (held : K → Bool) :
    s.cache.isCacheOwnedOnly held key = !held key := by
  rw [TinyLfuCache.isCacheOwnedOnly, h.containsKey, hkey]
  rfl

/-! ### One class -/

/-- What a scan of one class took, the class being `front` and held keys that were passed over. -/
structure Scanned (cls : ResidentClass) (room : ℕ) (held : K → Bool) (front : List K)
    (taken : List (K × V)) (T : Table K V) (s s' : ReadCacheInner K V) : Prop where
  keys : taken.map Prod.fst = (front.filter fun key => !held key).take room
  blocks : ∀ b ∈ taken, ∃ e, T b.1 = some e ∧ e.block = b.2
  other : ∀ cls' ≠ cls, s'.classLru cls' = s.classLru cls'

/-- **The scan of a class.**  With one turn for every key of `front`, the loop takes the free ones
among them in their order until the batch is full, and looks at a beginning of `front`. -/
theorem Tracks.scan (h : Tracks T n s) (batchSize : ℕ) (held : K → Bool) {front back : List K}
    (hqueue : (s.classLru cls).order = front ++ back) (removed : List (K × V))
    (hroom : removed.length ≤ batchSize) :
    ∃ taken s', s.removeLruBatchFromClass cls batchSize held front.length removed =
        some (removed ++ taken, s') ∧
      Tracks (T.without (taken.map Prod.fst)) n s' ∧
      Scanned cls (batchSize - removed.length) held front taken T s s' ∧
      inspectedFromClass cls batchSize held front.length removed s <+: front := by
  induction front generalizing s T back removed with
  | nil =>
    refine ⟨[], s, ?_, ?_, ⟨?_, fun _ he => absurd he not_mem_nil, fun _ _ => rfl⟩,
      prefix_refl []⟩
    · rw [append_nil]
      rfl
    · exact h
    · exact take_nil.symm
  | cons key front ih =>
    rw [length_cons]
    by_cases hfull : removed.length = batchSize
    · refine ⟨[], s, ?_, ?_, ⟨?_, fun _ he => absurd he not_mem_nil, fun _ _ => rfl⟩, ?_⟩
      · rw [removeLruBatchFromClass, if_pos hfull, append_nil]
      · exact h
      · rw [hfull, Nat.sub_self]
        rfl
      · rw [inspectedFromClass, if_pos hfull]
        exact nil_prefix
    rw [cons_append] at hqueue
    obtain ⟨md, hlru, herase, htouch⟩ := LruCache.order_cons hqueue
    obtain ⟨block, hkey, hs₁⟩ := h.removeLru hlru
    rw [removeLruBatchFromClass, inspectedFromClass, if_neg hfull, if_neg hfull,
      hlru]
    dsimp only
    rw [h.isCacheOwnedOnly hkey held]
    cases hheld : held key with
    | false =>
      -- the head leaves
      have hqueue₁ : ((s.evictEntry cls key md).classLru cls).order = front ++ back := by
        rw [classLru_evictEntry, if_pos rfl, herase]
      have hlength : (removed ++ [(key, block)]).length = removed.length + 1 := by
        rw [length_append, length_singleton]
      obtain ⟨taken, s', hs', htracks, hscanned, hprefix⟩ := ih (h.evictEntry hkey) hqueue₁
        (removed ++ [(key, block)]) (by omega)
      rw [hs₁]
      refine ⟨(key, block) :: taken, s', ?_, ?_, ⟨?_, ?_, ?_⟩, ?_⟩
      · rw [← singleton_append, ← append_assoc]
        exact hs'
      · rw [map_cons, ← singleton_append, ← Table.without_append]
        exact htracks
      · have hkeys := hscanned.keys
        rw [hlength] at hkeys
        obtain ⟨room, hroom'⟩ : ∃ room, batchSize - removed.length = room + 1 :=
          ⟨batchSize - (removed.length + 1), by omega⟩
        rw [hroom', filter_cons_of_pos (by rw [hheld]; rfl), take_succ_cons,
          map_cons, hkeys, show batchSize - (removed.length + 1) = room by omega]
      · intro b hb
        rcases mem_cons.mp hb with rfl | hb
        · exact ⟨_, hkey, rfl⟩
        · obtain ⟨e, he, hblock⟩ := hscanned.blocks b hb
          exact ⟨e, Table.eq_some_of_without he, hblock⟩
      · intro cls' hne
        rw [hscanned.other cls' hne, classLru_evictEntry, if_neg hne]
      · exact cons_prefix_cons.mpr ⟨rfl, hprefix⟩
    | true =>
      -- the head goes to the end
      have hqueue₁ : ((s.setClassLru cls ((s.classLru cls).touch key)).classLru cls).order =
          front ++ (back ++ [key]) := by
        rw [classLru_setClassLru, if_pos rfl, htouch, append_assoc]
      obtain ⟨taken, s', hs', htracks, hscanned, hprefix⟩ := ih (h.touch cls key) hqueue₁
        removed hroom
      refine ⟨taken, s', hs', htracks, ⟨?_, hscanned.blocks, ?_⟩, ?_⟩
      · rw [hscanned.keys, filter_cons_of_neg (by rw [hheld]; decide)]
      · intro cls' hne
        rw [hscanned.other cls' hne, classLru_setClassLru, if_neg hne]
      · exact cons_prefix_cons.mpr ⟨rfl, hprefix⟩

theorem Tracks.evictClass (h : Tracks T n s) (cls : ResidentClass) (batchSize : ℕ) (held : K → Bool)
    (removed : List (K × V)) (hroom : removed.length ≤ batchSize) :
    ∃ taken s', evictClass cls batchSize held removed s =
        some (removed ++ taken, s') ∧
      Tracks (T.without (taken.map Prod.fst)) n s' ∧
      Scanned cls (batchSize - removed.length) held (s.classLru cls).order taken T s s' ∧
      inspectedFromClass cls batchSize held (s.classLru cls).entries.length removed s <+:
        (s.classLru cls).order := by
  rw [ReadCacheInner.evictClass, ← LruCache.length_order]
  exact h.scan batchSize held (append_nil _).symm removed hroom

/-! ### The whole operation -/

/-- What `remove_lru_batch` did. -/
structure Evicted (batchSize : ℕ) (held : K → Bool) (removed : List (K × V))
    (s s' : ReadCacheInner K V) : Prop where
  /-- The first keys of the order, as it was at the start. -/
  order : removed.map Prod.fst = (evictionOrder held s).take batchSize
  /-- As many as asked for, or all that are free. -/
  count : removed.length = min batchSize (freeKeys held s).length
  /-- The blocks that were stored, none of them held. -/
  blocks : ∀ e ∈ removed, s.resident e.1 = some e.2 ∧ held e.1 = false
  /-- Only they are gone: the other blocks stay resident, in their class. -/
  resident : ∀ key ∉ removed.map Prod.fst, s'.resident key = s.resident key ∧
    ∀ cls, (s'.classLru cls).lookup key = (s.classLru cls).lookup key
  gone : ∀ key ∈ removed.map Prod.fst, s'.resident key = none ∧
    ∀ cls, (s'.classLru cls).lookup key = none
  held_stay : ∀ key cls, held key → key ∈ s.classLru cls →
    key ∈ s'.classLru cls ∧ s'.resident key = s.resident key
  /-- No key is looked at twice. -/
  inspected : (s.inspected batchSize held).Nodup

section Evicted

variable {batchSize : ℕ} {held : K → Bool}

/-- The order lists every free resident key once. -/
theorem Represents.evictionOrder_perm (h : Represents T s) (held : K → Bool) :
    (evictionOrder held s).Perm (freeKeys held s) := by
  unfold evictionOrder freeOrder freeKeys
  rw [← filter_append]
  refine List.Perm.filter _ ?_
  exact ((reverse_perm _).append (reverse_perm _)).trans h.keys_perm.symm

theorem Represents.of_without (h : Represents T s) (h' : Represents (T.without keys) s') (key : K) :
    s'.resident key = (if key ∈ keys then none else s.resident key) ∧
      ∀ cls, (s'.classLru cls).lookup key =
        if key ∈ keys then none else (s.classLru cls).lookup key := by
  simp only [h'.resident, h.resident, h'.classLru, h.classLru, Table.without]
  split
  · exact ⟨rfl, fun _ => rfl⟩
  · exact ⟨rfl, fun _ => rfl⟩

theorem Represents.order_nodup (h : Represents T s) :
    (s.reclaimable.order ++ s.retained.order).Nodup :=
  ((reverse_perm _).append (reverse_perm _)).nodup_iff.mpr h.keys_disjoint

/-- The second loop continues where the first one stopped: at the end of the reclaimable class, or
with a full batch. -/
theorem Tracks.evictRest {s₁ : ReadCacheInner K V} {taken : List (K × V)}
    (h₁ : Tracks (T.without (taken.map Prod.fst)) n s₁) (hretained : s₁.retained = s.retained)
    (hkeys : taken.map Prod.fst = (freeOrder held s.reclaimable).take batchSize)
    (hblocks : ∀ b ∈ taken, ∃ e, T b.1 = some e ∧ e.block = b.2) :
    ∃ removed s₂, evictRest batchSize held taken s₁ = some (removed, s₂) ∧
      Tracks (T.without (removed.map Prod.fst)) n s₂ ∧
      removed.map Prod.fst = (evictionOrder held s).take batchSize ∧
      (∀ b ∈ removed, ∃ e, T b.1 = some e ∧ e.block = b.2) ∧
      (if taken.length < batchSize then
        inspectedFromClass .retained batchSize held s₁.retained.entries.length taken s₁
        else []) <+: s.retained.order := by
  have hlength : taken.length = min batchSize (freeOrder held s.reclaimable).length := by
    rw [← length_take, ← hkeys, length_map]
  unfold ReadCacheInner.evictRest evictionOrder
  rw [take_append, ← hkeys]
  split
  · next hlt =>
    obtain ⟨rest, s₂, hs₂, htracks₂, hscan, hseen⟩ :=
      h₁.evictClass .retained batchSize held taken hlt.le
    refine ⟨taken ++ rest, s₂, hs₂, ?_, ?_, ?_, ?_⟩
    · rw [map_append, ← Table.without_append]
      exact htracks₂
    · rw [map_append, hscan.keys, show (freeOrder held s.reclaimable).length = taken.length by
        omega]
      show _ ++ (freeOrder held s₁.retained).take _ = _
      rw [hretained]
    · intro b hb
      rcases mem_append.mp hb with hb | hb
      · exact hblocks b hb
      · obtain ⟨e, he, hblock⟩ := hscan.blocks b hb
        exact ⟨e, Table.eq_some_of_without he, hblock⟩
    · rw [← hretained]
      exact hseen
  · next hfull =>
    refine ⟨taken, s₁, rfl, h₁, ?_, hblocks, nil_prefix⟩
    rw [show batchSize - (freeOrder held s.reclaimable).length = 0 by omega, take_zero,
      append_nil]

theorem Tracks.evicted (h : Tracks T n s) (batchSize : ℕ) (held : K → Bool) :
    ∃ removed s', s.removeLruBatch batchSize held = some (removed, s') ∧
      Tracks (T.without (removed.map Prod.fst)) n s' ∧ Evicted batchSize held removed s s' := by
  obtain ⟨taken, s₁, hs₁, htracks₁, hscan₁, hseen₁⟩ :=
    h.evictClass .reclaimable batchSize held [] (Nat.zero_le _)
  rw [nil_append] at hs₁
  have hkeys₁ : taken.map Prod.fst = (freeOrder held s.reclaimable).take batchSize := hscan₁.keys
  obtain ⟨removed, s₂, hs₂, htracks₂, horder, hblocks, hseen₂⟩ :=
    htracks₁.evictRest (hscan₁.other .retained (by decide)) hkeys₁ hscan₁.blocks
  have hresult : s.removeLruBatch batchSize held =
      some (removed, { s₂ with pressured := s₂.pressured || !removed.isEmpty }) := by
    rw [removeLruBatch, hs₁, Option.bind_eq_bind, Option.bind_some]
    dsimp only
    rw [hs₂]
    rfl
  have htracks := htracks₂.setPressured (s₂.pressured || !removed.isEmpty)
  have hafter := h.of_without htracks.toRepresents
  have hfree : ∀ key ∈ removed.map Prod.fst, held key = false := by
    intro key hkey
    rw [horder] at hkey
    have hmem := (h.evictionOrder_perm held).subset (mem_of_mem_take hkey)
    exact (Bool.not_eq_true' _).mp (mem_filter.mp hmem).2
  refine ⟨removed, _, hresult, htracks, horder, ?_, ?_, ?_, ?_, ?_, ?_⟩
  · rw [← (h.evictionOrder_perm held).length_eq, ← length_take, ← horder, length_map]
  · intro b hb
    obtain ⟨e, he, hblock⟩ := hblocks b hb
    refine ⟨?_, hfree b.1 (mem_map_of_mem hb)⟩
    rw [h.resident, he, ← hblock]
    rfl
  · intro key hkey
    exact ⟨(hafter key).1.trans (if_neg hkey), fun cls => ((hafter key).2 cls).trans (if_neg hkey)⟩
  · intro key hkey
    exact ⟨(hafter key).1.trans (if_pos hkey), fun cls => ((hafter key).2 cls).trans (if_pos hkey)⟩
  · intro key cls hheld hmem
    have hstays : key ∉ removed.map Prod.fst := by
      intro hkey
      rw [hfree key hkey] at hheld
      cases hheld
    refine ⟨?_, (hafter key).1.trans (if_neg hstays)⟩
    rw [← AList.lookup_isSome] at hmem ⊢
    rwa [(hafter key).2, if_neg hstays]
  · unfold inspected
    rw [hs₁]
    exact h.order_nodup.sublist (hseen₁.sublist.append hseen₂.sublist)

omit [DecidableEq K] in
theorem nodup_freeKeys : (freeKeys held s).Nodup := s.cache.lru.keys_nodup.filter _

theorem mem_freeKeys {key : K} :
    key ∈ freeKeys held s ↔ (s.resident key).isSome ∧ held key = false := by
  rw [freeKeys, mem_filter, mem_keys_iff, Bool.not_eq_true']
  rfl

theorem Evicted.length_freeKeys {removed : List (K × V)} (h : Evicted batchSize held removed s s')
    (hs : Represents T s) :
    (freeKeys held s).length = (freeKeys held s').length + removed.length := by
  have hkeys : (removed.map Prod.fst).Nodup := by
    rw [h.order]
    exact ((hs.evictionOrder_perm held).nodup_iff.mpr nodup_freeKeys).sublist
      (take_sublist _ _)
  have hapart : ∀ key ∈ freeKeys held s', key ∉ removed.map Prod.fst := by
    intro key hkey hmem
    have hsome := (mem_freeKeys.mp hkey).1
    rw [(h.gone key hmem).1] at hsome
    cases hsome
  have hperm : (freeKeys held s).Perm (freeKeys held s' ++ removed.map Prod.fst) := by
    refine (perm_ext_iff_of_nodup nodup_freeKeys (nodup_append.mpr
      ⟨nodup_freeKeys, hkeys, fun key hkey key' hkey' heq =>
        hapart key hkey (heq ▸ hkey')⟩)).mpr fun key => ?_
    rw [mem_append]
    by_cases hmem : key ∈ removed.map Prod.fst
    · refine iff_of_true ?_ (.inr hmem)
      obtain ⟨b, hb, rfl⟩ := mem_map.mp hmem
      obtain ⟨hres, hfree⟩ := h.blocks b hb
      exact mem_freeKeys.mpr ⟨by rw [hres]; rfl, hfree⟩
    · rw [mem_freeKeys, mem_freeKeys, (h.resident key hmem).1]
      exact ⟨.inl, fun hor => hor.resolve_right hmem⟩
  rw [hperm.length_eq, length_append, length_map]

end Evicted

end PegaFlow.Resident
