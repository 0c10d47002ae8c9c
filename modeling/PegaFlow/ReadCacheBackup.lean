/-
PegaFlow/ReadCacheBackup.lean

The blocks that a node offers for backup, and why eviction would take them next.
-/
import PegaFlow.ReadCacheClasses
import PegaFlow.Tally

namespace PegaFlow.Resident

open List

variable {K V : Type} [DecidableEq K]

/-! ### The walk -/

def backupScanFactor : ℕ := 4

/-- The loop of `backup_candidates`, with the candidates found so far and their total. -/
def backupScan (maxBytes maxBlocks : ℕ) (owned : K → Bool) :
    List (K × ResidentMetadata) → List (K × ℕ) → ℕ → List (K × ℕ)
  | [], candidates, _ => candidates
  | (key, metadata) :: rest, candidates, total =>
    if maxBytes ≤ total ∨ maxBlocks ≤ candidates.length then candidates
    else if !owned key then backupScan maxBytes maxBlocks owned rest candidates total
    else backupScan maxBytes maxBlocks owned rest (candidates ++ [(key, metadata.bytes)])
      (saturatingAdd total metadata.bytes)

/-- `backup_candidates`, with the state it leaves. -/
def ReadCacheInner.backupCandidates (maxBytes maxBlocks : UInt64) (held : K → Bool)
    (s : ReadCacheInner K V) : List (K × ℕ) × ReadCacheInner K V :=
  let scan := saturatingMul maxBlocks.toNat backupScanFactor
  (backupScan maxBytes.toNat maxBlocks.toNat (s.cache.isCacheOwnedOnly held)
    (s.retained.toList.take scan) [] 0, s)

/-! ### What it keeps -/

/-- The entries of a list that may leave, with their bytes. -/
def freeEntries (owned : K → Bool) (entries : List (K × ResidentMetadata)) : List (K × ℕ) :=
  (entries.filter fun e => owned e.1).map fun e => (e.1, e.2.bytes)

def totalBytes (candidates : List (K × ℕ)) : ℕ := (candidates.map Prod.snd).sum

variable (maxBytes maxBlocks : ℕ)

/-- One of the two limits is reached. -/
def LimitReached (candidates : List (K × ℕ)) : Prop :=
  maxBytes ≤ totalBytes candidates ∨ maxBlocks ≤ candidates.length

/-- The shortest beginning of `offered` that reaches a limit, or all of it. -/
structure StopsAtLimit (offered candidates : List (K × ℕ)) : Prop where
  beginning : candidates <+: offered
  shortest : ∀ before, before <+: candidates → before ≠ candidates →
    ¬ LimitReached maxBytes maxBlocks before
  stopped : candidates = offered ∨ LimitReached maxBytes maxBlocks candidates

omit [DecidableEq K] in
/-- Below the limit of an `u64`, the saturated total says the same as the exact one. -/
theorem limit_saturated {maxBytes maxBlocks : ℕ} (hmax : maxBytes ≤ u64Max)
    (candidates : List (K × ℕ)) :
    (maxBytes ≤ min (totalBytes candidates) u64Max ∨ maxBlocks ≤ candidates.length) ↔
      LimitReached maxBytes maxBlocks candidates := by
  unfold LimitReached
  rw [le_min_iff, and_iff_left hmax]

omit [DecidableEq K] in
theorem saturatingAdd_total (candidates : List (K × ℕ)) (key : K) (bytes : ℕ) :
    saturatingAdd (min (totalBytes candidates) u64Max) bytes =
      min (totalBytes (candidates ++ [(key, bytes)])) u64Max := by
  unfold saturatingAdd totalBytes
  rw [map_append, sum_append, map_singleton, sum_singleton]
  omega

/-- The walk from any point on: `found` stays in front, and what follows stops at a limit. -/
theorem backupScan_spec {maxBytes : ℕ} (hmax : maxBytes ≤ u64Max) (maxBlocks : ℕ) (owned : K → Bool)
    (entries : List (K × ResidentMetadata)) (found : List (K × ℕ))
    (hfound : ∀ before, before <+: found → before ≠ found →
      ¬ LimitReached maxBytes maxBlocks before) :
    StopsAtLimit maxBytes maxBlocks (found ++ freeEntries owned entries)
      (backupScan maxBytes maxBlocks owned entries found (min (totalBytes found) u64Max)) := by
  induction entries generalizing found with
  | nil =>
    have hall : found ++ freeEntries owned [] = found := append_nil found
    rw [hall]
    exact ⟨prefix_refl found, hfound, .inl rfl⟩
  | cons entry rest ih =>
    obtain ⟨key, metadata⟩ := entry
    rw [backupScan]
    split
    · next hlimit =>
      exact ⟨prefix_append _ _, hfound, .inr ((limit_saturated hmax found).mp hlimit)⟩
    · next hlimit =>
      have hbelow := mt (limit_saturated hmax found).mpr hlimit
      cases howned : owned key with
      | false =>
        have hskip : freeEntries owned ((key, metadata) :: rest) = freeEntries owned rest := by
          rw [freeEntries, filter_cons_of_neg (by rw [howned]; decide), ← freeEntries]
        rw [hskip]
        exact ih found hfound
      | true =>
        have hkeep : freeEntries owned ((key, metadata) :: rest) =
            (key, metadata.bytes) :: freeEntries owned rest := by
          rw [freeEntries, filter_cons_of_pos (by rw [howned]), map_cons, ← freeEntries]
        rw [hkeep, ← singleton_append, ← append_assoc]
        rw [saturatingAdd_total]
        apply ih
        intro before hbefore hne
        rcases prefix_concat_iff.mp hbefore with rfl | hbefore
        · exact absurd rfl hne
        · by_cases hlast : before = found
          · rw [hlast]
            exact hbelow
          · exact hfound before hbefore hlast

/-! ### The candidates are the next blocks to leave -/

/-- What `backup_candidates` returned: free blocks among the first entries of the retained list, in
the order in which pressure eviction removes them after the free reclaimable ones. -/
structure BackupOffer (held : K → Bool) (s : ReadCacheInner K V)
    (candidates : List (K × ℕ)) : Prop where
  stops : StopsAtLimit maxBytes maxBlocks
    (freeEntries (fun key => !held key) (s.retained.toList.take (backupScanFactor * maxBlocks)))
    candidates
  evicted : ∃ removed s',
    s.removeLruBatch ((freeOrder held s.reclaimable).length + candidates.length) held =
      some (removed, s') ∧
    removed.map Prod.fst = freeOrder held s.reclaimable ++ candidates.map Prod.fst

section Offer

variable {T : Table K V} {n : ℕ} {s : ReadCacheInner K V}

omit [DecidableEq K] in
/-- The keys of the free entries among the first ones are the first free keys. -/
theorem map_fst_freeEntries (held : K → Bool) (m : LruCache K ResidentMetadata) (count : ℕ) :
    (freeEntries (fun key => !held key) (m.toList.take count)).map Prod.fst <+:
      freeOrder held m := by
  have horder : m.toList.map Prod.fst = m.order := by
    rw [LruCache.toList, map_map]
    exact map_reverse
  have hkeys : (freeEntries (fun key => !held key) (m.toList.take count)).map Prod.fst =
      (m.order.take count).filter fun key => !held key := by
    rw [← horder, ← map_take, filter_map, freeEntries, map_map]
    rfl
  rw [hkeys]
  exact (List.take_prefix count m.order).filter _

/-- Eviction of as many blocks as there are free reclaimable ones and candidates. -/
theorem Tracks.evicts_beginning (h : Tracks T n s) (held : K → Bool) {keys : List K}
    (hkeys : keys <+: freeOrder held s.retained) :
    ∃ removed s',
      s.removeLruBatch ((freeOrder held s.reclaimable).length + keys.length) held =
        some (removed, s') ∧
      removed.map Prod.fst = freeOrder held s.reclaimable ++ keys := by
  obtain ⟨removed, s', hs', -, hevicted⟩ :=
    h.evicted ((freeOrder held s.reclaimable).length + keys.length) held
  refine ⟨removed, s', hs', ?_⟩
  rw [hevicted.order, evictionOrder, take_length_add_append]
  exact congrArg _ (prefix_iff_eq_take.mp hkeys).symm

theorem Represents.free_eq (h : Represents T s) (held : K → Bool)
    {entries : List (K × ResidentMetadata)} (hsub : entries <+: s.retained.toList) :
    freeEntries (s.cache.isCacheOwnedOnly held) entries =
      freeEntries (fun key => !held key) entries := by
  refine congrArg _ (filter_congr fun e he => ?_)
  obtain ⟨entry, hentry, rfl⟩ := mem_map.mp (hsub.subset he)
  have hlookup : s.retained.lookup entry.1 = some entry.2 :=
    AList.mem_lookup_iff.mpr (mem_reverse.mp hentry)
  obtain ⟨block, hkey⟩ := h.of_lookup (show (s.classLru .retained).lookup _ = _ from hlookup)
  exact h.isCacheOwnedOnly hkey held

end Offer

/-- A list of the machine has fewer than `2 ^ 64` entries, so a saturated bound does not cut it. -/
theorem take_saturatingMul {α : Type} {entries : List α} (hlength : entries.length < 2 ^ 64)
    (maxBlocks : ℕ) :
    entries.take (saturatingMul maxBlocks backupScanFactor) =
      entries.take (backupScanFactor * maxBlocks) := by
  unfold saturatingMul
  rw [mul_comm maxBlocks]
  rcases le_total (backupScanFactor * maxBlocks) u64Max with hle | hle
  · rw [min_eq_left hle]
  · have hcover : entries.length ≤ u64Max := Nat.le_sub_one_of_lt hlength
    rw [min_eq_right hle, take_of_length_le hcover,
      take_of_length_le (hcover.trans hle)]

/-- **Backup candidates agree with eviction.**  In every state the cache reaches, and for any set
of held blocks, the candidates are the next retained blocks that pressure eviction would remove,
up to the first that reaches a limit and no further than the walk looks; and the cache is as
before.  The retained list is one of the machine, with fewer than `2 ^ 64` entries. -/
theorem backup_candidates_evicted_next (fp : V → ℕ) (freq : Option (TinyLfu K))
    (ops : List (Op K V)) (maxBytes maxBlocks : UInt64) (held : K → Bool) :
    ∃ s, exec (step fp) (ReadCacheInner.new freq) ops = some s ∧
      (s.retained.entries.length < 2 ^ 64 →
        BackupOffer maxBytes.toNat maxBlocks.toNat held s
          (s.backupCandidates maxBytes maxBlocks held).1) ∧
      (s.backupCandidates maxBytes maxBlocks held).2 = s := by
  obtain ⟨s, T, n, hs, htracks, -⟩ := (tracks_new freq).exec fp ops
  refine ⟨s, hs, fun hlength => ?_, rfl⟩
  have hscan : s.retained.toList.take (saturatingMul maxBlocks.toNat backupScanFactor) =
      s.retained.toList.take (backupScanFactor * maxBlocks.toNat) := by
    apply take_saturatingMul
    rwa [LruCache.toList, length_map, length_reverse]
  have hstops := backupScan_spec (Nat.le_sub_one_of_lt maxBytes.toNat_lt) maxBlocks.toNat
    (s.cache.isCacheOwnedOnly held)
    (s.retained.toList.take (backupScanFactor * maxBlocks.toNat)) []
    fun before hbefore hne => absurd (prefix_nil.mp hbefore) hne
  rw [htracks.free_eq held (List.take_prefix _ _)] at hstops
  have hkeys := (hstops.beginning.map Prod.fst).trans (map_fst_freeEntries held s.retained _)
  have hevicts := htracks.evicts_beginning held hkeys
  rw [length_map] at hevicts
  unfold ReadCacheInner.backupCandidates
  dsimp only
  rw [hscan]
  exact ⟨hstops, hevicts⟩

end PegaFlow.Resident
