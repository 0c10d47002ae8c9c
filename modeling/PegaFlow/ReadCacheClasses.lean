/-
PegaFlow/ReadCacheClasses.lean

Runs of the read cache: the value map, the two class lists and the byte counters agree.
-/
import Mathlib.Algebra.GroupWithZero.Nat
import PegaFlow.ReadCacheEviction

namespace PegaFlow.Resident

open List Function Option ReadCacheInner

variable {K V : Type} [DecidableEq K]

/-! ### Runs -/

/-- Lookups and demotions. -/
def Op.keepsResidents : Op K V → Bool
  | .batchInsert _ _ => false
  | .removeLruBatch _ _ => false
  | .removeAll => false
  | _ => true

variable {T T' : Table K V} {n : ℕ} {s s' : ReadCacheInner K V}

/-- No key goes back to the retained class while it stays. -/
def Settled (T T' : Table K V) : Prop :=
  ∀ key e e', T key = some e → T' key = some e' → e.cls = .reclaimable → e'.cls = .reclaimable

omit [DecidableEq K] in
theorem Demotes.settled (h : Demotes T T') : Settled T T' := by
  intro key e e' hkey hkey' hcls
  rcases h key with heq | heq
  · rw [heq, hkey] at hkey'
    cases hkey'
    exact hcls
  · rw [heq, hkey] at hkey'
    cases hkey'
    rfl

/-- **Step lemma**: an operation does not fail. -/
theorem Tracks.step (h : Tracks T n s) (fp : V → ℕ) (op : Op K V) :
    ∃ s' T' n', Resident.step fp s op = some s' ∧ Tracks T' n' s' ∧ Settled T T' ∧
      n' ≤ n + op.inserts ∧ (op.keepsResidents = true → s'.resident = s.resident) := by
  -- a hint moves entries of the table, a lookup leaves it
  have hdemotes : ∀ {α : Type} {o : Option (α × ReadCacheInner K V)},
      (∃ r s' T', o = some (r, s') ∧ Tracks T' n s' ∧ Demotes T T') →
      ∃ s' T' n', o.map Prod.snd = some s' ∧ Tracks T' n' s' ∧ Settled T T' ∧ n' ≤ n ∧
        (true = true → s'.resident = s.resident) := by
    rintro α _ ⟨r, s', T', rfl, htracks, hdemotes⟩
    exact ⟨s', T', n, rfl, htracks, hdemotes.settled, le_rfl,
      fun _ => hdemotes.resident h.toRepresents htracks.toRepresents⟩
  have hlookup : ∀ {α : Type} {o : Option (α × ReadCacheInner K V)},
      (∃ r s', o = some (r, s') ∧ Tracks T n s') →
      ∃ r s' T', o = some (r, s') ∧ Tracks T' n s' ∧ Demotes T T' := by
    rintro α _ ⟨r, s', rfl, htracks⟩
    exact ⟨r, s', T, rfl, htracks, Demotes.refl T⟩
  cases op with
  | batchInsert blocks cls =>
    obtain ⟨keys, s', T', n', hs', htracks, hfills, hle⟩ := h.batchInsert fp cls blocks
    refine ⟨s', T', n', congrArg (Option.map Prod.snd) hs', htracks, ?_, hle, fun hop => by
      cases hop⟩
    intro key e e' hkey hkey' hcls
    rw [hfills.stays key e hkey] at hkey'
    cases hkey'
    exact hcls
  | getPrefixBlocks keys => exact hdemotes (hlookup (h.getPrefixBlocks keys))
  | getBlocks keys =>
    obtain ⟨blocks, s', hs', htracks⟩ := h.getBlocksAligned keys
    exact hdemotes (hlookup ⟨_, s', congrArg (Option.map _) hs', htracks⟩)
  | getBlocksAligned keys => exact hdemotes (hlookup (h.getBlocksAligned keys))
  | removeLruBatch batchSize held =>
    obtain ⟨removed, s', hs', htracks, -⟩ := h.evicted batchSize held
    refine ⟨s', _, n, congrArg (Option.map Prod.snd) hs', htracks, ?_, le_rfl, fun hop => by
      cases hop⟩
    intro key e e' hkey hkey' hcls
    rw [Table.eq_some_of_without hkey'] at hkey
    cases hkey
    exact hcls
  | removeAll =>
    obtain ⟨removed, s', hs', htracks⟩ := h.removeAll
    refine ⟨s', _, n, congrArg (Option.map Prod.snd) hs', htracks, ?_, le_rfl, fun hop => by
      cases hop⟩
    intro key e e' hkey hkey'
    cases hkey'
  | markReclaimableKeys keys => exact hdemotes (h.markReclaimable _)
  | markReclaimableIfGeneration keys generations => exact hdemotes (h.markReclaimable _)

/-- How many blocks a run offers for insertion. -/
def insertsIn (ops : List (Op K V)) : ℕ := (ops.map Op.inserts).sum

/-- **Run lemma.** -/
theorem Tracks.exec (h : Tracks T n s) (fp : V → ℕ) (ops : List (Op K V)) :
    ∃ s' T' n', PegaFlow.exec (Resident.step fp) s ops = some s' ∧ Tracks T' n' s' ∧
      n' ≤ n + insertsIn ops := by
  induction ops generalizing s T n with
  | nil => exact ⟨s, T, n, rfl, h, le_refl _⟩
  | cons op ops ih =>
    have hsum : insertsIn (op :: ops) = op.inserts + insertsIn ops := rfl
    obtain ⟨s₁, T₁, n₁, hs₁, htracks₁, -, hle₁, -⟩ := h.step fp op
    obtain ⟨s₂, T₂, n₂, hs₂, htracks₂, hle₂⟩ := ih htracks₁
    refine ⟨s₂, T₂, n₂, ?_, htracks₂, by omega⟩
    rw [PegaFlow.exec, hs₁]
    exact hs₂

theorem tracks_new (freq : Option (TinyLfu K)) :
    Tracks (fun _ => none) 0 (new freq : ReadCacheInner K V) where
  resident _ := rfl
  classLru
    | .reclaimable, _ => rfl
    | .retained, _ => rfl
  bytes
    | .reclaimable => rfl
    | .retained => rfl
  nextGeneration_eq := rfl
  numbered _ := numbered_empty 0

/-- The agreement of the value map, the class lists, the counters and the metadata. -/
structure Classes (s : ReadCacheInner K V) : Prop where
  resident_iff : ∀ key, s.cache.containsKey key ↔ key ∈ s.reclaimable ∨ key ∈ s.retained
  disjoint : ∀ key, ¬ (key ∈ s.reclaimable ∧ key ∈ s.retained)
  reclaimable_bytes : s.classBytes.reclaimable = keyedSum ResidentMetadata.bytes s.reclaimable
  retained_bytes : s.classBytes.retained = keyedSum ResidentMetadata.bytes s.retained
  generation_injective : ∀ key key' md md', s.metadata key = some md → s.metadata key' = some md' →
    md.generation = md'.generation → key = key'
  generation_le : ∀ key md, s.metadata key = some md → md.generation ≤ s.nextGeneration

theorem Tracks.classes (h : Tracks T n s) (hlt : n < 2 ^ 64) : Classes s where
  resident_iff _ := h.containsKey_iff
  disjoint _ := h.disjoint
  reclaimable_bytes := h.bytes .reclaimable
  retained_bytes := h.bytes .retained
  generation_injective key key' md md' hmd hmd' heq := by
    rw [h.metadata_eq] at hmd hmd'
    obtain ⟨e, hkey, rfl⟩ := map_eq_some_iff.mp hmd
    obtain ⟨e', hkey', rfl⟩ := map_eq_some_iff.mp hmd'
    exact (h.numbered hlt).injective key key' e e' hkey hkey' heq
  generation_le key md hmd := by
    rw [h.metadata_eq] at hmd
    obtain ⟨e, hkey, rfl⟩ := map_eq_some_iff.mp hmd
    rw [h.nextGeneration_eq, Nat.mod_eq_of_lt hlt]
    exact (h.numbered hlt).le key e hkey

theorem Settled.mem_reclaimable (hT : Settled T T') (h : Represents T s) (h' : Represents T' s')
    {key : K} (hkey : key ∈ s.reclaimable) (hstays : s'.cache.containsKey key) :
    key ∈ s'.reclaimable := by
  obtain ⟨md, block, hT₁⟩ := (h.mem_class .reclaimable).mp hkey
  rw [h'.containsKey, isSome_iff_exists] at hstays
  obtain ⟨⟨cls, md', block'⟩, hT₂⟩ := hstays
  obtain rfl : cls = .reclaimable := hT key _ _ hT₁ hT₂ rfl
  exact (h'.mem_class .reclaimable).mpr ⟨md', block', hT₂⟩

/-- **The classes of the read cache.**  After every sequence of operations with fewer than `2 ^ 64`
insertions, and before and after every further one, the resident keys are the disjoint union of the
two class lists, the counters are the sums of the recorded bytes, and the generations are distinct
and at most the last one given out.  No operation fails, so no counter underflows.  A resident key
moves between the classes only from retained to reclaimable. -/
theorem classes_along_every_run (fp : V → ℕ) (freq : Option (TinyLfu K)) (ops : List (Op K V))
    (op : Op K V) (h : insertsIn (ops ++ [op]) < 2 ^ 64) :
    ∃ s s', exec (step fp) (new freq) ops = some s ∧ step fp s op = some s' ∧
      Classes s ∧ Classes s' ∧
      ∀ key, key ∈ s.reclaimable → s'.cache.containsKey key = true → key ∈ s'.reclaimable := by
  have hsum : insertsIn (ops ++ [op]) = insertsIn ops + op.inserts := by
    rw [insertsIn, map_append, sum_append]
    rfl
  obtain ⟨s, T, n, hs, htracks, hle⟩ := (tracks_new freq).exec fp ops
  obtain ⟨s', T', n', hs', htracks', hT, hle', -⟩ := htracks.step fp op
  exact ⟨s, s', hs, hs', htracks.classes (by omega), htracks'.classes (by omega), fun key =>
    hT.mem_reclaimable htracks.toRepresents htracks'.toRepresents⟩

/-- Two blocks are inserted, one is demoted and used, both are evicted. -/
theorem classes_after_hint_and_eviction :
    ∃ s s' : ReadCacheInner ℕ ℕ, exec (step id) (new none)
        [.batchInsert [(1, 100), (2, 200)] .retained, .markReclaimableKeys [2], .getBlocks [2]] =
          some s ∧
      step id s (.removeLruBatch 2 fun _ => false) = some s' ∧ Classes s ∧ Classes s' ∧
      ∀ key, key ∈ s.reclaimable → s'.cache.containsKey key = true → key ∈ s'.reclaimable :=
  classes_along_every_run id none _ _ (by decide)

/-! ### Eviction -/

/-- **Eviction order.**  In every state the cache reaches, pressure eviction does not fail.  It
takes the requested number of blocks or all free ones, reclaimable before retained and each class
from its least recently used block on; held blocks stay where they are, and no entry is looked at
twice. -/
theorem eviction_order (fp : V → ℕ) (freq : Option (TinyLfu K)) (ops : List (Op K V))
    (batchSize : ℕ) (held : K → Bool) :
    ∃ s removed s', exec (step fp) (new freq) ops = some s ∧
      s.removeLruBatch batchSize held = some (removed, s') ∧
      Evicted batchSize held removed s s' := by
  obtain ⟨s, T, n, hs, htracks, -⟩ := (tracks_new freq).exec fp ops
  obtain ⟨removed, s', hs', -, hevicted⟩ := htracks.evicted batchSize held
  exact ⟨s, removed, s', hs, hs', hevicted⟩

end PegaFlow.Resident
