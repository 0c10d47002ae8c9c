/-
PegaFlow/ReadCacheTable.lean

The read cache as a table.

The abstract state is a table: each resident key with its class, its metadata and its block.
`Represents T s` says that the structures of `s` are the table `T`, seen from each side; that the
classes are disjoint needs no proof then, as a key has one entry in `T`.  `Tracks T n s` adds the
generations, after `n` insertions.  An operation on one key writes one entry of the table
(`Represents.set`): a hit none, an insertion a new one, a hint the class, an eviction removes it.
-/
import PegaFlow.ReadCache
import PegaFlow.Run

namespace PegaFlow.Resident

open List Function Option ReadCacheInner

variable {K V : Type}

/-! ### Access to one class -/

namespace ReadCacheInner

variable {s : ReadCacheInner K V} {cls cls' : ResidentClass} {m : LruCache K ResidentMetadata}
  {n : ℕ}

@[simp] theorem classLru_setClassLru : (s.setClassLru cls m).classLru cls' =
    if cls' = cls then m else s.classLru cls' := by
  cases cls <;> cases cls' <;> rfl

@[simp] theorem bytesOf_setClassLru : (s.setClassLru cls m).bytesOf cls' = s.bytesOf cls' := by
  cases cls <;> cases cls' <;> rfl

@[simp] theorem cache_setClassLru : (s.setClassLru cls m).cache = s.cache := by
  cases cls <;> rfl

@[simp] theorem nextGeneration_setClassLru :
    (s.setClassLru cls m).nextGeneration = s.nextGeneration := by
  cases cls <;> rfl

@[simp] theorem classLru_setBytes : (s.setBytes cls n).classLru cls' = s.classLru cls' := by
  cases cls <;> cases cls' <;> rfl

@[simp] theorem bytesOf_setBytes : (s.setBytes cls n).bytesOf cls' =
    if cls' = cls then n else s.bytesOf cls' := by
  cases cls <;> cases cls' <;> rfl

@[simp] theorem cache_setBytes : (s.setBytes cls n).cache = s.cache := by
  cases cls <;> rfl

@[simp] theorem nextGeneration_setBytes :
    (s.setBytes cls n).nextGeneration = s.nextGeneration := by
  cases cls <;> rfl

end ReadCacheInner

/-! ### The table of resident blocks -/

/-- What the structures say about a resident key. -/
structure Entry (V : Type) where
  cls : ResidentClass
  md : ResidentMetadata
  block : V

/-- The metadata of an entry, if it is in the class. -/
def Entry.inClass (cls : ResidentClass) (e : Entry V) : Option ResidentMetadata :=
  if e.cls = cls then some e.md else none

/-- Each resident key with its entry. -/
abbrev Table (K V : Type) := K → Option (Entry V)

/-- The generations in the table are distinct and at most `n`. -/
structure Numbered (T : Table K V) (n : ℕ) : Prop where
  le : ∀ key e, T key = some e → e.md.generation ≤ n
  injective : ∀ key key' e e', T key = some e → T key' = some e' →
    e.md.generation = e'.md.generation → key = key'

theorem numbered_empty (n : ℕ) : Numbered (fun _ : K => (none : Option (Entry V))) n :=
  ⟨fun _ _ hkey => (some_ne_none _ hkey.symm).elim,
    fun _ _ _ _ hkey => (some_ne_none _ hkey.symm).elim⟩

variable {T T' : Table K V} {n : ℕ}

theorem Numbered.of_old (h : Numbered T n)
    (hold : ∀ key e, T' key = some e → ∃ e', T key = some e' ∧ e'.md = e.md) : Numbered T' n := by
  constructor
  · intro key e hkey
    obtain ⟨e', hkey', hmd⟩ := hold key e hkey
    exact hmd ▸ h.le key e' hkey'
  · intro k k' e e' hk hk' heq
    obtain ⟨d, hd, hmd⟩ := hold k e hk
    obtain ⟨d', hd', hmd'⟩ := hold k' e' hk'
    exact h.injective k k' d d' hd hd' (by rw [hmd, hmd', heq])

variable [DecidableEq K] {s s' : ReadCacheInner K V} {cls : ResidentClass} {key : K} {e : Entry V}
  {T'' : Table K V}

theorem Numbered.put (h : Numbered T n) (key : K) (he : e.md.generation = n + 1) :
    Numbered (update T key (some e)) (n + 1) := by
  constructor
  · intro key' e' hkey'
    rw [update_apply] at hkey'
    split at hkey'
    · cases hkey'
      exact he.le
    · exact Nat.le_succ_of_le (h.le key' e' hkey')
  · intro k k' d d' hk hk' heq
    rw [update_apply] at hk hk'
    -- an old number is at most `n`, so it differs from the new one
    split at hk
    · next hkey =>
      split at hk'
      · next hkey' => rw [hkey, hkey']
      · cases hk
        have := h.le k' d' hk'
        omega
    · split at hk'
      · cases hk'
        have := h.le k d hk
        omega
      · exact h.injective k k' d d' hk hk' heq

/-- The block under a key. -/
def ReadCacheInner.resident (s : ReadCacheInner K V) (key : K) : Option V := s.cache.lru.lookup key

structure Represents (T : Table K V) (s : ReadCacheInner K V) : Prop where
  resident : ∀ key, s.resident key = (T key).map Entry.block
  classLru : ∀ cls key, (s.classLru cls).lookup key = (T key).bind (Entry.inClass cls)
  bytes : ∀ cls, s.bytesOf cls = keyedSum ResidentMetadata.bytes (s.classLru cls)

/-- The state is the table `T` after `n` insertions.  The counter of generations wraps around; as
long as it has not, the generations are as they were handed out. -/
structure Tracks (T : Table K V) (n : ℕ) (s : ReadCacheInner K V) : Prop
    extends Represents T s where
  nextGeneration_eq : s.nextGeneration = n % 2 ^ 64
  numbered : n < 2 ^ 64 → Numbered T n

open ReadCacheInner

section Represents

variable (h : Represents T s)
include h

theorem Represents.containsKey (key : K) : s.cache.containsKey key = (T key).isSome :=
  (congrArg isSome (h.resident key)).trans isSome_map

theorem Represents.lookup_class (hkey : T key = some e) (cls : ResidentClass) :
    (s.classLru cls).lookup key = e.inClass cls := by
  rw [h.classLru, hkey]
  rfl

theorem Represents.lookup_self (hkey : T key = some e) :
    (s.classLru e.cls).lookup key = some e.md :=
  (h.lookup_class hkey e.cls).trans (if_pos rfl)

theorem Represents.of_lookup {md : ResidentMetadata}
    (hlookup : (s.classLru cls).lookup key = some md) : ∃ block, T key = some ⟨cls, md, block⟩ := by
  rw [h.classLru] at hlookup
  obtain ⟨⟨cls', md', block⟩, hkey, he⟩ := bind_eq_some_iff.mp hlookup
  obtain ⟨rfl, hmd⟩ := ite_none_right_eq_some.mp he
  cases hmd
  exact ⟨block, hkey⟩

theorem Represents.mem_class (cls : ResidentClass) :
    key ∈ s.classLru cls ↔ ∃ md block, T key = some ⟨cls, md, block⟩ := by
  rw [← AList.lookup_isSome, isSome_iff_exists]
  constructor
  · rintro ⟨md, hmd⟩
    exact ⟨md, h.of_lookup hmd⟩
  · rintro ⟨md, block, hkey⟩
    exact ⟨md, h.lookup_self hkey⟩

theorem Represents.containsKey_iff :
    s.cache.containsKey key ↔ key ∈ s.reclaimable ∨ key ∈ s.retained := by
  rw [h.containsKey, isSome_iff_exists, show key ∈ s.reclaimable ↔ _ from h.mem_class .reclaimable,
    show key ∈ s.retained ↔ _ from h.mem_class .retained]
  constructor
  · rintro ⟨⟨cls, md, block⟩, hkey⟩
    cases cls with
    | reclaimable => exact Or.inl ⟨md, block, hkey⟩
    | retained => exact Or.inr ⟨md, block, hkey⟩
  · rintro (⟨md, block, hkey⟩ | ⟨md, block, hkey⟩)
    · exact ⟨_, hkey⟩
    · exact ⟨_, hkey⟩

theorem Represents.disjoint : ¬ (key ∈ s.reclaimable ∧ key ∈ s.retained) := by
  rintro ⟨hrec, hret⟩
  obtain ⟨md, block, hkey⟩ := (h.mem_class .reclaimable).mp hrec
  obtain ⟨md', block', hkey'⟩ := (h.mem_class .retained).mp hret
  rw [hkey] at hkey'
  cases hkey'

theorem Represents.lookup_absent (hkey : (T key).bind (Entry.inClass cls) = none) (key' : K) :
    (s.classLru cls).lookup key' =
      if key' = key then none else (s.classLru cls).lookup key' := by
  split
  · next heq => rw [heq, h.classLru, hkey]
  · rfl

theorem Represents.bytes_le (hkey : T key = some e) : e.md.bytes ≤ s.bytesOf e.cls := by
  rw [h.bytes]
  exact le_keyedSum _ (h.lookup_self hkey)

theorem Represents.congr (hresident : ∀ key, s'.resident key = s.resident key)
    (hclass : ∀ cls key, (s'.classLru cls).lookup key = (s.classLru cls).lookup key)
    (hbytes : ∀ cls, s'.bytesOf cls = s.bytesOf cls) : Represents T s' where
  resident key := (hresident key).trans (h.resident key)
  classLru cls key := (hclass cls key).trans (h.classLru cls key)
  bytes cls := by rw [hbytes, h.bytes, keyedSum_congr _ (hclass cls)]

/-- **Writing one entry** of the table. -/
theorem Represents.set {e : Option (Entry V)} (hresident : ∀ key', s'.resident key' =
      if key' = key then e.map Entry.block else s.resident key')
    (hclass : ∀ cls key', (s'.classLru cls).lookup key' =
      if key' = key then e.bind (Entry.inClass cls) else (s.classLru cls).lookup key')
    (hbytes : ∀ cls, s'.bytesOf cls +
        ((T key).bind (Entry.inClass cls)).elim 0 ResidentMetadata.bytes =
      s.bytesOf cls + (e.bind (Entry.inClass cls)).elim 0 ResidentMetadata.bytes) :
    Represents (update T key e) s' where
  resident key' := by
    rw [hresident, update_apply]
    split
    · rfl
    · exact h.resident key'
  classLru cls key' := by
    rw [hclass, update_apply]
    split
    · rfl
    · exact h.classLru cls key'
  bytes cls := by
    have hsum := keyedSum_of_ne (k := key) (m := s.classLru cls) ResidentMetadata.bytes
      fun key' hne => (hclass cls key').trans (if_neg hne)
    rw [h.classLru, hclass, if_pos rfl, ← h.bytes] at hsum
    have := hbytes cls
    omega

end Represents

/-! ### Operations on one key -/

section OneKey

variable (h : Tracks T n s)
include h

theorem Tracks.touch (cls : ResidentClass) (key : K) :
    Tracks T n (s.setClassLru cls ((s.classLru cls).touch key)) := by
  refine ⟨h.congr ?_ ?_ fun _ => bytesOf_setClassLru,
    nextGeneration_setClassLru.trans h.nextGeneration_eq, h.numbered⟩
  · intro key'
    rw [resident, cache_setClassLru]
    rfl
  · intro cls' key'
    rw [classLru_setClassLru]
    split
    · next heq => rw [LruCache.lookup_touch, heq]
    · rfl

theorem Tracks.setCache {cache : TinyLfuCache K V}
    (hcache : ∀ key, cache.lru.lookup key = s.cache.lru.lookup key) :
    Tracks T n { s with cache := cache } :=
  ⟨h.congr hcache (by rintro (_ | _) _ <;> rfl) (by rintro (_ | _) <;> rfl), h.nextGeneration_eq,
    h.numbered⟩

theorem Tracks.setPressured (pressured : Bool) : Tracks T n { s with pressured := pressured } :=
  ⟨h.congr (fun _ => rfl) (by rintro (_ | _) _ <;> rfl) (by rintro (_ | _) <;> rfl),
    h.nextGeneration_eq, h.numbered⟩

/-- A resident key is in its class, so that its recency can be refreshed. -/
theorem Tracks.refreshRecency (key : K) : ∃ s', s.refreshRecency key = some s' ∧ Tracks T n s' := by
  unfold ReadCacheInner.refreshRecency
  split
  · exact ⟨_, rfl, h.touch .reclaimable key⟩
  split
  · exact ⟨_, rfl, h.touch .retained key⟩
  · next hrec hret =>
    have hcontains : ¬ s.cache.containsKey key := by
      rw [h.containsKey_iff, ← AList.lookup_isSome, ← AList.lookup_isSome]
      exact not_or.mpr ⟨hrec, hret⟩
    rw [if_neg hcontains]
    exact ⟨s, rfl, h⟩

theorem Tracks.getBlock (key : K) :
    ∃ block s', s.getBlock key = some (block, s') ∧ Tracks T n s' := by
  unfold ReadCacheInner.getBlock TinyLfuCache.get
  cases hget : s.cache.lru.lookup key with
  | none => exact ⟨none, s, rfl, h⟩
  | some block =>
    have hcache : Tracks T n { s with cache :=
        ⟨s.cache.lru.touch key, s.cache.freq.map (·.incr key)⟩ } :=
      h.setCache (LruCache.lookup_touch _ _)
    obtain ⟨s', hs', htracks⟩ := hcache.refreshRecency key
    exact ⟨some block, s', congrArg (Option.map _) hs', htracks⟩

end OneKey

theorem TinyLfuCache.insert_cases (c : TinyLfuCache K V) (key : K) (value : V) :
    (c.containsKey key ∧
      ∃ freq, c.insert key value = (.alreadyExists, { c with freq := freq })) ∨
    (∃ freq, c.insert key value = (.rejected, { c with freq := freq })) ∨
    (c.containsKey key = false ∧
      ∃ freq, c.insert key value = (.insertedNew, ⟨c.lru.insert key value, freq⟩)) := by
  unfold TinyLfuCache.insert
  dsimp only
  split
  · next hcontains => exact Or.inl ⟨hcontains, _, rfl⟩
  · next hcontains =>
    split
    · exact Or.inr (Or.inl ⟨_, rfl⟩)
    · exact Or.inr (Or.inr ⟨Bool.eq_false_iff.mpr hcontains, _, rfl⟩)

/-- What is there stays, what is new is of the batch, and the keys that are reported are there. -/
structure Fills {E : Type} (block : E → V) (blocks : List (K × V)) (keys : List K)
    (T T' : K → Option E) : Prop where
  stays : ∀ key e, T key = some e → T' key = some e
  new : ∀ key e, T' key = some e → T key = some e ∨ (key, block e) ∈ blocks
  reported : ∀ key ∈ keys, (T' key).isSome ∧ key ∈ blocks.map Prod.fst

omit [DecidableEq K] in
theorem Fills.append {blocks blocks' : List (K × V)} {keys keys' : List K}
    (h : Fills Entry.block blocks keys T T') (h' : Fills Entry.block blocks' keys' T' T'') :
    Fills Entry.block (blocks ++ blocks') (keys ++ keys') T T'' where
  stays key e hkey := h'.stays key e (h.stays key e hkey)
  new key e hkey := by
    rcases h'.new key e hkey with hkey' | hmem
    · exact (h.new key e hkey').imp_right (mem_append_left _)
    · exact Or.inr (mem_append_right _ hmem)
  reported key hkey := by
    rw [map_append, mem_append]
    rcases mem_append.mp hkey with hkey | hkey
    · obtain ⟨e, he⟩ := isSome_iff_exists.mp (h.reported key hkey).1
      exact ⟨isSome_iff_exists.mpr ⟨e, h'.stays key e he⟩, Or.inl (h.reported key hkey).2⟩
    · exact ⟨(h'.reported key hkey).1, Or.inr (h'.reported key hkey).2⟩

omit [DecidableEq K] in
theorem Fills.refl (T : Table K V) : Fills Entry.block [] [] T T :=
  ⟨fun _ _ hkey => hkey, fun _ _ hkey => Or.inl hkey, fun _ hkey => absurd hkey not_mem_nil⟩

theorem fills_put {block : V} (hkey : T key = none) (he : e.block = block) :
    Fills Entry.block [(key, block)] [key] T (update T key (some e)) := by
  refine ⟨?_, ?_, ?_⟩
  · intro key' e' hkey'
    rw [update_of_ne _, hkey']
    rintro rfl
    rw [hkey] at hkey'
    cases hkey'
  · intro key' e' hkey'
    rw [update_apply] at hkey'
    split at hkey'
    · next heq =>
      cases hkey'
      exact Or.inr (mem_singleton.mpr (by rw [heq, he]))
    · exact Or.inl hkey'
  · intro key' hkey'
    obtain rfl := mem_singleton.mp hkey'
    exact ⟨by rw [update_self]; rfl, mem_singleton_self _⟩

section

variable (h : Tracks T n s)
include h

theorem Tracks.insertBlock (fp : V → ℕ) (key : K) (block : V) (cls : ResidentClass) :
    ∃ outcome s' T' n', s.insertBlock fp key block cls = some (outcome, s') ∧ Tracks T' n' s' ∧
      Fills Entry.block [(key, block)] (if outcome = .rejected then [] else [key]) T T' ∧
      n' ≤ n + 1 := by
  unfold ReadCacheInner.insertBlock
  obtain ⟨hcontains, freq, hinsert⟩ | ⟨freq, hinsert⟩ | ⟨hcontains, freq, hinsert⟩ :=
    TinyLfuCache.insert_cases s.cache key block
  · have hcache : Tracks T n { s with cache := { s.cache with freq := freq } } :=
      h.setCache fun _ => rfl
    obtain ⟨s', hs', htracks⟩ := hcache.refreshRecency key
    rw [hinsert]
    refine ⟨.alreadyExists, s', T, n, congrArg (Option.map _) hs', htracks,
      ⟨fun _ _ hkey => hkey, fun _ _ hkey => Or.inl hkey, fun key' hkey' => ?_⟩, Nat.le_succ n⟩
    obtain rfl := mem_singleton.mp hkey'
    exact ⟨h.containsKey key' ▸ hcontains, mem_singleton_self _⟩
  · rw [hinsert]
    exact ⟨.rejected, _, T, n, rfl, h.setCache fun _ => rfl,
      ⟨fun _ _ hkey => hkey, fun _ _ hkey => Or.inl hkey, fun _ hkey => absurd hkey not_mem_nil⟩,
      Nat.le_succ n⟩
  · have hkey : T key = none := by
      rw [h.containsKey] at hcontains
      exact isNone_iff_eq_none.mp (isSome_eq_false_iff.mp hcontains)
    have hgeneration : (s.nextGeneration + 1) % 2 ^ 64 = (n + 1) % 2 ^ 64 := by
      rw [h.nextGeneration_eq, Nat.mod_add_mod]
    rw [hinsert]
    rw [hgeneration]
    refine ⟨_, _, update T key (some ⟨cls, ⟨(n + 1) % 2 ^ 64, fp block⟩, block⟩), n + 1, rfl,
      ⟨h.set ?_ ?_ ?_, ?_, ?_⟩, fills_put hkey rfl, Nat.le_refl _⟩
    · intro key'
      unfold addBytes resident
      rw [cache_setBytes, cache_setClassLru]
      exact lookup_insert_apply key'
    · intro cls' key'
      unfold addBytes
      rw [classLru_setBytes, classLru_setClassLru]
      split
      · next heq =>
        subst heq
        rw [lookup_insert_apply]
        cases cls' <;> rfl
      · next hne =>
        rw [bind_some, Entry.inClass, if_neg (Ne.symm hne)]
        have hother : (s.classLru cls').lookup key' = _ :=
          h.lookup_absent (by rw [hkey]; rfl) key'
        cases cls' <;> exact hother
    · intro cls'
      unfold addBytes
      rw [bytesOf_setBytes, hkey]
      cases cls <;> cases cls' <;> rfl
    · unfold addBytes
      rw [nextGeneration_setBytes, nextGeneration_setClassLru]
    · exact fun hlt => (h.numbered (by omega)).put key (Nat.mod_eq_of_lt hlt)

theorem Tracks.batchInsert (fp : V → ℕ) (cls : ResidentClass) (blocks : List (K × V)) :
    ∃ keys s' T' n', s.batchInsert fp cls blocks = some (keys, s') ∧ Tracks T' n' s' ∧
      Fills Entry.block blocks keys T T' ∧ n' ≤ n + blocks.length := by
  induction blocks generalizing s T n with
  | nil => exact ⟨[], s, T, n, rfl, h, Fills.refl T, le_refl _⟩
  | cons b blocks ih =>
    obtain ⟨key, block⟩ := b
    obtain ⟨outcome, s₁, T₁, n₁, hs₁, htracks₁, hfills₁, hle₁⟩ := h.insertBlock fp key block cls
    obtain ⟨keys, s₂, T₂, n₂, hs₂, htracks₂, hfills₂, hle₂⟩ := ih htracks₁
    refine ⟨_, s₂, T₂, n₂, ?_, htracks₂, hfills₁.append hfills₂, ?_⟩
    · rw [batchInsert, hs₁, bind_eq_bind, bind_some]
      dsimp only
      rw [hs₂]
      cases outcome <;> rfl
    · rw [length_cons]
      omega

theorem Tracks.of_batchInsert {fp : V → ℕ} {blocks : List (K × V)} {keys : List K}
    (hs' : s.batchInsert fp cls blocks = some (keys, s')) :
    (∃ T' n', Tracks T' n' s') ∧ Fills id blocks keys s.resident s'.resident := by
  obtain ⟨keys', s₁, T', n', hs₁, htracks, hfills, -⟩ := h.batchInsert fp cls blocks
  cases hs'.symm.trans hs₁
  refine ⟨⟨T', n', htracks⟩, ?_, ?_, ?_⟩
  · intro key block hkey
    rw [h.resident] at hkey
    obtain ⟨e, he, rfl⟩ := map_eq_some_iff.mp hkey
    rw [htracks.resident, hfills.stays key e he]
    rfl
  · intro key block hkey
    rw [htracks.resident] at hkey
    obtain ⟨e, he, rfl⟩ := map_eq_some_iff.mp hkey
    refine (hfills.new key e he).imp_left fun hold => ?_
    rw [h.resident, hold]
    rfl
  · intro key hkey
    rw [htracks.resident, isSome_map]
    exact hfills.reported key hkey

/-! ### Lookups -/

theorem Tracks.getPrefixBlocks (keys : List K) :
    ∃ blocks s', s.getPrefixBlocks keys = some (blocks, s') ∧ Tracks T n s' := by
  induction keys generalizing s with
  | nil => exact ⟨[], s, rfl, h⟩
  | cons key keys ih =>
    obtain ⟨found, s₁, hs₁, htracks₁⟩ := h.getBlock key
    cases found with
    | none =>
      refine ⟨[], s₁, ?_, htracks₁⟩
      rw [getPrefixBlocks, hs₁, bind_eq_bind, bind_some]
    | some block =>
      obtain ⟨blocks, s₂, hs₂, htracks₂⟩ := ih htracks₁
      refine ⟨block :: blocks, s₂, ?_, htracks₂⟩
      rw [getPrefixBlocks, hs₁, bind_eq_bind, bind_some]
      dsimp only
      rw [hs₂]
      rfl

theorem Tracks.getBlocksAligned (keys : List K) :
    ∃ blocks s', s.getBlocksAligned keys = some (blocks, s') ∧ Tracks T n s' := by
  induction keys generalizing s with
  | nil => exact ⟨[], s, rfl, h⟩
  | cons key keys ih =>
    obtain ⟨found, s₁, hs₁, htracks₁⟩ := h.getBlock key
    obtain ⟨blocks, s₂, hs₂, htracks₂⟩ := ih htracks₁
    refine ⟨found :: blocks, s₂, ?_, htracks₂⟩
    rw [getBlocksAligned, hs₁, bind_eq_bind, bind_some]
    dsimp only
    rw [hs₂]
    rfl

end

/-! ### Hints -/

/-- Entries only move to the reclaimable class. -/
def Demotes (T T' : Table K V) : Prop :=
  ∀ key, T' key = T key ∨ T' key = (T key).map fun e => { e with cls := .reclaimable }

omit [DecidableEq K] in
theorem Demotes.refl (T : Table K V) : Demotes T T := fun _ => Or.inl rfl

omit [DecidableEq K] in
theorem Demotes.trans (h : Demotes T T') (h' : Demotes T' T'') : Demotes T T'' := by
  intro key
  rcases h' key with heq' | heq'
  · rw [heq']
    exact h key
  · rw [heq']
    rcases h key with heq | heq
    · exact Or.inr (by rw [heq])
    · refine Or.inr ?_
      rw [heq, Option.map_map]
      rfl

theorem Demotes.resident (h : Demotes T T') (hs : Represents T s) (hs' : Represents T' s') :
    s'.resident = s.resident := by
  funext key
  rw [hs'.resident, hs.resident]
  rcases h key with heq | heq
  · rw [heq]
  · rw [heq, Option.map_map]
    rfl

theorem Tracks.markReclaimableWithGeneration (h : Tracks T n s) (key : K) (expected : Option ℕ) :
    ∃ moved s' T', s.markReclaimableWithGeneration key expected = some (moved, s') ∧
      Tracks T' n s' ∧ Demotes T T' := by
  unfold ReadCacheInner.markReclaimableWithGeneration
  by_cases hcontains : s.cache.containsKey key
  · rw [if_neg (by simp [hcontains])]
    split
    · exact ⟨none, s, T, rfl, h, Demotes.refl T⟩
    rw [h.containsKey] at hcontains
    obtain ⟨⟨cls, md, block⟩, hkey⟩ := isSome_iff_exists.mp hcontains
    cases cls with
    | reclaimable =>
      have hret : s.retained.lookup key = none := h.lookup_class hkey .retained
      have hrec : s.reclaimable.lookup key = some md := h.lookup_self hkey
      rw [hret, hrec]
      exact ⟨none, s, T, rfl, h, Demotes.refl T⟩
    | retained =>
      have hret : s.retained.lookup key = some md := h.lookup_self hkey
      have hle : md.bytes ≤ s.classBytes.retained := h.bytes_le hkey
      have hsub : s.subBytes .retained md.bytes = some (s.setBytes .retained
          (s.classBytes.retained - md.bytes)) := if_pos hle
      rw [hret]
      simp only [hsub, map_some]
      refine ⟨_, _, update T key (some ⟨.reclaimable, md, block⟩), rfl,
        ⟨h.set ?_ ?_ ?_, h.nextGeneration_eq, fun hlt => (h.numbered hlt).of_old ?_⟩, ?_⟩
      · intro key'
        split
        · next heq => rw [heq]; exact (h.resident key).trans (by rw [hkey]; rfl)
        · rfl
      · rintro (_ | _) key'
        · exact lookup_insert_apply key'
        · exact lookup_erase_apply key'
      · rintro (_ | _)
        · rw [hkey]
          rfl
        · rw [hkey]
          exact Nat.sub_add_cancel hle
      · intro key' e hkey'
        rw [update_apply] at hkey'
        split at hkey'
        · next heq =>
          cases hkey'
          exact ⟨_, (congrArg T heq).trans hkey, rfl⟩
        · exact ⟨e, hkey', rfl⟩
      · intro key'
        rw [update_apply]
        split
        · next heq => rw [heq, hkey]; exact Or.inr rfl
        · exact Or.inl rfl
  · rw [if_pos (by simp [hcontains])]
    exact ⟨none, s, T, rfl, h, Demotes.refl T⟩

theorem Tracks.markReclaimable (h : Tracks T n s) (hints : List (K × Option ℕ)) :
    ∃ count s' T', s.markReclaimable hints = some (count, s') ∧ Tracks T' n s' ∧ Demotes T T' := by
  induction hints generalizing s T with
  | nil => exact ⟨0, s, T, rfl, h, Demotes.refl T⟩
  | cons hint hints ih =>
    obtain ⟨key, expected⟩ := hint
    obtain ⟨moved, s₁, T₁, hs₁, htracks₁, hdemotes₁⟩ :=
      h.markReclaimableWithGeneration key expected
    obtain ⟨count, s₂, T₂, hs₂, htracks₂, hdemotes₂⟩ := ih htracks₁
    refine ⟨if moved.isSome then count + 1 else count, s₂, T₂, ?_, htracks₂,
      hdemotes₁.trans hdemotes₂⟩
    rw [markReclaimable, hs₁, bind_eq_bind, bind_some]
    dsimp only
    rw [hs₂]
    rfl

/-! ### Full cleanup -/

theorem mem_keys_iff {V' : Type} {m : LruCache K V'} {key : K} :
    key ∈ m.keys ↔ (m.lookup key).isSome :=
  AList.mem_keys.symm.trans AList.lookup_isSome.symm

section

variable (h : Represents T s)
include h

theorem Represents.keys_disjoint : (s.reclaimable.keys ++ s.retained.keys).Nodup := by
  refine nodup_append.mpr ⟨s.reclaimable.keys_nodup, s.retained.keys_nodup, ?_⟩
  rintro key hrec _ hret rfl
  exact h.disjoint ⟨hrec, hret⟩

theorem Represents.keys_perm :
    s.cache.lru.keys.Perm (s.reclaimable.keys ++ s.retained.keys) := by
  refine (perm_ext_iff_of_nodup s.cache.lru.keys_nodup h.keys_disjoint).mpr fun key => ?_
  rw [mem_append, mem_keys_iff]
  exact h.containsKey_iff

theorem Represents.length_eq : s.cache.lru.entries.length =
    s.reclaimable.entries.length + s.retained.entries.length := by
  have hlength : ∀ {V' : Type} (m : LruCache K V'), m.keys.length = m.entries.length :=
    fun _ => length_map _
  rw [← hlength, h.keys_perm.length_eq, length_append, hlength, hlength]

theorem Represents.metadata_eq (key : K) : s.metadata key = (T key).map Entry.md := by
  unfold metadata
  rw [show s.reclaimable.lookup key = _ from h.classLru .reclaimable key,
    show s.retained.lookup key = _ from h.classLru .retained key]
  cases T key with
  | none => rfl
  | some e =>
    obtain ⟨cls, md, block⟩ := e
    cases cls <;> rfl

end

theorem Tracks.removeAll (h : Tracks T n s) :
    ∃ removed s', s.removeAll = some (removed, s') ∧ Tracks (fun _ => none) n s' := by
  have hmetadata : ∀ e ∈ s.cache.removeAll.1, (s.metadata e.1).isSome := by
    intro e he
    obtain ⟨entry, hentry, rfl⟩ := mem_map.mp he
    rw [h.metadata_eq, isSome_map, ← h.containsKey]
    exact isSome_iff_exists.mpr ⟨entry.2, AList.mem_lookup_iff.mpr (mem_reverse.mp hentry)⟩
  have hlength : s.cache.removeAll.1.length =
      s.reclaimable.entries.length + s.retained.entries.length := by
    rw [← h.length_eq]
    exact (length_map _).trans length_reverse
  have hleft : ∀ key ∈ s.reclaimable.keys ++ s.retained.keys,
      s.cache.containsKey key := by
    intro key hkey
    exact mem_keys_iff.mp (h.keys_perm.mem_iff.mpr hkey)
  refine ⟨_, _, if_pos ⟨hmetadata, hlength, hleft⟩, ⟨fun _ => rfl, ?_, ?_⟩, h.nextGeneration_eq,
    fun _ => numbered_empty n⟩
  · rintro (_ | _) key <;> rfl
  · rintro (_ | _) <;> rfl

end PegaFlow.Resident
