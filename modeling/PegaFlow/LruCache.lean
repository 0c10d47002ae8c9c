/-
PegaFlow/LruCache.lean

A least-recently-used map: a finite map that keeps its entries in the order of use.

The entries stand with the most recently used one first, so that `AList.insert` is the insertion
of an LRU map as it is: the entry comes first, and an older one under its key is dropped.  A hit
(`touch`) writes the entry again, and the victim (`lru`) is the last entry.  Using an entry changes
the order and nothing else (`lookup_touch`).  As a queue with the victim at its
head (`order`), erasing the victim drops the head and using it moves the head to the end
(`order_cons`).
-/
import PegaFlow.KeyedSums

namespace PegaFlow

open List

variable {K V : Type*} [DecidableEq K] {k k' : K} {v : V}

/-- A map with its entries in the order of use, the last used one first. -/
abbrev LruCache (K V : Type*) := AList fun _ : K => V

namespace LruCache

variable {m : LruCache K V}

/-- Use the entry of `k`, if there is one. -/
def touch (m : LruCache K V) (k : K) : LruCache K V :=
  match m.lookup k with
  | some v => m.insert k v
  | none => m

/-- The entry that was not used for longest. -/
def lru (m : LruCache K V) : Option (K × V) := m.entries.getLast?.map fun e => (e.1, e.2)

/-- The entries, the victim first. -/
def toList (m : LruCache K V) : List (K × V) := m.entries.reverse.map fun e => (e.1, e.2)

@[simp] theorem lookup_touch (m : LruCache K V) (k k' : K) :
    (m.touch k).lookup k' = m.lookup k' := by
  unfold touch
  split
  · next v h =>
    rw [lookup_insert_apply]
    split
    · next heq => rw [heq, h]
    · rfl
  · rfl

theorem lookup_of_lru (h : m.lru = some (k, v)) : m.lookup k = some v := by
  obtain ⟨e, he, heq⟩ := Option.map_eq_some_iff.mp h
  cases heq
  exact AList.mem_lookup_iff.mpr (mem_of_getLast? he)

omit [DecidableEq K] in
theorem lru_eq_none : m.lru = none ↔ m.entries = [] := by
  rw [lru, Option.map_eq_none_iff, getLast?_eq_none_iff]

/-- The keys from the victim to the last used one. -/
def order (m : LruCache K V) : List K := m.keys.reverse

omit [DecidableEq K] in
theorem length_order (m : LruCache K V) : m.order.length = m.entries.length := by
  rw [order, length_reverse, AList.keys, keys, length_map]

/-- The head of the queue is the victim.  Erasing it leaves the rest, using it moves it to the
end. -/
theorem order_cons {ks : List K} (h : m.order = k :: ks) :
    ∃ v, m.lru = some (k, v) ∧ order (m.erase k) = ks ∧ (m.touch k).order = ks ++ [k] := by
  have hkeys : m.keys = ks.reverse ++ [k] := by
    rw [← reverse_reverse m.keys, show m.keys.reverse = k :: ks from h, reverse_cons]
  have hnodup := hkeys ▸ m.keys_nodup
  have hnew : k ∉ ks.reverse := fun hmem =>
    (nodup_append.mp hnodup).2.2 k hmem k (mem_singleton.mpr rfl) rfl
  have herase : m.keys.erase k = ks.reverse := by
    rw [hkeys, erase_append_right _ hnew, erase_cons_head, append_nil]
  obtain ⟨v, hlru⟩ : ∃ v, m.lru = some (k, v) := by
    have hlast : m.entries.getLast?.map Sigma.fst = some k := by
      rw [← getLast?_map]
      show m.keys.getLast? = some k
      rw [hkeys, getLast?_append]
      rfl
    obtain ⟨⟨k', v⟩, he, rfl⟩ := Option.map_eq_some_iff.mp hlast
    exact ⟨v, by rw [lru, he]; rfl⟩
  refine ⟨v, hlru, ?_, ?_⟩
  · show (m.erase k).keys.reverse = ks
    rw [AList.keys_erase, herase, reverse_reverse]
  · rw [touch, lookup_of_lru hlru]
    show (m.insert k v).keys.reverse = _
    rw [AList.keys_insert, herase, reverse_cons, reverse_reverse]

end LruCache

end PegaFlow
