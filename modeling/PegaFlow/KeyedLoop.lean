/-
PegaFlow/KeyedLoop.lean

Loops over entries that each change one key of a map.

`for e in entries: d[key(e)] = op(e, d[key(e)])`, where `op` may raise.  If no two entries
have the same key, each entry finds the value the loop started with, so the loop is a
pointwise update: `updateAll_mem` and `updateAll_notMem` say what it leaves at a key, and
`updateAll_keeps` turns what `op` keeps of a value into what the loop keeps of the map.
-/
import Mathlib.Data.List.Nodup

namespace PegaFlow

open Function

variable {K V E ε : Type*} [DecidableEq K] {key : E → K} {op : E → V → Except ε V} {es : List E}
  {d d' : K → V}

/-- Apply `op` to the value under the key of each entry in turn. -/
def updateAll (key : E → K) (op : E → V → Except ε V) : List E → (K → V) → Except ε (K → V)
  | [], d => .ok d
  | e :: es, d =>
      match op e (d (key e)) with
      | .error err => .error err
      | .ok v => updateAll key op es (update d (key e) v)

theorem updateAll_cons {e : E} (h : updateAll key op (e :: es) d = .ok d') :
    ∃ v, op e (d (key e)) = .ok v ∧ updateAll key op es (update d (key e) v) = .ok d' := by
  rw [updateAll] at h
  rcases hv : op e (d (key e)) with err | v
  · rw [hv] at h
    cases h
  · rw [hv] at h
    exact ⟨v, rfl, h⟩

variable (h : updateAll key op es d = .ok d')
include h

theorem updateAll_notMem {k : K} (hk : k ∉ es.map key) : d' k = d k := by
  induction es generalizing d with
  | nil => cases h; rfl
  | cons e es ih =>
    obtain ⟨v, -, hrest⟩ := updateAll_cons h
    rw [List.map_cons, List.mem_cons, not_or] at hk
    rw [ih hrest hk.2, update_of_ne hk.1]

/-- With distinct keys, an entry finds the value from before the loop, and what it leaves
stays. -/
theorem updateAll_mem {e : E} (hkeys : (es.map key).Nodup) (he : e ∈ es) :
    op e (d (key e)) = .ok (d' (key e)) := by
  induction es generalizing d with
  | nil => cases he
  | cons f es ih =>
    obtain ⟨v, hv, hrest⟩ := updateAll_cons h
    rw [List.map_cons, List.nodup_cons] at hkeys
    rcases List.mem_cons.mp he with rfl | he
    · rw [updateAll_notMem hrest hkeys.1, update_self]
      exact hv
    · have hne : key e ≠ key f := fun heq => hkeys.1 (heq ▸ List.mem_map_of_mem he)
      rw [← ih hrest hkeys.2 he, update_of_ne hne]

/-- **Loop rule.**  If every entry keeps `I` of the value it finds, the loop keeps `I` of the
map. -/
theorem updateAll_keeps {I : K → V → Prop} (hkeys : (es.map key).Nodup)
    (hop : ∀ e ∈ es, ∀ v, I (key e) (d (key e)) → op e (d (key e)) = .ok v → I (key e) v)
    (hI : ∀ k, I k (d k)) (k : K) : I k (d' k) := by
  by_cases hk : k ∈ es.map key
  · obtain ⟨e, he, rfl⟩ := List.mem_map.mp hk
    exact hop e he _ (hI _) (updateAll_mem h hkeys he)
  · rw [updateAll_notMem h hk]
    exact hI k

end PegaFlow
