/-
PegaFlow/KeyedSums.lean

Sums over the values of a finite map.

`keyedSum f m` is what a counter kept next to the map `m` should read.  An entry that leaves takes
its value off (`keyedSum_of_lookup`), an entry that is written replaces the one that was there
(`keyedSum_insert`).  The order of the entries does not matter (`keyedSum_congr`), so one entry that
changes, in whatever way, changes the sum by its values before and after (`keyedSum_of_ne`).
-/
import Mathlib.Algebra.GroupWithZero.Nat
import Mathlib.Algebra.BigOperators.Group.List.Basic
import Mathlib.Data.List.AList

namespace PegaFlow

open List

variable {K V M : Type*} [DecidableEq K] [AddCommMonoid M] {m : AList fun _ : K => V} {k : K}
  {v : V}

variable (f : V → M)

/-- The sum of `f` over the values of `m`. -/
def keyedSum (m : AList fun _ : K => V) : M := (m.entries.map fun e => f e.2).sum

omit [DecidableEq K] in
@[simp] theorem keyedSum_empty : keyedSum f (∅ : AList fun _ : K => V) = 0 := rfl

theorem sum_kerase {l : List (Σ _ : K, V)} (h : l.dlookup k = some v) :
    (l.map fun e => f e.2).sum = f v + ((l.kerase k).map fun e => f e.2).sum := by
  induction l with
  | nil => cases h
  | cons e l ih =>
    obtain ⟨k', v'⟩ := e
    by_cases hk : k = k'
    · subst hk
      rw [dlookup_cons_eq] at h
      cases h
      simp only [kerase_cons_eq, map_cons, sum_cons]
    · rw [dlookup_cons_ne l ⟨k', v'⟩ hk] at h
      rw [kerase_cons_ne hk, map_cons, map_cons, sum_cons, sum_cons, ih h,
        add_left_comm]

theorem keyedSum_of_lookup (h : m.lookup k = some v) :
    keyedSum f m = f v + keyedSum f (m.erase k) :=
  sum_kerase f h

theorem keyedSum_erase_of_lookup_none (h : m.lookup k = none) :
    keyedSum f (m.erase k) = keyedSum f m := by
  show ((m.entries.kerase k).map fun e => f e.2).sum = _
  rw [kerase_of_notMem_keys (AList.lookup_eq_none.mp h)]
  rfl

theorem keyedSum_insert : keyedSum f (m.insert k v) = f v + keyedSum f (m.erase k) := by
  show ((m.insert k v).entries.map fun e => f e.2).sum = _
  rfl

theorem lookup_insert_apply (k' : K) :
    (m.insert k v).lookup k' = if k' = k then some v else m.lookup k' := by
  split
  · next heq => rw [heq, AList.lookup_insert]
  · next hne => exact AList.lookup_insert_ne hne

theorem lookup_erase_apply (k' : K) :
    (m.erase k).lookup k' = if k' = k then none else m.lookup k' := by
  split
  · next heq => rw [heq, AList.lookup_erase]
  · next hne => exact AList.lookup_erase_ne hne

theorem of_lookup_insert {k' : K} {v' : V} (h : (m.insert k v).lookup k' = some v') :
    k' = k ∧ v' = v ∨ k' ≠ k ∧ m.lookup k' = some v' := by
  rw [lookup_insert_apply] at h
  split at h
  · next heq => exact .inl ⟨heq, (Option.some.inj h).symm⟩
  · next hne => exact .inr ⟨hne, h⟩

theorem of_lookup_erase {k' : K} {v' : V} (h : (m.erase k).lookup k' = some v') :
    k' ≠ k ∧ m.lookup k' = some v' := by
  rw [lookup_erase_apply] at h
  split at h
  · cases h
  · next hne => exact ⟨hne, h⟩

variable {m' : AList fun _ : K => V}

theorem keyedSum_congr (f : V → M) (h : ∀ k, m'.lookup k = m.lookup k) :
    keyedSum f m' = keyedSum f m := by
  refine ((lookup_ext m'.nodupKeys m.nodupKeys fun k v => ?_).map _).sum_eq
  rw [show m'.entries.dlookup k = m.entries.dlookup k from h k]

theorem keyedSum_of_ne (f : V → M) (h : ∀ k' ≠ k, m'.lookup k' = m.lookup k') :
    keyedSum f m' + (m.lookup k).elim 0 f = keyedSum f m + (m'.lookup k).elim 0 f := by
  have hsplit : ∀ l : AList fun _ : K => V,
      keyedSum f l = (l.lookup k).elim 0 f + keyedSum f (l.erase k) := by
    intro l
    cases hl : l.lookup k with
    | none => rw [keyedSum_erase_of_lookup_none f hl, Option.elim_none, zero_add]
    | some v => exact keyedSum_of_lookup f hl
  have hrest : keyedSum f (m'.erase k) = keyedSum f (m.erase k) := by
    refine keyedSum_congr f fun k' => ?_
    rw [lookup_erase_apply, lookup_erase_apply]
    split
    · rfl
    · next hne => exact h k' hne
  rw [hsplit m', hsplit m, hrest, add_right_comm, add_comm (Option.elim _ _ _), add_right_comm]

theorem le_keyedSum (f : V → ℕ) (h : m.lookup k = some v) : f v ≤ keyedSum f m := by
  rw [keyedSum_of_lookup f h]
  exact Nat.le_add_right _ _

end PegaFlow
