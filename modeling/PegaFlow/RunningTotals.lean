/-
PegaFlow/RunningTotals.lean

Running totals per key.

A loop goes through entries `(key, weight)`, gives each entry the total its key has so far and
then adds the weight.  With weight 1 this numbers the entries of every key; with sizes as
weights it lays the entries of every key out back to back.  An entry's range
`[total, total + weight)` ends before the range of any later entry of its key begins
(`totalOf_take_add_le`), and inside the final total of the key (`totalOf_take_add_le_totalOf`);
together the ranges of a key leave no gap (`exists_of_lt_totalOf`).
-/
import Mathlib.Algebra.GroupWithZero.Nat
import Mathlib.Algebra.BigOperators.Group.List.Basic

namespace PegaFlow

open List

variable {K : Type*} [DecidableEq K]

/-- The totals the entries are given, `totals` being those of the keys so far. -/
def runningTotals : List (K × ℕ) → (K → ℕ) → List ℕ
  | [], _ => []
  | (k, w) :: es, totals =>
    totals k :: runningTotals es (Function.update totals k (totals k + w))

/-- The total of key `k`. -/
def totalOf (k : K) (es : List (K × ℕ)) : ℕ := ((es.filter (·.1 = k)).map Prod.snd).sum

@[simp] theorem totalOf_nil (k : K) : totalOf k [] = 0 := rfl

theorem totalOf_cons_self (k : K) (w : ℕ) (es : List (K × ℕ)) :
    totalOf k ((k, w) :: es) = w + totalOf k es := by
  simp [totalOf]

variable {k : K}

theorem totalOf_cons_ne {k' : K} (h : k' ≠ k) (w : ℕ) (es : List (K × ℕ)) :
    totalOf k ((k', w) :: es) = totalOf k es := by
  simp [totalOf, h]

theorem totalOf_append (k : K) (es fs : List (K × ℕ)) :
    totalOf k (es ++ fs) = totalOf k es + totalOf k fs := by
  simp [totalOf]

variable {es : List (K × ℕ)} {i w : ℕ}

theorem getElem?_runningTotals (totals : K → ℕ) (h : es[i]? = some (k, w)) :
    (runningTotals es totals)[i]? = some (totals k + totalOf k (es.take i)) := by
  induction es generalizing i totals with
  | nil => cases h
  | cons e es ih =>
    obtain ⟨k', w'⟩ := e
    cases i with
    | zero =>
      obtain ⟨rfl, rfl⟩ : k' = k ∧ w' = w := by simpa using h
      rfl
    | succ i =>
      rw [runningTotals, getElem?_cons_succ, ih _ h, take_succ_cons]
      rcases eq_or_ne k' k with rfl | hne
      · rw [Function.update_self, totalOf_cons_self, add_assoc]
      · rw [Function.update_of_ne hne.symm, totalOf_cons_ne hne]

theorem totalOf_take_succ (h : es[i]? = some (k, w)) :
    totalOf k (es.take (i + 1)) = totalOf k (es.take i) + w := by
  rw [take_add_one, h, totalOf_append]
  show _ + totalOf k [(k, w)] = _
  rw [totalOf_cons_self, totalOf_nil, add_zero]

theorem totalOf_take_mono (k : K) (es : List (K × ℕ)) {j : ℕ} (h : i ≤ j) :
    totalOf k (es.take i) ≤ totalOf k (es.take j) := by
  obtain ⟨d, rfl⟩ := Nat.exists_eq_add_of_le h
  rw [take_add, totalOf_append]
  exact Nat.le_add_right _ _

/-- An entry's range ends before the ranges of the later entries of its key begin. -/
theorem totalOf_take_add_le {j : ℕ} (h : es[i]? = some (k, w)) (hij : i < j) :
    totalOf k (es.take i) + w ≤ totalOf k (es.take j) := by
  rw [← totalOf_take_succ h]
  exact totalOf_take_mono k es hij

/-- An entry's range ends inside the total of its key. -/
theorem totalOf_take_add_le_totalOf (h : es[i]? = some (k, w)) :
    totalOf k (es.take i) + w ≤ totalOf k es := by
  have hi : i < es.length := (List.getElem?_eq_some_iff.mp h).1
  have hle := totalOf_take_add_le h hi
  rwa [take_length] at hle

/-- Every position below the total of a key lies in the range of one of its entries. -/
theorem exists_of_lt_totalOf {b : ℕ} (h : b < totalOf k es) :
    ∃ i w, es[i]? = some (k, w) ∧ totalOf k (es.take i) ≤ b ∧
      b < totalOf k (es.take i) + w := by
  induction es generalizing b with
  | nil => exact absurd h (Nat.not_lt_zero b)
  | cons e es ih =>
    obtain ⟨k', w'⟩ := e
    rcases eq_or_ne k' k with rfl | hne
    · rw [totalOf_cons_self] at h
      rcases Nat.lt_or_ge b w' with hlt | hge
      · exact ⟨0, w', rfl, Nat.zero_le b, by rwa [take_zero, totalOf_nil, Nat.zero_add]⟩
      · obtain ⟨i, w, hi, hle, hlt⟩ := ih (b := b - w') (by omega)
        refine ⟨i + 1, w, hi, ?_⟩
        rw [take_succ_cons, totalOf_cons_self]
        omega
    · rw [totalOf_cons_ne hne] at h
      obtain ⟨i, w, hi, hrange⟩ := ih h
      refine ⟨i + 1, w, hi, ?_⟩
      rwa [take_succ_cons, totalOf_cons_ne hne]

theorem totalOf_map_one (k : K) (ks : List K) :
    totalOf k (ks.map fun k' => (k', 1)) = ks.count k := by
  induction ks with
  | nil => rfl
  | cons k' ks ih =>
    rw [map_cons, count_cons, ← ih]
    rcases eq_or_ne k' k with rfl | hne
    · rw [totalOf_cons_self, if_pos (beq_self_eq_true k'), add_comm]
    · rw [totalOf_cons_ne hne, if_neg (by simpa using hne), add_zero]

end PegaFlow
