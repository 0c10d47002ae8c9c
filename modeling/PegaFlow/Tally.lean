/-
PegaFlow/Tally.lean

Sums over a list of records.

Code often keeps a counter next to a collection: so many entries in flight, so many
completed.  `tally f l` is what such a counter should read, the sum of `f` over the
records of `l`.  The rules say how it moves when one record is replaced or added, and
what a comparison of two tallies says about the single records: a counter that has
caught up with a larger one agrees with it on every record (`eq_of_tally_le`).  Counters of 64
bits that do not wrap around saturate.
-/
import Mathlib.Algebra.GroupWithZero.Nat
import Mathlib.Algebra.Order.BigOperators.Group.List
import Mathlib.Algebra.Order.Group.Nat

namespace PegaFlow

open List

variable {α : Type*} {f g : α → ℕ} {l : List α} {x : α} {i : ℕ}

/-- The largest `u64`. -/
def u64Max : ℕ := 2 ^ 64 - 1

def saturatingMul (a b : ℕ) : ℕ := min (a * b) u64Max

def saturatingAdd (a b : ℕ) : ℕ := min (a + b) u64Max

/-- The sum of `f` over the records of `l`. -/
def tally (f : α → ℕ) (l : List α) : ℕ := (l.map f).sum

@[simp] theorem tally_nil : tally f [] = 0 := rfl

@[simp] theorem tally_cons (x : α) : tally f (x :: l) = f x + tally f l := by
  simp [tally]

@[simp] theorem tally_append_singleton (x : α) : tally f (l ++ [x]) = tally f l + f x := by
  simp [tally]

/-- Counting the records that meet `p`. -/
theorem length_filter_eq_tally (p : α → Bool) :
    (l.filter p).length = tally (fun x => if p x then 1 else 0) l := by
  induction l with
  | nil => rfl
  | cons x l ih =>
    rw [filter_cons, tally_cons]
    split
    · rw [length_cons]
      omega
    · omega

theorem tally_append (l l' : List α) : tally f (l ++ l') = tally f l + tally f l' := by
  simp [tally]

/-- The records before, at and after a place. -/
theorem tally_split (h : l[i]? = some x) :
    tally f (l.take i) + (f x + tally f (l.drop (i + 1))) = tally f l := by
  obtain ⟨hlt, rfl⟩ := List.getElem?_eq_some_iff.mp h
  rw [← tally_cons, ← tally_append, getElem_cons_drop, take_append_drop]

theorem tally_set {x y : α} (h : l[i]? = some x) : tally f (l.set i y) + f x = tally f l + f y := by
  have hlt := (List.getElem?_eq_some_iff.mp h).1
  rw [set_eq_take_append_cons_drop, if_pos hlt, tally_append, tally_cons, ← tally_split h]
  omega

/-- Taking one record out lowers the tally by its share. -/
theorem tally_eraseIdx (h : l[i]? = some x) : tally f (l.eraseIdx i) + f x = tally f l := by
  rw [eraseIdx_eq_take_drop_succ, tally_append, ← tally_split h]
  omega

theorem le_tally (hx : x ∈ l) : f x ≤ tally f l :=
  single_le_sum (by simp) _ (mem_map_of_mem hx)

theorem tally_le (h : ∀ x ∈ l, g x ≤ f x) : tally g l ≤ tally f l :=
  sum_le_sum h

/-- **Catching up.**  If `g` is below `f` on every record and its tally is not below, the
two agree on every record. -/
theorem eq_of_tally_le (h : ∀ x ∈ l, g x ≤ f x) (hle : tally f l ≤ tally g l) :
    ∀ x ∈ l, f x = g x := by
  induction l with
  | nil => simp
  | cons y l ih =>
    have hy := h y mem_cons_self
    have hl := tally_le fun x hx => h x (mem_cons_of_mem y hx)
    simp only [tally_cons] at hle
    rintro x (_ | ⟨_, hx⟩)
    · omega
    · exact ih (fun x hx => h x (mem_cons_of_mem y hx)) (by omega) x hx

theorem tally_lt (h : ∀ y ∈ l, g y ≤ f y) (hx : x ∈ l) (hlt : g x < f x) :
    tally g l < tally f l := by
  by_contra hle
  exact hlt.ne' (eq_of_tally_le h (not_lt.mp hle) x hx)

end PegaFlow
