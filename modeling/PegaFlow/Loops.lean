/-
PegaFlow/Loops.lean

Loops as operations on lists.

A loop whose rounds may raise is a `mapM` over `Except`: `bind_ok`, `ite_error_ok` and
`mapM_forall₂` take it apart when it returns, `mapM_eq_ok` runs it when no round raises.  A loop
that ends at the first element without a result is a `mapWhile`.  Loops that append in every round
are a `flatMap`: their rounds may be compared one by one, nested loops may be swapped up to order,
and if only one round has a result it is the result of the loop.
-/
import Mathlib.Algebra.GroupWithZero.Nat
import Mathlib.Algebra.Order.BigOperators.Group.List
import Mathlib.Algebra.Order.Group.Nat
import Mathlib.Data.List.Nodup

namespace PegaFlow

open List

/-! ### Rounds that may raise -/

universe u

variable {ε α γ : Type*} {β : Type u} {R : α → β → Prop} {xs : List α} {ys : List β} {x : α} {y : β}
  {g : β → γ} {g' : α → γ}

theorem bind_ok {α : Type u} {x : Except ε α} {f : α → Except ε β} {b : β} (h : x >>= f = .ok b) :
    ∃ a, x = .ok a ∧ f a = .ok b := by
  rcases x with err | a
  · cases h
  · exact ⟨a, rfl, h⟩

theorem map_ok {x : Except ε α} {f : α → β} {b : β} (h : x.map f = .ok b) :
    ∃ a, x = .ok a ∧ f a = b := by
  cases x with
  | error err => cases h
  | ok a =>
    cases h
    exact ⟨a, rfl, rfl⟩

theorem ite_error_ok {c : Prop} [Decidable c] {err : ε} {x : Except ε α} {a : α}
    (h : (if c then .error err else x) = .ok a) : ¬c ∧ x = .ok a := by
  split at h
  · cases h
  · next hc => exact ⟨hc, h⟩

theorem forall₂_mem_left (h : Forall₂ R xs ys) (hx : x ∈ xs) : ∃ y ∈ ys, R x y := by
  induction h with
  | nil => cases hx
  | cons hxy _ ih =>
    rcases mem_cons.mp hx with rfl | hx
    · exact ⟨_, mem_cons_self, hxy⟩
    · obtain ⟨y, hy, hxy⟩ := ih hx
      exact ⟨y, mem_cons_of_mem _ hy, hxy⟩

theorem forall₂_mem_right (h : Forall₂ R xs ys) (hy : y ∈ ys) : ∃ x ∈ xs, R x y :=
  forall₂_mem_left h.flip hy

theorem forall₂_getElem? (h : Forall₂ R xs ys) {k : ℕ} (hx : xs[k]? = some x) :
    ∃ y, ys[k]? = some y ∧ R x y := by
  induction h generalizing k with
  | nil => cases hx
  | cons hxy _ ih =>
    cases k with
    | zero => cases hx; exact ⟨_, rfl, hxy⟩
    | succ k => exact ih hx

theorem mapM_forall₂ {f : α → Except ε β} (h : xs.mapM f = .ok ys) :
    Forall₂ (fun x y => f x = .ok y) xs ys := by
  induction xs generalizing ys with
  | nil => cases h; exact .nil
  | cons x xs ih =>
    rw [mapM_cons] at h
    obtain ⟨y, hy, h⟩ := bind_ok h
    obtain ⟨ys', hys, h⟩ := bind_ok h
    cases h
    exact .cons hy (ih hys)

theorem mapM_eq_ok {f : α → Except ε β} {g : α → β} (h : ∀ x ∈ xs, f x = .ok (g x)) :
    xs.mapM f = .ok (xs.map g) := by
  induction xs with
  | nil => rfl
  | cons x xs ih =>
    rw [mapM_cons, h x mem_cons_self, ih fun y hy => h y (mem_cons_of_mem x hy)]
    rfl

theorem map_eq_of_forall₂ (h : Forall₂ R xs ys) (hg : ∀ x y, R x y → g y = g' x) :
    ys.map g = xs.map g' := by
  induction h with
  | nil => rfl
  | cons hxy _ ih => rw [map_cons, map_cons, hg _ _ hxy, ih]

theorem map_eq_of_mapM {f : α → Except ε β} (h : xs.mapM f = .ok ys)
    (hg : ∀ x y, f x = .ok y → g y = g' x) : ys.map g = xs.map g' :=
  map_eq_of_forall₂ (mapM_forall₂ h) hg

/-! ### Loops that stop early -/

section MapWhile

variable {f : α → Option β}

/-- Map the elements up to the first one without a result. -/
def mapWhile (f : α → Option β) : List α → List β
  | [] => []
  | x :: xs =>
    match f x with
    | some y => y :: mapWhile f xs
    | none => []

theorem mapWhile_cons_some (h : f x = some y) (xs : List α) :
    mapWhile f (x :: xs) = y :: mapWhile f xs := by
  rw [mapWhile, h]

theorem mapWhile_cons_none (h : f x = none) (xs : List α) : mapWhile f (x :: xs) = [] := by
  rw [mapWhile, h]

theorem length_mapWhile_le (f : α → Option β) (xs : List α) :
    (mapWhile f xs).length ≤ xs.length := by
  induction xs with
  | nil => exact Nat.le_refl 0
  | cons x xs ih =>
    cases hx : f x with
    | none =>
      rw [mapWhile_cons_none hx]
      exact Nat.zero_le _
    | some y =>
      rw [mapWhile_cons_some hx]
      exact Nat.succ_le_succ ih

theorem mapWhile_take {n : ℕ} (h : ∀ x ∈ xs.drop n, f x = none) :
    mapWhile f (xs.take n) = mapWhile f xs := by
  induction n generalizing xs with
  | zero =>
    cases xs with
    | nil => rfl
    | cons x xs => rw [mapWhile_cons_none (h x mem_cons_self)]; rfl
  | succ n ih =>
    cases xs with
    | nil => rfl
    | cons x xs =>
      rw [take_succ_cons, mapWhile, mapWhile, ih h]

theorem length_mapWhile_of_isSome (h : ∀ x ∈ xs, (f x).isSome) :
    (mapWhile f xs).length = xs.length := by
  induction xs with
  | nil => rfl
  | cons x xs ih =>
    obtain ⟨y, hy⟩ := Option.isSome_iff_exists.mp (h x mem_cons_self)
    rw [mapWhile_cons_some hy, length_cons, length_cons,
      ih fun z hz => h z (mem_cons_of_mem x hz)]

theorem mapWhile_forall₂ (h : (mapWhile f xs).length = xs.length) :
    Forall₂ (fun x y => f x = some y) xs (mapWhile f xs) := by
  induction xs with
  | nil => exact .nil
  | cons x xs ih =>
    cases hx : f x with
    | none =>
      rw [mapWhile_cons_none hx] at h
      cases h
    | some y =>
      rw [mapWhile_cons_some hx] at h ⊢
      exact .cons hx (ih (Nat.succ.inj h))

end MapWhile

/-! ### Rounds that append -/

theorem flatMap_flatMap_perm (xs : List α) (ys : List β) (f : α → β → List γ) :
    (xs.flatMap fun x => ys.flatMap fun y => f x y).Perm
      (ys.flatMap fun y => xs.flatMap fun x => f x y) := by
  induction ys with
  | nil => simp
  | cons y ys ih =>
    exact (flatMap_append_perm xs _ _).symm.trans (ih.append_left _)

theorem flatMap_eq_of_forall₂ {f : α → List γ} {g : β → List γ} (h : Forall₂ R xs ys)
    (hfg : ∀ x y, R x y → g y = f x) : ys.flatMap g = xs.flatMap f := by
  induction h with
  | nil => rfl
  | cons hxy _ ih => rw [flatMap_cons, flatMap_cons, ih, hfg _ _ hxy]

theorem filterMap_getElem?_range (xs : List α) (n : ℕ) :
    (range n).filterMap (fun i => xs[i]?) = xs.take n := by
  induction n with
  | zero => rw [take_zero]; rfl
  | succ n ih =>
    rw [range_succ, filterMap_append, ih, take_add_one, filterMap_cons]
    cases xs[n]? <;> rfl

/-- If no part of `f` is longer than that of `g`, equal lengths in total mean equal lengths of
all parts. -/
theorem length_eq_of_flatMap {f g : α → List γ} (hle : ∀ x ∈ xs, (f x).length ≤ (g x).length)
    (htotal : (xs.flatMap f).length = (xs.flatMap g).length) :
    ∀ x ∈ xs, (f x).length = (g x).length := by
  by_contra hne
  push Not at hne
  obtain ⟨x, hx, hne⟩ := hne
  rw [length_flatMap, length_flatMap] at htotal
  have hlt := sum_lt_sum (fun x => (f x).length) (fun x => (g x).length) hle
    ⟨x, hx, lt_of_le_of_ne (hle x hx) hne⟩
  exact lt_irrefl _ (htotal ▸ hlt)

theorem flatMap_eq_of_unique {f : α → List γ} (hnodup : xs.Nodup) (hx : x ∈ xs)
    (h : ∀ y ∈ xs, y ≠ x → f y = []) : xs.flatMap f = f x := by
  induction xs with
  | nil => cases hx
  | cons y ys ih =>
    rw [flatMap_cons]
    rcases mem_cons.mp hx with rfl | hx
    · have hrest : ys.flatMap f = [] := by
        rw [flatMap_eq_nil_iff]
        intro z hz
        exact h z (mem_cons_of_mem _ hz) fun heq => (nodup_cons.mp hnodup).1 (heq ▸ hz)
      rw [hrest, append_nil]
    · have hne : y ≠ x := fun heq => (nodup_cons.mp hnodup).1 (heq ▸ hx)
      rw [h y mem_cons_self hne, nil_append,
        ih (nodup_cons.mp hnodup).2 hx fun z hz => h z (mem_cons_of_mem y hz)]

end PegaFlow
