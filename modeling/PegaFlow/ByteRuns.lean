/-
PegaFlow/ByteRuns.lean

Copies of bytes as lists of pairs (source address, destination address).
-/
import Mathlib.Algebra.BigOperators.Ring.List
import Mathlib.Algebra.Ring.Nat
import Mathlib.Data.List.Range

namespace PegaFlow

open List

/-- The byte pairs of a copy of `len` bytes. -/
def copyRun (src dst len : ℕ) : List (ℕ × ℕ) := (range len).map fun j => (src + j, dst + j)

@[simp] theorem length_copyRun (src dst len : ℕ) : (copyRun src dst len).length = len := by
  rw [copyRun, length_map, length_range]

theorem copyRun_add (src dst m n : ℕ) :
    copyRun src dst (m + n) = copyRun src dst m ++ copyRun (src + m) (dst + m) n := by
  simp only [copyRun, range_add, map_append, map_map, Function.comp_def,
    Nat.add_assoc]

theorem copyRun_mul (src dst n len : ℕ) :
    copyRun src dst (n * len) =
      (List.range n).flatMap fun i => copyRun (src + i * len) (dst + i * len) len := by
  induction n with
  | zero => rw [Nat.zero_mul]; rfl
  | succ n ih =>
    rw [Nat.succ_mul, copyRun_add, ih, range_succ, flatMap_append, flatMap_singleton]

theorem copyRun_mul₃ (src dst a b c len : ℕ) :
    copyRun src dst (a * (b * (c * len))) =
      (range a).flatMap fun i => (range b).flatMap fun j =>
        (range c).flatMap fun k =>
          copyRun (src + i * (b * (c * len)) + j * (c * len) + k * len)
            (dst + i * (b * (c * len)) + j * (c * len) + k * len) len := by
  rw [copyRun_mul]
  simp only [copyRun_mul _ _ b, copyRun_mul _ _ c]

theorem sum_eq_of_perm_runs {ι : Type*} {es : List ι} {a a' : ι → ℕ} {len : ℕ} (hlen : 0 < len)
    (h : (es.flatMap fun e => (range len).map (a e + ·)).Perm
      (es.flatMap fun e => (range len).map (a' e + ·))) : (es.map a).sum = (es.map a').sum := by
  have hsum : ∀ f : ι → ℕ, (es.flatMap fun e => (range len).map (f e + ·)).sum =
      len * (es.map f).sum + es.length * (range len).sum := by
    intro f
    have hrun : ∀ e, ((range len).map (f e + ·)).sum = len * f e + (range len).sum := by
      intro e
      rw [sum_map_add, map_const', sum_replicate, length_range, map_id']
      rfl
    rw [flatMap_def, sum_flatten, map_map, Function.comp_def]
    simp only [hrun, sum_map_add, sum_map_mul_left, map_const', sum_replicate_nat]
  have hperm := h.sum_eq
  rw [hsum, hsum] at hperm
  exact Nat.eq_of_mul_eq_mul_left hlen (Nat.add_right_cancel hperm)

end PegaFlow
