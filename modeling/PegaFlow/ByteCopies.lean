/-
PegaFlow/ByteCopies.lean

Copies of ranges of cells from one flat memory to another.

A copy changes the cells it covers and no other (`RangeCopy.apply_inside`,
`RangeCopy.apply_outside`), and two memories that agree on a range read the same there
(`readAt_congr`).
-/
import PegaFlow.ByteMap

namespace PegaFlow

variable {β : Type*}

/-- A copy of `len` cells from `src` on to `dst` on. -/
structure RangeCopy where
  src : ℕ
  dst : ℕ
  len : ℕ
deriving DecidableEq, Repr

namespace RangeCopy

/-- The copy writes cell `a`. -/
def Covers (c : RangeCopy) (a : ℕ) : Prop := c.dst ≤ a ∧ a < c.dst + c.len

/-- The copy on its own. -/
def apply (src : ℕ → β) (dst : ℕ → β) (c : RangeCopy) : ℕ → β :=
  writeAt dst c.dst (readAt src c.src c.len)

end RangeCopy

/-- Two ranges of cells have none in common. -/
def RangesApart (a m b n : ℕ) : Prop := a + m ≤ b ∨ b + n ≤ a

theorem RangesApart.symm {a m b n : ℕ} (h : RangesApart a m b n) : RangesApart b n a m :=
  Or.symm h

theorem RangesApart.mono {a m b n a' m' b' n' : ℕ} (h : RangesApart a m b n)
    (ha : a ≤ a' ∧ a' + m' ≤ a + m) (hb : b ≤ b' ∧ b' + n' ≤ b + n) : RangesApart a' m' b' n' := by
  unfold RangesApart at h ⊢
  omega

@[simp] theorem length_readAt (f : ℕ → β) (off len : ℕ) : (readAt f off len).length = len := by
  rw [readAt, List.length_map, List.length_range]

theorem readAt_congr {f g : ℕ → β} {a b len : ℕ} (h : ∀ i < len, f (a + i) = g (b + i)) :
    readAt f a len = readAt g b len :=
  List.map_congr_left fun i hi => h i (List.mem_range.mp hi)

namespace RangeCopy

variable {src dst : ℕ → β} {c : RangeCopy} {a : ℕ}

theorem apply_outside (h : ¬c.Covers a) : c.apply src dst a = dst a := by
  apply writeAt_outside
  intro i hi heq
  rw [length_readAt] at hi
  exact h ⟨by omega, by omega⟩

theorem apply_inside (h : c.Covers a) : c.apply src dst a = src (c.src + (a - c.dst)) := by
  obtain ⟨i, rfl⟩ := Nat.exists_eq_add_of_le h.1
  have hi : i < (readAt src c.src c.len).length := by
    rw [length_readAt]
    have := h.2
    omega
  rw [apply, writeAt_inside dst c.dst hi]
  simp [readAt]

end RangeCopy

end PegaFlow
