/-
PegaFlow/ByteMap.lean

Flat storage: a map from addresses to cells, with the writing of a list at an offset
and the reading of a range.  Used for files and memories alike, over any type of cells.
-/
import Mathlib.Data.List.Basic

namespace PegaFlow

variable {β : Type*} (f : ℕ → β) {bs : List β}

/-- Put the cells `bs` at `off, off + 1, …`. -/
def writeAt (off : ℕ) (bs : List β) : ℕ → β :=
  fun a => if off ≤ a then (bs[a - off]?).getD (f a) else f a

/-- The `len` cells from `off` on. -/
def readAt (off len : ℕ) : List β :=
  (List.range len).map fun i => f (off + i)

theorem writeAt_inside (off : ℕ) {i : ℕ} (hi : i < bs.length) :
    writeAt f off bs (off + i) = bs[i] := by
  simp [writeAt, hi]

theorem writeAt_outside {off a : ℕ} (h : ∀ i < bs.length, a ≠ off + i) :
    writeAt f off bs a = f a := by
  unfold writeAt
  split
  · next hle =>
    have : bs.length ≤ a - off := by
      by_contra hlt
      exact h (a - off) (by omega) (by omega)
    simp [this]
  · rfl

theorem readAt_eq {f : ℕ → β} {off : ℕ} (h : ∀ i (hi : i < bs.length), f (off + i) = bs[i]) :
    readAt f off bs.length = bs := by
  refine List.ext_getElem (by simp [readAt]) ?_
  intro i hi _
  simpa [readAt] using h i (by simpa [readAt] using hi)

end PegaFlow
