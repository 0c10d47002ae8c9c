/-
PegaFlow/RunCover.lean

Covering the front of a list by runs.

A label owns some of the elements.  A cover is a list of labels with counts: each label owns the
elements of its segment, and the segments follow each other from the start of the list.  A greedy
cover takes the longest segment that some label allows, as long as there is one.
-/
import Mathlib.Algebra.GroupWithZero.Nat
import Mathlib.Algebra.BigOperators.Group.List.Basic

namespace PegaFlow

open List

variable {α N : Type*}

/-- The number of elements in all segments. -/
def coverTotal (segments : List (N × ℕ)) : ℕ := (segments.map Prod.snd).sum

@[simp] theorem coverTotal_nil : coverTotal ([] : List (N × ℕ)) = 0 := rfl

@[simp] theorem coverTotal_cons (label : N) (n : ℕ) (segments : List (N × ℕ)) :
    coverTotal ((label, n) :: segments) = n + coverTotal segments := rfl

/-- The first `n` elements are owned by `label`. -/
def OwnsRun (owns : N → α → Prop) (label : N) (n : ℕ) (xs : List α) : Prop :=
  n ≤ xs.length ∧ ∀ x ∈ xs.take n, owns label x

def Cover (owns : N → α → Prop) : List α → List (N × ℕ) → Prop
  | _, [] => True
  | xs, (label, n) :: segments => OwnsRun owns label n xs ∧ Cover owns (xs.drop n) segments

def Greedy (owns : N → α → Prop) : List α → List (N × ℕ) → Prop
  | xs, [] => ∀ x ∈ xs.head?, ∀ label, ¬ owns label x
  | xs, (label, n) :: segments => 0 < n ∧ OwnsRun owns label n xs ∧
      (∀ label' m, OwnsRun owns label' m xs → m ≤ n) ∧ Greedy owns (xs.drop n) segments

variable {owns : N → α → Prop} {xs : List α} {segments : List (N × ℕ)} {other : List (N × ℕ)}
  {label : N}

theorem OwnsRun.drop {n d : ℕ} (h : OwnsRun owns label n xs) (hd : d ≤ n) :
    OwnsRun owns label (n - d) (xs.drop d) := by
  refine ⟨?_, ?_⟩
  · rw [length_drop]
    exact Nat.sub_le_sub_right h.1 d
  · intro x hx
    rw [take_drop, Nat.add_sub_cancel' hd] at hx
    exact h.2 x (mem_of_mem_drop hx)

theorem OwnsRun.append {n m : ℕ} (h : OwnsRun owns label n xs)
    (h' : OwnsRun owns label m (xs.drop n)) : OwnsRun owns label (n + m) xs := by
  refine ⟨?_, ?_⟩
  · have hlength := h'.1
    rw [length_drop] at hlength
    have hn := h.1
    omega
  · intro x hx
    rw [take_add] at hx
    rcases mem_append.mp hx with hx | hx
    · exact h.2 x hx
    · exact h'.2 x hx

/-- The greedy cover from a later start is not longer than a cover that reaches as far. -/
theorem Greedy.length_le_of_drop (hother : Cover owns xs other) {d : ℕ}
    (h : Greedy owns (xs.drop d) segments) (htotal : d + coverTotal segments ≤ coverTotal other) :
    segments.length ≤ other.length := by
  induction other generalizing xs d segments with
  | nil =>
    cases segments with
    | nil => exact Nat.le_refl _
    | cons segment segments =>
      have hpos := h.1
      rw [coverTotal_cons, coverTotal_nil] at htotal
      omega
  | cons segment other ih =>
    obtain ⟨label, m⟩ := segment
    obtain ⟨hrun, hother⟩ := hother
    rw [coverTotal_cons] at htotal
    rcases Nat.lt_or_ge d m with hd | hd
    · cases segments with
      | nil => exact Nat.zero_le _
      | cons segment segments =>
        -- the other segment is a run here, too, so the greedy one is at least as long
        obtain ⟨label', n⟩ := segment
        obtain ⟨-, -, hmax, hrest⟩ := h
        have hn : m - d ≤ n := hmax label (m - d) (hrun.drop (Nat.le_of_lt hd))
        rw [coverTotal_cons] at htotal
        have hdrop : (xs.drop d).drop n = (xs.drop m).drop (d + n - m) := by
          rw [drop_drop, drop_drop]
          congr 1
          omega
        rw [hdrop] at hrest
        have hle := ih hother hrest (by omega)
        exact Nat.succ_le_succ hle
    · -- the other segment ends before the greedy cover starts
      have hdrop : xs.drop d = (xs.drop m).drop (d - m) := by
        rw [drop_drop, Nat.add_sub_cancel' hd]
      rw [hdrop] at h
      exact Nat.le_succ_of_le (ih hother h (by omega))

/-- **No cover that reaches as far has fewer segments.** -/
theorem Greedy.length_le (h : Greedy owns xs segments) (hother : Cover owns xs other)
    (htotal : coverTotal segments ≤ coverTotal other) : segments.length ≤ other.length :=
  Greedy.length_le_of_drop hother (d := 0) h (by rw [zero_add]; exact htotal)

/-- The label of a segment owns an element. -/
theorem Greedy.owned (h : Greedy owns xs segments) :
    ∀ segment ∈ segments, 0 < segment.2 ∧ ∃ x ∈ xs, owns segment.1 x := by
  induction segments generalizing xs with
  | nil => exact fun segment hsegment => by cases hsegment
  | cons segment segments ih =>
    obtain ⟨hpos, hrun, -, hrest⟩ := h
    intro other hother
    rcases mem_cons.mp hother with rfl | hother
    · refine ⟨hpos, ?_⟩
      cases xs with
      | nil => exact absurd hrun.1 (Nat.not_le.mpr hpos)
      | cons x xs =>
        refine ⟨x, mem_cons_self, hrun.2 x ?_⟩
        rw [← Nat.succ_pred_eq_of_pos hpos]
        exact mem_cons_self
    · obtain ⟨hpos', x, hx, howns⟩ := ih hrest other hother
      exact ⟨hpos', x, mem_of_mem_drop hx, howns⟩

end PegaFlow
