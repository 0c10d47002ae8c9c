/-
PegaFlow/ByteCuts.lean

Ranges that lie back to back, and transfers cut into such ranges.

`cuts off ns` are the ranges of lengths `ns` from `off` on.  They follow each other without gap or
overlap, and reading them one by one yields the pieces of what the whole range holds
(`readAt_cuts`).  A vectored transfer copies each range from one of several sources; as long as the
destinations keep clear of each other its copies may run in any order (`readAt_copyEach`).
-/
import Mathlib.Algebra.GroupWithZero.Nat
import PegaFlow.ByteCopies
import Mathlib.Data.List.Flatten

namespace PegaFlow

open List

variable {β ι : Type*}

/-! ### Consecutive ranges -/

/-- Ranges `(start, length)` of the given lengths, back to back from `off` on. -/
def cuts : ℕ → List ℕ → List (ℕ × ℕ)
  | _, [] => []
  | off, n :: ns => (off, n) :: cuts (off + n) ns

@[simp] theorem map_snd_cuts (off : ℕ) (ns : List ℕ) : (cuts off ns).map Prod.snd = ns := by
  induction ns generalizing off with
  | nil => rfl
  | cons n ns ih => rw [cuts, map_cons, ih]

@[simp] theorem length_cuts (off : ℕ) (ns : List ℕ) : (cuts off ns).length = ns.length := by
  rw [← length_map (f := Prod.snd), map_snd_cuts]

theorem cuts_inside {off : ℕ} {ns : List ℕ} {c : ℕ × ℕ} (hc : c ∈ cuts off ns) :
    off ≤ c.1 ∧ c.1 + c.2 ≤ off + ns.sum := by
  induction ns generalizing off with
  | nil => cases hc
  | cons n ns ih =>
    rw [sum_cons]
    rcases mem_cons.mp hc with rfl | hc
    · exact ⟨Nat.le_refl _, by simp only; omega⟩
    · have := ih hc
      omega

theorem cuts_pairwise (off : ℕ) (ns : List ℕ) :
    (cuts off ns).Pairwise fun c c' => RangesApart c.1 c.2 c'.1 c'.2 := by
  induction ns generalizing off with
  | nil => exact List.Pairwise.nil
  | cons n ns ih =>
    refine pairwise_cons.mpr ⟨fun c hc => ?_, ih _⟩
    exact .inl (cuts_inside hc).1

theorem readAt_cuts {f : ℕ → β} {off : ℕ} {pieces : List (List β)}
    (h : readAt f off pieces.flatten.length = pieces.flatten) :
    (cuts off (pieces.map List.length)).map (fun c => readAt f c.1 c.2) = pieces := by
  induction pieces generalizing off with
  | nil => rfl
  | cons p ps ih =>
    have hsplit : readAt f off (p ++ ps.flatten).length =
        readAt f off p.length ++ readAt f (off + p.length) ps.flatten.length := by
      unfold readAt
      rw [length_append, range_add, map_append, map_map]
      simp only [Function.comp_def, Nat.add_assoc]
    rw [flatten_cons, hsplit] at h
    obtain ⟨hp, hps⟩ := append_inj h (length_readAt _ _ _)
    rw [map_cons, cuts, map_cons, hp, ih hps]

/-! ### Copies from several sources -/

/-- Run copies that read from the sources `srcs`, in order. -/
def copyEach (srcs : ι → ℕ → β) (cs : List (ι × RangeCopy)) (dst : ℕ → β) : ℕ → β :=
  cs.foldl (fun dst c => c.2.apply (srcs c.1) dst) dst

/-- The destinations of two copies have no cell in common. -/
def DstApart (c c' : ι × RangeCopy) : Prop :=
  RangesApart c.2.dst c.2.len c'.2.dst c'.2.len

variable {srcs : ι → ℕ → β} {cs : List (ι × RangeCopy)} {dst : ℕ → β} {off len : ℕ}

theorem readAt_apply_self (src dst : ℕ → β) (c : RangeCopy) :
    readAt (c.apply src dst) c.dst c.len = readAt src c.src c.len := by
  apply readAt_congr
  intro i hi
  rw [RangeCopy.apply_inside ⟨by omega, by omega⟩, Nat.add_sub_cancel_left]

theorem readAt_apply_apart {src dst : ℕ → β} {c : RangeCopy} (h : RangesApart off len c.dst c.len) :
    readAt (c.apply src dst) off len = readAt dst off len := by
  apply readAt_congr
  intro i hi
  apply RangeCopy.apply_outside
  rintro ⟨hle, hlt⟩
  unfold RangesApart at h
  omega

theorem readAt_copyEach_outside (h : ∀ c ∈ cs, RangesApart off len c.2.dst c.2.len) :
    readAt (copyEach srcs cs dst) off len = readAt dst off len := by
  induction cs generalizing dst with
  | nil => rfl
  | cons c cs ih =>
    show readAt (copyEach srcs cs (c.2.apply (srcs c.1) dst)) off len = _
    rw [ih fun c' hc' => h c' (mem_cons_of_mem c hc')]
    exact readAt_apply_apart (h c mem_cons_self)

theorem readAt_copyEach (hcs : cs.Pairwise DstApart) {c : ι × RangeCopy} (hc : c ∈ cs) :
    readAt (copyEach srcs cs dst) c.2.dst c.2.len = readAt (srcs c.1) c.2.src c.2.len := by
  induction cs generalizing dst with
  | nil => cases hc
  | cons c' cs ih =>
    obtain ⟨hfirst, hrest⟩ := pairwise_cons.mp hcs
    show readAt (copyEach srcs cs (c'.2.apply (srcs c'.1) dst)) _ _ = _
    rcases mem_cons.mp hc with rfl | hc
    · rw [readAt_copyEach_outside hfirst]
      exact readAt_apply_self _ _ _
    · exact ih hrest hc

end PegaFlow
