/-
PegaFlow/SortedPairs.lean

Pairing two lists after sorting both.
-/
import Mathlib.Data.List.Sort
import Mathlib.Data.List.Zip

namespace PegaFlow

open List

/-! ### Pairs of two lists -/

section Pairs

variable {α β : Type*} {xs : List α} {ys : List β}

theorem zip_eq_zip_take (xs : List α) (ys : List β) :
    xs.zip ys = (xs.take ys.length).zip (ys.take xs.length) := by
  rcases le_total xs.length ys.length with h | h
  · rw [take_of_length_le h]
    conv_lhs => rw [← take_append_drop xs.length ys, ← append_nil xs]
    rw [zip_append (by simp [h])]
    simp
  · rw [take_of_length_le h]
    conv_lhs => rw [← take_append_drop ys.length xs, ← append_nil ys]
    rw [zip_append (by simp [h])]
    simp

theorem exists_mem_zip_of_mem_take {x : α} (hx : x ∈ xs.take ys.length) :
    ∃ y, (x, y) ∈ xs.zip ys := by
  obtain ⟨i, hi, rfl⟩ := mem_iff_getElem.mp hx
  rw [length_take] at hi
  refine ⟨ys[i], ?_⟩
  exact mem_iff_getElem.mpr ⟨i, by rw [length_zip]; omega, by simp⟩

theorem fst_mem_take_of_mem_zip {p : α × β} (hp : p ∈ xs.zip ys) : p.1 ∈ xs.take ys.length := by
  rw [zip_eq_zip_take] at hp
  exact (of_mem_zip hp).1

theorem mem_zip_comm {x : α} {y : β} : (x, y) ∈ xs.zip ys ↔ (y, x) ∈ ys.zip xs := by
  rw [← zip_swap, mem_map]
  constructor
  · rintro ⟨p, hp, hpe⟩
    cases hpe
    exact hp
  · intro h
    exact ⟨(y, x), h, rfl⟩

end Pairs

/-! ### Sorted lists -/

variable {α β : Type*} [LinearOrder α] [LinearOrder β]

/-- The list in ascending order. -/
def sorted (xs : List α) : List α :=
  xs.insertionSort (· ≤ ·)

@[simp] theorem length_sorted (xs : List α) : (sorted xs).length = xs.length :=
  length_insertionSort _ _

variable {xs : List α}

@[simp] theorem mem_sorted {a : α} : a ∈ sorted xs ↔ a ∈ xs :=
  mem_insertionSort _

theorem sorted_perm (xs : List α) : (sorted xs).Perm xs :=
  perm_insertionSort _ _

theorem sorted_pairwise_lt (h : xs.Nodup) : (sorted xs).Pairwise (· < ·) := by
  have hle : (sorted xs).SortedLE := (pairwise_insertionSort (· ≤ ·) xs).sortedLE
  exact (hle.sortedLT_of_nodup ((sorted_perm xs).nodup_iff.mpr h)).pairwise

theorem sorted_append {xs ys : List α} (h : ∀ x ∈ xs, ∀ y ∈ ys, x < y) :
    sorted (xs ++ ys) = sorted xs ++ sorted ys := by
  refine List.Perm.eq_of_pairwise' (r := (· ≤ ·)) (pairwise_insertionSort _ _) ?_ ?_
  · refine pairwise_append.mpr
      ⟨pairwise_insertionSort _ _, pairwise_insertionSort _ _, ?_⟩
    intro x hx y hy
    exact (h x (mem_sorted.mp hx) y (mem_sorted.mp hy)).le
  · exact (sorted_perm _).trans ((sorted_perm xs).symm.append (sorted_perm ys).symm)

theorem sorted_take_drop {k : ℕ} (h : ∀ x ∈ xs.take k, ∀ y ∈ xs.drop k, x < y) :
    (sorted xs).take k = sorted (xs.take k) ∧ (sorted xs).drop k = sorted (xs.drop k) := by
  have hsplit : sorted xs = sorted (xs.take k) ++ sorted (xs.drop k) := by
    rw [← sorted_append h, take_append_drop]
  rcases le_total k xs.length with hk | hk
  · have hlen : (sorted (xs.take k)).length = k := by simp [hk]
    rw [hsplit]
    exact ⟨take_left' hlen, drop_left' hlen⟩
  · rw [take_of_length_le (by simpa using hk), drop_of_length_le (by simpa using hk),
      take_of_length_le hk, drop_of_length_le hk]
    exact ⟨rfl, rfl⟩

/-- The two lists run through their orders alike. -/
def SameOrder (xs : List α) (ys : List β) : Prop :=
  (∀ p ∈ xs.zip ys, ∀ q ∈ xs.zip ys, p.1 < q.1 ↔ p.2 < q.2) ∧
  (∀ x ∈ xs.take ys.length, ∀ x' ∈ xs.drop ys.length, x < x') ∧
  (∀ y ∈ ys.take xs.length, ∀ y' ∈ ys.drop xs.length, y < y')

instance (xs : List α) (ys : List β) : Decidable (SameOrder xs ys) :=
  inferInstanceAs (Decidable (_ ∧ _ ∧ _))

/-! ### Sorting and pairing -/

variable {ys : List β}

theorem lt_iff_of_mem_zip (hx : xs.Pairwise (· < ·)) (hy : ys.Pairwise (· < ·)) {p q : α × β}
    (hp : p ∈ xs.zip ys) (hq : q ∈ xs.zip ys) : p.1 < q.1 ↔ p.2 < q.2 := by
  obtain ⟨i, hi, rfl⟩ := mem_iff_getElem.mp hp
  obtain ⟨j, hj, rfl⟩ := mem_iff_getElem.mp hq
  rw [length_zip] at hi hj
  simp only [getElem_zip]
  have hxs := pairwise_iff_getElem.mp hx
  have hys := pairwise_iff_getElem.mp hy
  rcases lt_trichotomy i j with hij | rfl | hij
  · exact iff_of_true (hxs i j (by omega) (by omega) hij) (hys i j (by omega) (by omega) hij)
  · exact iff_of_false (lt_irrefl _) (lt_irrefl _)
  · exact iff_of_false (hxs j i (by omega) (by omega) hij).not_gt
      (hys j i (by omega) (by omega) hij).not_gt

/-- Sorting two lists of equal length that compare alike keeps the pairs. -/
theorem zip_sorted_perm (hlen : xs.length = ys.length)
    (h : ∀ p ∈ xs.zip ys, ∀ q ∈ xs.zip ys, p.1 < q.1 ↔ p.2 < q.2) :
    ((sorted xs).zip (sorted ys)).Perm (xs.zip ys) := by
  have hle : ∀ p ∈ xs.zip ys, ∀ q ∈ xs.zip ys, p.1 ≤ q.1 ↔ p.2 ≤ q.2 := by
    intro p hp q hq
    rw [← not_lt, ← not_lt, h q hq p hp]
  -- sort the pairs by their first component; both projections come out sorted
  let ps := (xs.zip ys).insertionSort fun p q => p.1 ≤ q.1
  have hfst : ps.map Prod.fst = sorted xs := by
    have := map_insertionSort (fun p q : α × β => p.1 ≤ q.1) (· ≤ ·) Prod.fst (xs.zip ys)
      (fun _ _ _ _ => Iff.rfl)
    rwa [map_fst_zip hlen.le] at this
  have hsnd : ps.map Prod.snd = sorted ys := by
    have := map_insertionSort (fun p q : α × β => p.1 ≤ q.1) (· ≤ ·) Prod.snd (xs.zip ys) hle
    rwa [map_snd_zip hlen.ge] at this
  rw [← hfst, ← hsnd, zip_map', map_id']
  exact perm_insertionSort _ _

/-- What follows from equal pairs for one side: the unpaired elements lie above. -/
theorem lt_of_mem_drop (hx : xs.Nodup) (h : ∀ p, p ∈ (sorted xs).zip (sorted ys) ↔ p ∈ xs.zip ys)
    {x x' : α} (hmem : x ∈ xs.take ys.length) (hmem' : x' ∈ xs.drop ys.length) : x < x' := by
  -- `x` is among the first of the sorted list, `x'` is not
  obtain ⟨y, hy⟩ := exists_mem_zip_of_mem_take hmem
  have hfront : x ∈ (sorted xs).take ys.length := by
    have := fst_mem_take_of_mem_zip ((h (x, y)).mpr hy)
    rwa [length_sorted] at this
  have hback : x' ∈ (sorted xs).drop ys.length := by
    have hall : x' ∈ sorted xs := mem_sorted.mpr (mem_of_mem_drop hmem')
    rw [← take_append_drop ys.length (sorted xs)] at hall
    rcases mem_append.mp hall with hin | hin
    · obtain ⟨y', hy'⟩ : ∃ y', (x', y') ∈ (sorted xs).zip (sorted ys) :=
        exists_mem_zip_of_mem_take (by rwa [length_sorted])
      have := fst_mem_take_of_mem_zip ((h (x', y')).mp hy')
      exact absurd hmem' (disjoint_take_drop hx le_rfl this)
    · exact hin
  have hpair := sorted_pairwise_lt hx
  rw [← take_append_drop ys.length (sorted xs)] at hpair
  exact (pairwise_append.mp hpair).2.2 x hfront x' hback

/-- **Pairing by rank is pairing by position** exactly for lists in the same order. -/
theorem mem_zip_sorted_iff (hx : xs.Nodup) (hy : ys.Nodup) :
    (∀ p, p ∈ (sorted xs).zip (sorted ys) ↔ p ∈ xs.zip ys) ↔ SameOrder xs ys := by
  constructor
  · intro h
    refine ⟨?_, fun x hx₁ x' hx₂ => lt_of_mem_drop hx h hx₁ hx₂, ?_⟩
    · intro p hp q hq
      exact lt_iff_of_mem_zip (sorted_pairwise_lt hx) (sorted_pairwise_lt hy)
        ((h p).mpr hp) ((h q).mpr hq)
    · have hswap : ∀ p, p ∈ (sorted ys).zip (sorted xs) ↔ p ∈ ys.zip xs := by
        rintro ⟨y, x⟩
        rw [mem_zip_comm, h, mem_zip_comm]
      exact fun y hy₁ y' hy₂ => lt_of_mem_drop hy hswap hy₁ hy₂
  · rintro ⟨hord, hxs, hys⟩ p
    -- cut both lists to the paired parts; sorting respects the cut
    have hx' := (sorted_take_drop hxs).1
    have hy' := (sorted_take_drop hys).1
    rw [zip_eq_zip_take (sorted xs), length_sorted, length_sorted, hx', hy', zip_eq_zip_take xs ys]
    rw [zip_eq_zip_take xs ys] at hord
    exact (zip_sorted_perm (by simp [Nat.min_comm]) hord).mem_iff

end PegaFlow
