/-
PegaFlow/SizeClasses.lean

Size classes with a mantissa.

The sizes an allocator tells apart are those with at most `bits + 1` significant bits: below
`2 ^ (bits + 1)` every size, and from there on `2 ^ bits` classes for each power of two.  `spacing`
is the distance of the classes around a size.  Rounding down to a multiple of it gives the greatest
class that is not above (`le_roundDown`), and rounding up the least class that is not below
(`roundUp_le`).
-/
import Mathlib.Algebra.Order.Group.Nat

namespace PegaFlow

namespace SizeClasses

variable {bits : ℕ} {c n : ℕ}

/-- The number of binary digits. -/
def bitLength (n : ℕ) : ℕ := if n = 0 then 0 else n.log2 + 1

theorem lt_two_pow_bitLength (n : ℕ) : n < 2 ^ bitLength n := by
  unfold bitLength
  split
  · next h => rw [h]; exact one_pos
  · exact Nat.lt_log2_self

theorem two_pow_le {n k : ℕ} (h : bitLength n = k + 1) : 2 ^ k ≤ n := by
  unfold bitLength at h
  split at h
  · cases h
  · next hne =>
    rw [← Nat.succ.inj h]
    exact Nat.log2_self_le hne

theorem bitLength_le {n k : ℕ} (h : n < 2 ^ k) : bitLength n ≤ k := by
  by_contra hlt
  have hle := two_pow_le (n := n) (k := bitLength n - 1) (by omega)
  exact absurd ((Nat.pow_le_pow_right Nat.two_pos (by omega)).trans hle) (not_le.mpr h)

/-- Digits behind a number that is not zero add to its length. -/
theorem bitLength_mul_add {high low k : ℕ} (hhigh : high ≠ 0) (hlow : low < 2 ^ k) :
    bitLength (high * 2 ^ k + low) = bitLength high + k := by
  have hlt := Nat.lt_log2_self (n := high)
  have hle := Nat.log2_self_le hhigh
  have hpos : high * 2 ^ k + low ≠ 0 := by
    have := Nat.mul_pos (Nat.pos_of_ne_zero hhigh) (Nat.two_pow_pos k)
    omega
  rw [bitLength, bitLength, if_neg hpos, if_neg hhigh,
    (Nat.log2_eq_iff hpos (k := high.log2 + k)).mpr]
  · omega
  · rw [pow_add, add_right_comm, pow_add]
    have hlow' := Nat.mul_le_mul_right (2 ^ k) hle
    have hhigh' := Nat.mul_le_mul_right (2 ^ k) (Nat.succ_le_of_lt hlt)
    rw [Nat.succ_mul] at hhigh'
    omega

/-- At most `bits + 1` significant bits. -/
def IsClass (bits n : ℕ) : Prop :=
  ∃ mantissa exponent, mantissa < 2 ^ (bits + 1) ∧ n = mantissa * 2 ^ exponent

/-- The distance of the classes around a size. -/
def spacing (bits n : ℕ) : ℕ := 2 ^ (bitLength n - (bits + 1))

def roundDown (bits n : ℕ) : ℕ := n / spacing bits n * spacing bits n

def roundUp (bits n : ℕ) : ℕ := (n + spacing bits n - 1) / spacing bits n * spacing bits n

theorem spacing_pos (bits n : ℕ) : 0 < spacing bits n := Nat.two_pow_pos _

theorem lt_mul_spacing (bits n : ℕ) : n < 2 ^ (bits + 1) * spacing bits n := by
  refine (lt_two_pow_bitLength n).trans_le ?_
  rw [spacing, ← pow_add]
  exact Nat.pow_le_pow_right Nat.two_pos (by omega)

/-- Classes are consecutive sizes, or the mantissa is full. -/
theorem spacing_cases (bits n : ℕ) : spacing bits n = 1 ∨ 2 ^ bits * spacing bits n ≤ n := by
  rcases Nat.eq_zero_or_pos (bitLength n - (bits + 1)) with hzero | hpos
  · exact .inl (by rw [spacing, hzero, Nat.pow_zero])
  · refine .inr ?_
    rw [spacing, ← pow_add]
    exact two_pow_le (by omega)

/-- Large classes are multiples of the spacing. -/
theorem IsClass.spacing_dvd (h : IsClass bits c) (hle : 2 ^ bits * spacing bits n ≤ c) :
    spacing bits n ∣ c := by
  obtain ⟨mantissa, exponent, hlt, rfl⟩ := h
  have hpow : 2 ^ (bits + (bitLength n - (bits + 1))) < 2 ^ (bits + 1 + exponent) := by
    rw [pow_add, pow_add]
    exact hle.trans_lt (Nat.mul_lt_mul_of_pos_right hlt (Nat.two_pow_pos _))
  have hexp := (Nat.pow_lt_pow_iff_right Nat.one_lt_two).mp hpow
  exact Nat.dvd_mul_left_of_dvd (Nat.pow_dvd_pow 2 (by omega)) _

/-! ### Rounding down -/

theorem roundDown_le (bits n : ℕ) : roundDown bits n ≤ n := Nat.div_mul_le_self _ _

theorem isClass_roundDown (bits n : ℕ) : IsClass bits (roundDown bits n) :=
  ⟨n / spacing bits n, _, Nat.div_lt_of_lt_mul (Nat.mul_comm _ _ ▸ lt_mul_spacing bits n), rfl⟩

/-- **Rounding down** gives the greatest class that is not above. -/
theorem le_roundDown (h : IsClass bits c) (hle : c ≤ n) : c ≤ roundDown bits n := by
  rcases lt_or_ge c (2 ^ bits * spacing bits n) with hsmall | hlarge
  · rcases spacing_cases bits n with hone | hfull
    · rw [roundDown, hone, Nat.div_one, mul_one]
      exact hle
    · refine hsmall.le.trans (Nat.mul_le_mul_right _ ?_)
      exact (Nat.le_div_iff_mul_le (spacing_pos bits n)).mpr hfull
  · obtain ⟨k, rfl⟩ := h.spacing_dvd hlarge
    rw [mul_comm]
    refine Nat.mul_le_mul_right _ ((Nat.le_div_iff_mul_le (spacing_pos bits n)).mpr ?_)
    rw [mul_comm]
    exact hle

/-! ### Rounding up -/

theorem le_roundUp (bits n : ℕ) : n ≤ roundUp bits n := by
  have hlt := Nat.lt_div_mul_add (a := n + spacing bits n - 1) (spacing_pos bits n)
  unfold roundUp
  omega

theorem isClass_roundUp (bits n : ℕ) : IsClass bits (roundUp bits n) := by
  have hle : (n + spacing bits n - 1) / spacing bits n ≤ 2 ^ (bits + 1) := by
    refine Nat.le_of_lt_succ (Nat.div_lt_of_lt_mul ?_)
    have hlt := lt_mul_spacing bits n
    rw [mul_comm] at hlt
    rw [Nat.mul_succ]
    omega
  rcases Nat.lt_or_eq_of_le hle with hlt | heq
  · exact ⟨_, _, hlt, rfl⟩
  · -- the next power of two
    refine ⟨2 ^ bits, bitLength n - (bits + 1) + 1,
      Nat.pow_lt_pow_right Nat.one_lt_two (by omega), ?_⟩
    rw [roundUp, heq, spacing, pow_succ 2 bits, pow_succ, mul_assoc,
      mul_comm 2 (2 ^ _)]

/-- **Rounding up** gives the least class that is not below. -/
theorem roundUp_le (h : IsClass bits c) (hle : n ≤ c) : roundUp bits n ≤ c := by
  have hpos := spacing_pos bits n
  rcases spacing_cases bits n with hone | hfull
  · rw [roundUp, hone]
    omega
  · obtain ⟨k, rfl⟩ := h.spacing_dvd (hfull.trans hle)
    rw [mul_comm (spacing bits n) k]
    refine Nat.mul_le_mul_right _ (Nat.le_of_lt_succ (Nat.div_lt_of_lt_mul ?_))
    rw [Nat.mul_succ]
    omega

theorem roundUp_mono (bits : ℕ) {n n' : ℕ} (h : n ≤ n') : roundUp bits n ≤ roundUp bits n' :=
  roundUp_le (isClass_roundUp bits n') (h.trans (le_roundUp bits n'))

theorem roundUp_eq_self {c : ℕ} (h : IsClass bits c) : roundUp bits c = c :=
  (roundUp_le h le_rfl).antisymm (le_roundUp bits c)

/-- What is lost is less than the spacing. -/
theorem two_pow_mul_roundUp_sub_le (bits n : ℕ) : 2 ^ bits * (roundUp bits n - n) ≤ n := by
  rcases spacing_cases bits n with hone | hfull
  · rw [roundUp, hone, Nat.div_one, mul_one, Nat.add_sub_cancel, Nat.sub_self]
    exact n.zero_le
  · refine le_trans (Nat.mul_le_mul_left _ ?_) hfull
    have hle := Nat.div_mul_le_self (n + spacing bits n - 1) (spacing bits n)
    unfold roundUp
    omega

end SizeClasses

end PegaFlow
