/-
PegaFlow/RingSpace.lean

Address arithmetic of a ring of `cap` cells addressed by ever-growing logical
positions, in which a reservation never wraps around the end.
-/
import Mathlib.Data.Nat.ModEq
import Mathlib.Tactic.Linarith

namespace PegaFlow

/-- Where a reservation of `size` cells starts when the head is at `head`. -/
def fitStart (cap head size : ℕ) : ℕ :=
  let spaceUntilEnd := cap - head % cap
  if size > spaceUntilEnd then head + spaceUntilEnd else head

variable {cap head size : ℕ}

theorem le_fitStart : head ≤ fitStart cap head size := by
  unfold fitStart
  dsimp only
  split <;> omega

/-- A reservation lies inside one turn of the ring. -/
theorem fitStart_fits (hcap : 0 < cap) (hsize : size ≤ cap) :
    fitStart cap head size % cap + size ≤ cap := by
  have hlt : head % cap < cap := Nat.mod_lt head hcap
  unfold fitStart
  dsimp only
  split
  · -- the start is the next multiple of the capacity
    have hdiv : head + (cap - head % cap) = cap * (head / cap + 1) := by
      have := Nat.div_add_mod head cap
      rw [mul_add]
      omega
    rw [hdiv, Nat.mul_mod_right]
    omega
  · omega

/-- A grain that divides the ring and its head divides where the next reservation starts. -/
theorem dvd_fitStart {d : ℕ} (hcap : d ∣ cap) (hhead : d ∣ head) : d ∣ fitStart cap head size := by
  have hgap : d ∣ cap - head % cap := Nat.dvd_sub hcap ((Nat.dvd_mod_iff hcap).mpr hhead)
  unfold fitStart
  dsimp only
  split
  · exact Nat.dvd_add hhead hgap
  · exact hhead

/-- Two logical positions less than one turn apart are in different cells. -/
theorem mod_ne_of_lt_add {p q : ℕ} (hpq : p < q) (hq : q < p + cap) : p % cap ≠ q % cap := by
  intro heq
  have hdvd : cap ∣ q - p := (Nat.modEq_iff_dvd' hpq.le).mp heq
  have := Nat.le_of_dvd (by omega) hdvd
  omega

theorem mod_add_of_fits {b i len : ℕ} (hfits : b % cap + len ≤ cap) (hi : i < len) :
    (b + i) % cap = b % cap + i := by
  rw [← Nat.mod_add_mod]
  exact Nat.mod_eq_of_lt (by omega)

/-- **No sharing inside the window.**  If reservation `[b, b+lb)` comes after
`[a, a+la)` and ends no later than one turn after `a`, the two share no cell. -/
theorem cell_ne_of_window {a la b lb i j : ℕ} (ha : a % cap + la ≤ cap) (hb : b % cap + lb ≤ cap)
    (hab : a + la ≤ b) (hwin : b + lb ≤ a + cap) (hi : i < la) (hj : j < lb) :
    a % cap + i ≠ b % cap + j := by
  rw [← mod_add_of_fits ha hi, ← mod_add_of_fits hb hj]
  exact mod_ne_of_lt_add (by omega) (by omega)

end PegaFlow
