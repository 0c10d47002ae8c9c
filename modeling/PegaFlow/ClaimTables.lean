/-
PegaFlow/ClaimTables.lean

Tables that are filled by claims.

A scan enters values for keys.  A free key gets the value, and a key with another value makes the
scan fail.  `Entered` says what is in the table afterwards, and `Enters` adds when the scan does
not fail: if the claims agree with each other and with what was there.  A loop enters the claims
of all its rounds (`Enters.loop`), so a scan needs a lemma about one round only, and which claims
there are does not depend on their order.
-/
import PegaFlow.Loops

namespace PegaFlow

variable {σ K V α : Type*} {ε : Type*}

/-- `T'` has what `T` has and the claims, and nothing else.  A key without `room` stays free. -/
structure Entered (room : K → Prop) (claims : K → V → Prop) (T T' : K → Option V) : Prop where
  kept : ∀ k v, T k = some v → T' k = some v
  claimed : ∀ k v, claims k v → room k → T' k = some v
  only : ∀ k v, T' k = some v → T k = some v ∨ claims k v

section Entered

variable {room : K → Prop} {claims claims₁ claims₂ : K → V → Prop} {T T₁ T' : K → Option V}

theorem Entered.nothing (h : ∀ k v, ¬ claims k v) (T : K → Option V) : Entered room claims T T :=
  ⟨fun _ _ => id, fun k v hclaim => absurd hclaim (h k v), fun _ _ => .inl⟩

theorem Entered.trans (h₁ : Entered room claims₁ T T₁) (h₂ : Entered room claims₂ T₁ T')
    (hclaims : ∀ k v, claims k v ↔ claims₁ k v ∨ claims₂ k v) : Entered room claims T T' := by
  refine ⟨fun k v h => h₂.kept k v (h₁.kept k v h), ?_, ?_⟩
  · intro k v hclaim hroom
    rcases (hclaims k v).mp hclaim with hclaim | hclaim
    · exact h₂.kept k v (h₁.claimed k v hclaim hroom)
    · exact h₂.claimed k v hclaim hroom
  · intro k v hv
    rcases h₂.only k v hv with hv | hclaim
    · exact (h₁.only k v hv).imp id fun hclaim => (hclaims k v).mpr (.inl hclaim)
    · exact .inr ((hclaims k v).mpr (.inr hclaim))

theorem Entered.one [DecidableEq K] {key : K} [Decidable (room key)] {value : V}
    (hfree : T key = none) (h : ∀ k, T' k = if key = k ∧ room key then some value else T k) :
    Entered room (fun k v => k = key ∧ v = value) T T' := by
  refine ⟨?_, ?_, ?_⟩
  · intro k v hv
    rw [h, if_neg, hv]
    rintro ⟨rfl, -⟩
    rw [hfree] at hv
    cases hv
  · rintro k v ⟨rfl, rfl⟩ hroom
    rw [h, if_pos ⟨rfl, hroom⟩]
  · intro k v hv
    rw [h] at hv
    split at hv
    · next hkey => exact .inr ⟨hkey.1.symm, (Option.some.inj hv).symm⟩
    · exact .inl hv

end Entered

/-! ### Lists as tables -/

/-- The entry of a cell, if there is one. -/
def cells (table : List (Option V)) (x : ℕ) : Option V := table.getD x none

theorem cells_set (table : List (Option V)) (i j : ℕ) (v : Option V) :
    cells (table.set i v) j = if i = j ∧ i < table.length then v else cells table j := by
  rw [cells, cells, List.getD_eq_getElem?_getD, List.getElem?_set, List.getD_eq_getElem?_getD]
  split
  · next heq =>
    obtain rfl := heq
    split
    · next hlt => rw [if_pos ⟨rfl, hlt⟩]; rfl
    · next hge => rw [if_neg fun h => hge h.2, List.getElem?_eq_none (Nat.le_of_not_lt hge)]
  · next hne => rw [if_neg fun h => hne h.1]

theorem cells_eq_some {table : List (Option V)} {x : ℕ} {v : V} :
    cells table x = some v ↔ table[x]? = some (some v) := by
  rw [cells, List.getD_eq_getElem?_getD]
  cases table[x]? with
  | none => simp
  | some entry => simp

theorem cells_replicate (n x : ℕ) : cells (List.replicate n (none : Option V)) x = none := by
  rw [cells, List.getD_eq_getElem?_getD, List.getElem?_replicate]
  split <;> rfl

/-! ### Scans -/

/-- The tables of a scan: their invariant, what is read off them, and the keys there is room for. -/
structure ClaimTable (σ K V : Type*) where
  inv : σ → Prop
  read : σ → K → Option V
  room : K → Prop
  room_of_read : ∀ {s k v}, inv s → read s k = some v → room k

namespace ClaimTable

variable (C : ClaimTable σ K V)

/-- The claims do not name two values for a key. -/
def Agree (claims : K → V → Prop) : Prop :=
  ∀ k v v', C.room k → claims k v → claims k v' → v = v'

/-- **The scan enters the claims**, and does so unless they contradict each other or the table. -/
structure Enters (claims : K → V → Prop) (scan : σ → Except ε σ) : Prop where
  entered : ∀ s s', C.inv s → scan s = .ok s' →
    C.inv s' ∧ Entered C.room claims (C.read s) (C.read s')
  accepts : ∀ s, C.inv s → C.Agree claims →
    (∀ k v v', C.read s k = some v → claims k v' → v = v') → ∃ s', scan s = .ok s'

variable {C}

theorem Enters.loop (scan : List α → σ → Except ε σ) (round : α → σ → Except ε σ)
    {claims : α → K → V → Prop} (hnil : ∀ s, scan [] s = .ok s)
    (hcons : ∀ x xs s, scan (x :: xs) s = round x s >>= scan xs) (xs : List α)
    (h : ∀ x ∈ xs, C.Enters (claims x) (round x)) :
    C.Enters (fun k v => ∃ x ∈ xs, claims x k v) (scan xs) := by
  induction xs with
  | nil =>
    have hnone : ∀ k v, ¬ ∃ x ∈ ([] : List α), claims x k v := by simp
    refine ⟨fun s s' hinv hs => ?_, fun s _ _ _ => ⟨s, hnil s⟩⟩
    rw [hnil] at hs
    cases hs
    exact ⟨hinv, .nothing hnone _⟩
  | cons x xs ih =>
    have hround := h x List.mem_cons_self
    have hrest := ih fun y hy => h y (List.mem_cons_of_mem x hy)
    have hclaims : ∀ k v, (∃ y ∈ x :: xs, claims y k v) ↔
        claims x k v ∨ ∃ y ∈ xs, claims y k v := fun k v => List.exists_mem_cons_iff ..
    refine ⟨fun s s' hinv hs => ?_, fun s hinv hagree hread => ?_⟩
    · rw [hcons] at hs
      obtain ⟨s₁, hs₁, hs⟩ := bind_ok hs
      obtain ⟨hinv₁, hentered₁⟩ := hround.entered s s₁ hinv hs₁
      obtain ⟨hinv', hentered⟩ := hrest.entered s₁ s' hinv₁ hs
      exact ⟨hinv', hentered₁.trans hentered hclaims⟩
    · have hfirst : ∀ k v, claims x k v → ∃ y ∈ x :: xs, claims y k v :=
        fun k v hv => (hclaims k v).mpr (.inl hv)
      have hlater : ∀ k v, (∃ y ∈ xs, claims y k v) → ∃ y ∈ x :: xs, claims y k v :=
        fun k v hv => (hclaims k v).mpr (.inr hv)
      obtain ⟨s₁, hs₁⟩ := hround.accepts s hinv
        (fun k v v' hroom hv hv' => hagree k v v' hroom (hfirst k v hv) (hfirst k v' hv'))
        fun k v v' hv hv' => hread k v v' hv (hfirst k v' hv')
      obtain ⟨hinv₁, hentered⟩ := hround.entered s s₁ hinv hs₁
      obtain ⟨s', hs'⟩ := hrest.accepts s₁ hinv₁
        (fun k v v' hroom hv hv' => hagree k v v' hroom (hlater k v hv) (hlater k v' hv'))
        fun k v v' hv hv' => by
          rcases hentered.only k v hv with hold | hclaim
          · exact hread k v v' hold (hlater k v' hv')
          · exact hagree k v v' (C.room_of_read hinv₁ hv) (hfirst k v hclaim) (hlater k v' hv')
      exact ⟨s', by rw [hcons, hs₁]; exact hs'⟩

end ClaimTable

end PegaFlow
