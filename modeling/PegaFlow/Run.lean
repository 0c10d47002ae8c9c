/-
PegaFlow/Run.lean

Runs of a partial step function.

A component is a function `step : σ → α → Option σ`: the state after one action,
or `none` when the action is not enabled.  Everything the environment decides (which
thread moves, whether an I/O fails, which command arrives) is part of the action, so a
run is just a list of actions and `exec` evaluates it.
-/
import Mathlib.Data.List.Basic

namespace PegaFlow

variable {σ α : Type*} {step : σ → α → Option σ} {s s' : σ} {as bs : List α} {C : σ → α → Prop}
  {a : α}

/-- Run a list of actions from `s`; `none` as soon as one of them is not enabled. -/
def exec (step : σ → α → Option σ) : σ → List α → Option σ
  | s, [] => some s
  | s, a :: as => (step s a).bind fun s' => exec step s' as

/-- `P` holds in every state the run visits, the first one included. -/
def Always (step : σ → α → Option σ) (P : σ → Prop) : σ → List α → Prop
  | s, [] => P s
  | s, a :: as =>
      P s ∧ match step s a with
        | none => True
        | some s' => Always step P s' as

/-- Every step the run takes meets the side condition `C`. -/
def Along (step : σ → α → Option σ) (C : σ → α → Prop) : σ → List α → Prop
  | _, [] => True
  | s, a :: as =>
      match step s a with
      | none => True
      | some s' => C s a ∧ Along step C s' as

/-! ### Evaluating a run -/

theorem exec_cons_some (h : exec step s (a :: as) = some s') :
    ∃ t, step s a = some t ∧ exec step t as = some s' := by
  simpa [exec, Option.bind_eq_some_iff] using h

theorem exec_append {t : σ} (h : exec step s as = some t) (h' : exec step t bs = some s') :
    exec step s (as ++ bs) = some s' := by
  induction as generalizing s with
  | nil =>
    cases h
    exact h'
  | cons a as ih =>
    obtain ⟨middle, hstep, hrest⟩ := exec_cons_some h
    rw [List.cons_append, exec, hstep]
    exact ih hrest

theorem along_cons (h : step s a = some s') :
    Along step C s (a :: as) ↔ C s a ∧ Along step C s' as := by
  simp [Along, h]

variable {P : σ → Prop} {I : σ → Prop}

theorem always_cons (h : step s a = some s') :
    Always step P s (a :: as) ↔ P s ∧ Always step P s' as := by
  simp [Always, h]

theorem along_of_forall {C : α → Prop} (h : ∀ a ∈ as, C a) : Along step (fun _ => C) s as := by
  induction as generalizing s with
  | nil => trivial
  | cons a as ih =>
    rcases hs : step s a with - | s'
    · simp [Along, hs]
    · exact (along_cons hs).mpr
        ⟨h a List.mem_cons_self, ih fun b hb => h b (List.mem_cons_of_mem a hb)⟩

instance Along.decidable (C : σ → α → Prop) [∀ s a, Decidable (C s a)] :
    ∀ (s : σ) (as : List α), Decidable (Along step C s as)
  | _, [] => .isTrue trivial
  | s, a :: as =>
      match h : step s a with
      | none => .isTrue (by simp [Along, h])
      | some s' =>
          have := Along.decidable C s' as
          decidable_of_iff (C s a ∧ Along step C s' as) (along_cons h).symm

/-! ### From one step to a run -/

theorem Always.head (h : Always step P s as) : P s := by
  cases as with
  | nil => exact h
  | cons a as => exact h.1

theorem Always.exec (h : Always step P s as) (hrun : exec step s as = some s') : P s' := by
  induction as generalizing s with
  | nil => cases hrun; exact h
  | cons a as ih =>
    obtain ⟨t, hstep, hrest⟩ := exec_cons_some hrun
    exact ih ((always_cons hstep).mp h).2 hrest

/-- The state a run ends in can refute it. -/
theorem not_always (Q : σ → Prop) [DecidablePred Q] (hQ : ∀ s, P s → Q s)
    (hrun : (exec step s as).all Q = false) : ¬ Always step P s as := by
  intro h
  rcases hs : exec step s as with - | s'
  · rw [hs] at hrun
    cases hrun
  · rw [hs] at hrun
    exact of_decide_eq_false hrun (hQ s' (h.exec hs))

/-- **Invariant rule.**  If `I` survives every step that meets `C`, then it holds in
every state of every run whose steps meet `C`. -/
theorem always_of_along (hkeep : ∀ s a s', I s → C s a → step s a = some s' → I s') (h : I s)
    (halong : Along step C s as) : Always step I s as := by
  induction as generalizing s with
  | nil => exact h
  | cons a as ih =>
    rcases hs : step s a with - | s'
    · simpa [Always, hs] using h
    · obtain ⟨hC, hrest⟩ := (along_cons hs).mp halong
      exact (always_cons hs).mpr ⟨h, ih (hkeep s a s' h hC hs) hrest⟩

/-- What follows of a step from the invariant and `C` holds of every step of the run. -/
theorem along_of_along {C D : σ → α → Prop}
    (hkeep : ∀ s a s', I s → C s a → step s a = some s' → I s') (himp : ∀ s a, I s → C s a → D s a)
    (h : I s) (halong : Along step C s as) : Along step D s as := by
  induction as generalizing s with
  | nil => trivial
  | cons a as ih =>
    rcases hs : step s a with - | s'
    · simp [Along, hs]
    · obtain ⟨hC, hrest⟩ := (along_cons hs).mp halong
      exact (along_cons hs).mpr ⟨himp s a h hC, ih (hkeep s a s' h hC hs) hrest⟩

theorem Along.last {t : σ} (h : Along step C s (as ++ [a])) (hrun : exec step s as = some t)
    (hstep : step t a = some s') : C t a := by
  induction as generalizing s with
  | nil =>
    cases hrun
    exact ((along_cons hstep).mp h).1
  | cons b as ih =>
    obtain ⟨middle, hb, hrest⟩ := exec_cons_some hrun
    exact ih ((along_cons hb).mp h).2 hrest

/-- The invariant rule for an invariant that survives every step. -/
theorem always_of_step (hkeep : ∀ s a s', I s → step s a = some s' → I s') (h : I s) :
    Always step I s as := by
  induction as generalizing s with
  | nil => exact h
  | cons a as ih =>
    rcases hs : step s a with - | s'
    · simpa [Always, hs] using h
    · exact (always_cons hs).mpr ⟨h, ih (hkeep s a s' h hs)⟩

/-- The invariant rule with the events so far at hand: `I past s` relates a state to
the actions that led to it. -/
theorem exec_history {I : List α → σ → Prop}
    (hkeep : ∀ past s a s', I past s → C s a → step s a = some s' → I (past ++ [a]) s')
    (past : List α) (h : I past s) (halong : Along step C s as) (hrun : exec step s as = some s') :
    I (past ++ as) s' := by
  induction as generalizing s past with
  | nil => cases hrun; simpa using h
  | cons a as ih =>
    obtain ⟨t, hstep, hrest⟩ := exec_cons_some hrun
    obtain ⟨hC, halong⟩ := (along_cons hstep).mp halong
    simpa using ih (past ++ [a]) (hkeep past s a t h hC hstep) halong hrest

theorem Always.mono {P Q : σ → Prop} (hPQ : ∀ s, P s → Q s) (h : Always step P s as) :
    Always step Q s as := by
  induction as generalizing s with
  | nil => exact hPQ _ h
  | cons a as ih =>
    rcases hs : step s a with - | s'
    · simpa [Always, hs] using hPQ _ h.head
    · obtain ⟨hP, hrest⟩ := (always_cons hs).mp h
      exact (always_cons hs).mpr ⟨hPQ _ hP, ih hrest⟩

/-- **Exactness rule.**  Under an invariant `I` that implies `P`, if every step
meeting `C` keeps `I` and every step violating `C` lands in a state without `P`, then a
run is safe in all its states exactly when all its steps meet `C`. -/
theorem always_iff_along {I P : σ → Prop} (hsafe : ∀ s, I s → P s)
    (hkeep : ∀ s a s', I s → C s a → step s a = some s' → I s')
    (hbreak : ∀ s a s', I s → ¬ C s a → step s a = some s' → ¬ P s') (h : I s) :
    Always step P s as ↔ Along step C s as := by
  constructor
  · intro halways
    induction as generalizing s with
    | nil => trivial
    | cons a as ih =>
      rcases hs : step s a with - | s'
      · simp [Along, hs]
      · have hrest := ((always_cons hs).mp halways).2
        -- a violating step would already show in the next state
        have hC : C s a := by
          by_contra hn
          exact hbreak s a s' h hn hs hrest.head
        exact (along_cons hs).mpr ⟨hC, ih (hkeep s a s' h hC hs) hrest⟩
  · intro halong
    exact (always_of_along hkeep h halong).mono hsafe

end PegaFlow
