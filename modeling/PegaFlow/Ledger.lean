/-
PegaFlow/Ledger.lean

Programs that are handed tokens and have to account for them.

A program calls a service.  With an answer it may be handed a token, which it owns from then on
and may give back.  Programs are trees (`Prog`): what a program does next depends on the answer,
and an exception is a result like any other.  `Prog.run` runs a program on a ledger, which holds
the answers to come, the calls made, how many tokens were handed out and which were given back.
-/
import Mathlib.Data.List.Nodup
import Mathlib.Data.List.Perm.Basic
import Mathlib.Data.List.Range

namespace PegaFlow

open List

/-! ### Programs -/

/-- A program: a result, a call followed by what the answer and its token lead to, or tokens
given back. -/
inductive Prog (Call Reply α : Type) where
  | done (result : Except String α)
  | ask (call : Call) (next : Reply → Option ℕ → Prog Call Reply α)
  | giveBack (tokens : List ℕ) (next : Prog Call Reply α)

namespace Prog

variable {Call Reply α β : Type}

/-- Go on with the result, whatever it is. -/
def andThen : Prog Call Reply α → (Except String α → Prog Call Reply β) → Prog Call Reply β
  | done result, k => k result
  | ask call next, k => ask call fun reply token => (next reply token).andThen k
  | giveBack tokens next, k => giveBack tokens (next.andThen k)

variable (m : Prog Call Reply α)

def bind (k : α → Prog Call Reply β) : Prog Call Reply β :=
  m.andThen fun
    | .ok a => k a
    | .error e => done (.error e)

def tryCatch (handler : String → Prog Call Reply α) : Prog Call Reply α :=
  m.andThen fun
    | .ok a => done (.ok a)
    | .error e => handler e

instance : Monad (Prog Call Reply) where
  pure a := done (.ok a)
  bind

def throw (message : String) : Prog Call Reply α := done (.error message)

/-- A computation without calls. -/
def lift (result : Except String α) : Prog Call Reply α := done result

def call (c : Call) : Prog Call Reply (Reply × Option ℕ) :=
  ask c fun reply token => done (.ok (reply, token))

def release (tokens : List ℕ) : Prog Call Reply Unit := giveBack tokens (done (.ok ()))

/-- `try: m`, `except: cleanup; raise` -/
def onError (cleanup : Prog Call Reply Unit) : Prog Call Reply α :=
  m.tryCatch fun e => cleanup.bind fun _ => throw e

end Prog

/-! ### Runs -/

/-- The answers to come, the calls made with their answers, the number of tokens handed out (the
next token is this number), and the tokens given back. -/
structure Ledger (Call Reply : Type) where
  replies : List Reply
  log : List (Call × Reply)
  handed : ℕ
  released : List ℕ

variable {Call Reply α β : Type} [Inhabited Reply] {log : List (Call × Reply)}

/-- The ledger after a call.  When no answer is left, it is the default one. -/
def Ledger.answer (leased : Reply → Bool) (w : Ledger Call Reply) (call : Call) :
    Ledger Call Reply where
  replies := w.replies.tail
  log := w.log ++ [(call, w.replies.headD default)]
  handed := if leased (w.replies.headD default) then w.handed + 1 else w.handed
  released := w.released

/-- Run a program; `leased` says which answers come with a token. -/
def Prog.run (leased : Reply → Bool) :
    Prog Call Reply α → Ledger Call Reply → Except String α × Ledger Call Reply
  | done result, w => (result, w)
  | ask call next, w =>
      (next (w.replies.headD default)
        (if leased (w.replies.headD default) then some w.handed else none)).run leased
          (w.answer leased call)
  | giveBack tokens next, w => next.run leased { w with released := w.released ++ tokens }

/-- The answers of a log meet `R`, with the tokens from `next` on. -/
def Prog.Answered (leased : Reply → Bool) (R : Call → Reply → Option ℕ → Prop) :
    ℕ → List (Call × Reply) → Prop
  | _, [] => True
  | next, (call, reply) :: log =>
    R call reply (if leased reply then some next else none) ∧
      Prog.Answered leased R (if leased reply then next + 1 else next) log

omit [Inhabited Reply] in
theorem Prog.answered_of_forall {leased : Reply → Bool} {R : Call → Reply → Option ℕ → Prop}
    (h : ∀ e ∈ log, ∀ token, R e.1 e.2 token) (next : ℕ) : Prog.Answered leased R next log := by
  induction log generalizing next with
  | nil => trivial
  | cons e log ih => exact ⟨h e mem_cons_self _, ih (fun e he => h e (mem_cons_of_mem _ he)) _⟩

theorem Prog.exists_log_run (leased : Reply → Bool) (m : Prog Call Reply α)
    (w : Ledger Call Reply) :
    ∃ log, (m.run leased w).2.log = w.log ++ log ∧
      (m.run leased w).2.handed = w.handed + log.countP (fun e => leased e.2) := by
  induction m generalizing w with
  | done result => exact ⟨[], (append_nil _).symm, rfl⟩
  | ask call next ih =>
    obtain ⟨log, hlog, hhanded⟩ := ih (w.replies.headD default)
      (if leased (w.replies.headD default) then some w.handed else none) (w.answer leased call)
    refine ⟨(call, w.replies.headD default) :: log, ?_, ?_⟩
    · rw [run, hlog, Ledger.answer, append_assoc, singleton_append]
    · rw [run, hhanded, countP_cons, Ledger.answer]
      dsimp only
      split <;> omega
  | giveBack tokens next ih => exact ih { w with released := w.released ++ tokens }

/-! ### Specifications -/

/-- A program that owns `A`: whatever tokens it is handed, it gives back only what it owns, and
its result and what it owns at the end meet `Q`.  Only answers that meet `R` with their token are
considered.  A new token is none of those owned. -/
def Spec (leased : Reply → Bool) (R : Call → Reply → Option ℕ → Prop) :
    Prog Call Reply α → List ℕ → (Except String α → List ℕ → Prop) → Prop
  | .done result, A, Q => ∃ B, A.Perm B ∧ Q result B
  | .ask call next, A, Q => ∀ reply token, token.isSome = leased reply → (∀ t ∈ token, t ∉ A) →
      R call reply token → Spec leased R (next reply token) (token.toList ++ A) Q
  | .giveBack tokens next, A, Q => ∃ B, A.Perm (tokens ++ B) ∧ Spec leased R next B Q

namespace Spec

variable {leased : Reply → Bool} {R : Call → Reply → Option ℕ → Prop} {m : Prog Call Reply α}
  {A A' F : List ℕ} {Q Q' : Except String α → List ℕ → Prop}
  {Q₂ : Except String β → List ℕ → Prop}

section Rules

omit [Inhabited Reply]

section

variable (h : Spec leased R m A Q)
include h

theorem perm (hperm : A.Perm A') : Spec leased R m A' Q := by
  induction m generalizing A A' with
  | done result =>
    obtain ⟨B, hB, hQ⟩ := h
    exact ⟨B, hperm.symm.trans hB, hQ⟩
  | ask call next ih =>
    intro reply token hleased hnew hR
    refine ih _ _ (h reply token hleased ?_ hR) (hperm.append_left _)
    exact fun t ht hmem => hnew t ht (hperm.mem_iff.mp hmem)
  | giveBack tokens next ih =>
    obtain ⟨B, hB, hnext⟩ := h
    exact ⟨B, hperm.symm.trans hB, hnext⟩

theorem mono (hQ : ∀ result B, Q result B → Q' result B) : Spec leased R m A Q' := by
  induction m generalizing A with
  | done result =>
    obtain ⟨B, hB, hres⟩ := h
    exact ⟨B, hB, hQ result B hres⟩
  | ask call next ih =>
    exact fun reply token hleased hnew hR => ih _ _ (h reply token hleased hnew hR)
  | giveBack tokens next ih =>
    obtain ⟨B, hB, hnext⟩ := h
    exact ⟨B, hB, ih hnext⟩

theorem frame :
    Spec leased R m (A ++ F) fun result B => ∃ B', Q result B' ∧ B = B' ++ F := by
  induction m generalizing A with
  | done result =>
    obtain ⟨B, hB, hQ⟩ := h
    exact ⟨B ++ F, hB.append_right F, B, hQ, rfl⟩
  | ask call next ih =>
    intro reply token hleased hnew hR
    rw [← append_assoc]
    refine ih _ _ (h reply token hleased ?_ hR)
    exact fun t ht hmem => hnew t ht (mem_append_left _ hmem)
  | giveBack tokens next ih =>
    obtain ⟨B, hB, hnext⟩ := h
    exact ⟨B ++ F, by rw [← append_assoc]; exact hB.append_right F, ih hnext⟩

theorem nodup (hA : A.Nodup) : Spec leased R m A fun result B => Q result B ∧ B.Nodup := by
  induction m generalizing A with
  | done result =>
    obtain ⟨B, hB, hQ⟩ := h
    exact ⟨B, hB, hQ, hB.nodup_iff.mp hA⟩
  | ask call next ih =>
    intro reply token hleased hnew hR
    refine ih _ _ (h reply token hleased hnew hR) ?_
    cases token with
    | none => exact hA
    | some t => exact nodup_cons.mpr ⟨hnew t rfl, hA⟩
  | giveBack tokens next ih =>
    obtain ⟨B, hB, hnext⟩ := h
    exact ⟨B, hB, ih hnext (nodup_append.mp (hB.nodup_iff.mp hA)).2.1⟩

theorem andThen {k : Except String α → Prog Call Reply β}
    (hk : ∀ result B, Q result B → Spec leased R (k result) B Q₂) :
    Spec leased R (m.andThen k) A Q₂ := by
  induction m generalizing A with
  | done result =>
    obtain ⟨B, hB, hQ⟩ := h
    exact (hk result B hQ).perm hB.symm
  | ask call next ih =>
    exact fun reply token hleased hnew hR => ih _ _ (h reply token hleased hnew hR)
  | giveBack tokens next ih =>
    obtain ⟨B, hB, hnext⟩ := h
    exact ⟨B, hB, ih hnext⟩

end

theorem done {result : Except String α} (h : Q result A) : Spec leased R (.done result) A Q :=
  ⟨A, .refl _, h⟩

variable {k : α → Prog Call Reply β}

theorem bind (h : Spec leased R m A Q) (hok : ∀ a B, Q (.ok a) B → Spec leased R (k a) B Q₂)
    (herror : ∀ e B, Q (.error e) B → Q₂ (.error e) B) : Spec leased R (m >>= k) A Q₂ := by
  refine andThen h ?_
  rintro (e | a) B hQ
  · exact done (herror e B hQ)
  · exact hok a B hQ

theorem tryCatch {handler : String → Prog Call Reply α} (h : Spec leased R m A Q)
    (hok : ∀ a B, Q (.ok a) B → Q' (.ok a) B)
    (herror : ∀ e B, Q (.error e) B → Spec leased R (handler e) B Q') :
    Spec leased R (m.tryCatch handler) A Q' := by
  refine andThen h ?_
  rintro (e | a) B hQ
  · exact herror e B hQ
  · exact done (hok a B hQ)

/-! #### What a program returns -/

/-- A program that returns `a` owns `owned a`; a program that raises owns nothing, if answers are
`fair`.  It raises only if `raises`. -/
def Returns (fair : Prop) (owned : α → List ℕ) (post : α → Prop) (raises : Prop) :
    Except String α → List ℕ → Prop
  | .ok a, B => B = owned a ∧ post a
  | .error _, B => (fair → B = []) ∧ raises

variable {owned : α → List ℕ} {post : α → Prop} {owned' : β → List ℕ} {post' : β → Prop}
  {fair raises : Prop}

theorem pure {a : α} (hA : A.Perm (owned a)) (hpost : post a) :
    Spec leased R (Pure.pure a) A (Returns fair owned post raises) :=
  ⟨owned a, hA, rfl, hpost⟩

theorem throw (message : String) (hA : fair → A = []) (h : raises) :
    Spec leased R (.throw message) A (Returns fair owned post raises) :=
  done ⟨hA, h⟩

theorem release {tokens : List ℕ} (hA : A.Perm (tokens ++ F)) :
    Spec leased R (.release tokens) A (Returns fair (fun _ => F) (fun _ => True) raises) :=
  ⟨F, hA, done ⟨rfl, trivial⟩⟩

theorem call (c : Call) :
    Spec leased R (.call c) [] (Returns fair (fun a => a.2.toList)
      (fun a => R c a.1 a.2 ∧ a.2.isSome = leased a.1) raises) :=
  fun _ _ hleased _ hR => done ⟨append_nil _, hR, hleased⟩

section

variable (h : Spec leased R m A (Returns fair owned post raises))
include h

theorem seq (hk : ∀ a, post a → Spec leased R (k a) (owned a) (Returns fair owned' post' raises)) :
    Spec leased R (m >>= k) A (Returns fair owned' post' raises) := by
  refine h.bind ?_ fun _ _ h => h
  rintro a B ⟨rfl, hpost⟩
  exact hk a hpost

theorem conseq {post₂ : α → Prop} (hpost : ∀ a, post a → post₂ a) :
    Spec leased R m A (Returns fair owned post₂ raises) := by
  refine h.mono ?_
  rintro (e | a) B ⟨hB, hpost'⟩
  · exact ⟨hB, hpost'⟩
  · exact ⟨hB, hpost a hpost'⟩

theorem seqNodup (hA : A.Nodup) (hk : ∀ a, post a → (owned a).Nodup →
      Spec leased R (k a) (owned a) (Returns fair owned' post' raises)) :
    Spec leased R (m >>= k) A (Returns fair owned' post' raises) := by
  refine (h.nodup hA).bind ?_ fun _ _ h => h.1
  rintro a B ⟨⟨rfl, hpost⟩, hB⟩
  exact hk a hpost hB

theorem guarded {cleanup : Prog Call Reply Unit}
    (hcleanup : Spec leased R cleanup F (Returns fair (fun _ => []) (fun _ => True) raises)) :
    Spec leased R (m.onError cleanup) (A ++ F)
      (Returns fair (fun a => owned a ++ F) post raises) := by
  refine (frame h).tryCatch ?_ ?_
  · rintro a B ⟨B', ⟨rfl, hpost⟩, rfl⟩
    exact ⟨rfl, hpost⟩
  · rintro e B ⟨B', ⟨hB', hraises⟩, rfl⟩
    refine ((frame hcleanup).perm perm_append_comm).bind ?_ ?_
    · rintro _ B ⟨_, ⟨rfl, -⟩, rfl⟩
      exact throw e hB' hraises
    · rintro e' B ⟨B'', ⟨hB'', -⟩, rfl⟩
      exact ⟨fun hfair => by rw [hB'' hfair, hB' hfair]; rfl, hraises⟩

/-- A program that runs while `F` is owned and is not guarded: with fair answers it does not
raise. -/
theorem unguarded (hno : fair → ¬ raises) :
    Spec leased R m (A ++ F) (Returns fair (fun a => owned a ++ F) post raises) := by
  refine (frame h).mono ?_
  rintro (e | a) B ⟨B', ⟨hB, hpost⟩, rfl⟩
  · exact ⟨fun hfair => absurd hpost (hno hfair), hpost⟩
  · exact ⟨congrArg (· ++ F) hB, hpost⟩

theorem weaken {raises' : Prop} (hraises : raises → raises') :
    Spec leased R m A (Returns fair owned post raises') := by
  refine h.mono ?_
  rintro (e | a) B ⟨hB, hpost⟩
  · exact ⟨hB, hraises hpost⟩
  · exact ⟨hB, hpost⟩

end

end Rules

theorem run {w : Ledger Call Reply} (h : Spec leased R m A Q) (hA : A.Nodup)
    (hlt : ∀ token ∈ A, token < w.handed) (hlog : (m.run leased w).2.log = w.log ++ log)
    (hanswered : Prog.Answered leased R w.handed log) :
    w.handed ≤ (m.run leased w).2.handed ∧ ∃ given B,
      (m.run leased w).2.released = w.released ++ given ∧ Q (m.run leased w).1 B ∧
      (given ++ B).Perm (A ++ range' w.handed ((m.run leased w).2.handed - w.handed)) := by
  induction m generalizing A w log with
  | done result =>
    obtain ⟨B, hB, hQ⟩ := h
    refine ⟨le_refl _, [], B, (append_nil _).symm, hQ, ?_⟩
    show ([] ++ B).Perm (A ++ range' w.handed (w.handed - w.handed))
    rw [Nat.sub_self, range'_zero, append_nil]
    exact hB.symm
  | ask call next ih =>
    -- the first entry of the log is this call
    obtain ⟨rest, hrest, -⟩ := Prog.exists_log_run leased (next (w.replies.headD default)
      (if leased (w.replies.headD default) then some w.handed else none)) (w.answer leased call)
    obtain rfl : log = (call, w.replies.headD default) :: rest := by
      rw [Prog.run, hrest, Ledger.answer, append_assoc] at hlog
      exact (append_cancel_left hlog).symm
    obtain ⟨hR, hanswered⟩ := hanswered
    rw [Prog.run] at hlog ⊢
    by_cases hleased : leased (w.replies.headD default)
    · have hhanded : (w.answer leased call).handed = w.handed + 1 := if_pos hleased
      rw [if_pos hleased] at hR hanswered hrest ⊢
      have hfresh : w.handed ∉ A := fun hmem => lt_irrefl _ (hlt _ hmem)
      obtain ⟨hle, given, B, hgiven, hQ, hperm⟩ := ih _ _
        (h _ (some w.handed) hleased.symm (by rintro _ ⟨⟩; exact hfresh) hR)
        (nodup_cons.mpr ⟨hfresh, hA⟩) (by
          intro token htoken
          rw [hhanded]
          rcases mem_cons.mp htoken with rfl | htoken
          · exact Nat.lt_succ_self _
          · exact Nat.lt_succ_of_lt (hlt token htoken)) hrest (by rwa [hhanded])
      refine ⟨by omega, given, B, hgiven, hQ, hperm.trans ?_⟩
      obtain ⟨n, hn⟩ : ∃ n, ((next (w.replies.headD default) (some w.handed)).run leased
          (w.answer leased call)).2.handed = w.handed + (n + 1) :=
        Nat.exists_eq_add_of_lt (by omega)
      rw [hn, hhanded, Nat.add_sub_cancel_left, range'_succ,
        show w.handed + (n + 1) - (w.handed + 1) = n by omega]
      exact perm_middle.symm
    · have hhanded : (w.answer leased call).handed = w.handed := if_neg hleased
      rw [if_neg hleased] at hR hanswered hrest ⊢
      have hnext := ih _ _ (h _ none (Bool.not_eq_true _ ▸ hleased).symm nofun hR) hA
        (by rwa [hhanded]) hrest (by rwa [hhanded])
      rwa [hhanded] at hnext
  | giveBack tokens next ih =>
    obtain ⟨B₀, hB₀, hnext⟩ := h
    rw [Prog.run] at hlog ⊢
    have hA' : (tokens ++ B₀).Nodup := hB₀.nodup_iff.mp hA
    have hlt' : ∀ token ∈ B₀, token < w.handed := fun token htoken =>
      hlt token (hB₀.mem_iff.mpr (mem_append_right _ htoken))
    obtain ⟨hle, given, B, hgiven, hQ, hperm⟩ :=
      ih (w := { w with released := w.released ++ tokens }) hnext
        (nodup_append.mp hA').2.1 hlt' hlog hanswered
    refine ⟨hle, tokens ++ given, B, ?_, hQ, ?_⟩
    · rw [hgiven, append_assoc]
    · calc (tokens ++ given ++ B).Perm (tokens ++ (given ++ B)) := .of_eq (append_assoc _ _ _)
        List.Perm _ (tokens ++ (B₀ ++ _)) := hperm.append_left tokens
        List.Perm _ (A ++ _) := by
          rw [← append_assoc]
          exact hB₀.symm.append_right _

end Spec

end PegaFlow
