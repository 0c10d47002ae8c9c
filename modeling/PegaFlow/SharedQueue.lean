/-
PegaFlow/SharedQueue.lean

A queue that several consumers scan.

Every element has at most one owner, and a scan by a consumer takes some of the elements it owns,
in the order of the queue, drops elements that nobody wants any more, and leaves everything else
where it is (`Took`).
-/
import Mathlib.Algebra.BigOperators.Group.List.Basic
import Mathlib.Data.List.Induction
import Mathlib.Data.List.Nodup

namespace PegaFlow

open List Function

/-! ### One scan -/

section Took

variable {α β : Type*} {mine dead : α → Bool} {before after taken : List α} {x : α}

/-- A scan turned the queue `before` into `after` and took the elements `taken`. -/
structure Took (mine dead : α → Bool) (before after taken : List α) : Prop where
  order : (taken ++ after.filter mine).Sublist (before.filter mine)
  others : (after.filter fun x => !mine x) = before.filter fun x => !mine x
  settled : ∀ x ∈ before, x ∈ after ∨ x ∈ taken ∨ dead x
  live : ∀ x ∈ taken, dead x = false

theorem Took.refl (mine dead : α → Bool) (queue : List α) : Took mine dead queue queue [] :=
  ⟨List.Sublist.refl _, rfl, fun _ hx => .inl hx, fun _ hx => absurd hx not_mem_nil⟩

theorem Took.trans {mid : List α} (hfirst : Took mine dead before mid [])
    (hsecond : Took mine dead mid after taken) : Took mine dead before after taken := by
  refine ⟨hsecond.order.trans hfirst.order, hsecond.others.trans hfirst.others, ?_, hsecond.live⟩
  intro x hx
  rcases hfirst.settled x hx with hmid | hnil | hdead
  · exact hsecond.settled x hmid
  · exact absurd hnil not_mem_nil
  · exact .inr (.inr hdead)

section

variable (h : Took mine dead before after taken)
include h

theorem Took.filter_eq_nil (hbefore : before.filter mine = []) :
    taken = [] ∧ after.filter mine = [] := by
  have hnil := h.order
  rw [hbefore] at hnil
  exact append_eq_nil_iff.mp (sublist_nil.mp hnil)

theorem Took.subset : after ⊆ before := by
  intro x hx
  cases hmine : mine x with
  | true =>
    have hmem := mem_append_right taken (mem_filter.mpr ⟨hx, hmine⟩)
    exact mem_of_mem_filter (h.order.subset hmem)
  | false =>
    have hmem : x ∈ after.filter fun x => !mine x :=
      mem_filter.mpr ⟨hx, by rw [hmine]; rfl⟩
    rw [h.others] at hmem
    exact mem_of_mem_filter hmem

theorem Took.length_le :
    taken.length + after.length ≤ before.length := by
  have hmine := h.order.length_le
  have hothers := congrArg length h.others
  have hafter := length_eq_length_filter_add (l := after) mine
  have hbefore := length_eq_length_filter_add (l := before) mine
  rw [length_append] at hmine
  omega

/-- An element that stays, because another consumer owns it or because nothing more is taken. -/
theorem Took.keep (x : α) : Took mine dead (before ++ [x]) (after ++ [x]) taken := by
  constructor
  · rw [filter_append, filter_append, ← append_assoc]
    exact h.order.append_right _
  · rw [filter_append, filter_append, h.others]
  · intro y hy
    rcases mem_append.mp hy with hy | hy
    · exact (h.settled y hy).imp (mem_append_left _) id
    · exact .inl (mem_append_right _ hy)
  · exact h.live

end

theorem filter_not_concat (hmine : mine x) (l : List α) :
    ((l ++ [x]).filter fun y => !mine y) = l.filter fun y => !mine y := by
  have hnil : ([x].filter fun y => !mine y) = [] := by
    rw [filter_singleton, hmine]
    rfl
  rw [filter_append, hnil, append_nil]

section

variable (h : Took mine dead before after taken)
include h

theorem Took.drop (hmine : mine x) (hdead : dead x) :
    Took mine dead (before ++ [x]) after taken := by
  constructor
  · rw [filter_append]
    exact h.order.trans (sublist_append_left _ _)
  · rw [filter_not_concat hmine, h.others]
  · intro y hy
    rcases mem_append.mp hy with hy | hy
    · exact h.settled y hy
    · rw [mem_singleton.mp hy]
      exact .inr (.inr hdead)
  · exact h.live

theorem Took.take (hmine : mine x) (hlive : dead x = false) (hnone : after.filter mine = []) :
    Took mine dead (before ++ [x]) after (taken ++ [x]) := by
  have horder := h.order
  rw [hnone, append_nil] at horder
  constructor
  · rw [hnone, append_nil, filter_append, filter_cons_of_pos hmine]
    exact horder.append_right [x]
  · rw [filter_not_concat hmine, h.others]
  · intro y hy
    rcases mem_append.mp hy with hy | hy
    · exact (h.settled y hy).imp id (Or.imp (mem_append_left _) id)
    · exact .inr (.inl (mem_append_right _ hy))
  · intro y hy
    rcases mem_append.mp hy with hy | hy
    · exact h.live y hy
    · rwa [mem_singleton.mp hy]

theorem Took.stop (rest : List α) : Took mine dead (before ++ rest) (after ++ rest) taken := by
  induction rest using reverseRecOn with
  | nil => rwa [append_nil, append_nil]
  | append_singleton rest x ih =>
    rw [← append_assoc, ← append_assoc]
    exact ih.keep x

end

/-- The scan goes on behind a part in which nothing is left for the consumer. -/
theorem Took.skip {before' after' : List α} (h : Took mine dead before after [])
    (hnone : after.filter mine = []) (hrest : Took mine dead before' after' taken) :
    Took mine dead (before ++ before') (after ++ after') taken := by
  constructor
  · rw [filter_append, filter_append, hnone]
    exact hrest.order.trans (sublist_append_right _ _)
  · rw [filter_append, filter_append, h.others, hrest.others]
  · intro x hx
    rcases mem_append.mp hx with hx | hx
    · rcases h.settled x hx with hafter | hnil | hdead
      · exact .inl (mem_append_left _ hafter)
      · exact absurd hnil not_mem_nil
      · exact .inr (.inr hdead)
    · exact (hrest.settled x hx).imp (mem_append_right _) id
  · exact hrest.live

/-- A scan of a part of the data each element holds. -/
theorem Took.map (mine dead : β → Bool) (f : α → β)
    (h : Took (fun x => mine (f x)) (fun x => dead (f x)) before after taken) :
    Took mine dead (before.map f) (after.map f) (taken.map f) := by
  constructor
  · rw [filter_map, filter_map, ← map_append]
    exact h.order.map f
  · rw [filter_map, filter_map]
    exact congrArg (List.map f) h.others
  · intro y hy
    obtain ⟨x, hx, rfl⟩ := mem_map.mp hy
    exact (h.settled x hx).imp mem_map_of_mem (Or.imp mem_map_of_mem id)
  · intro y hy
    obtain ⟨x, hx, rfl⟩ := mem_map.mp hy
    exact h.live x hx

end Took

/-! ### Scans by several consumers -/

section Delivered

variable {α τ : Type*} [DecidableEq τ] {owner : α → Option τ} {dead : α → Bool}
  {reported queue : List α} {sent : τ → List α}

/-- The elements `reported` were put into the queue, of which `queue` is left, and the consumers
got `sent`. -/
structure Delivered (owner : α → Option τ) (dead : α → Bool) (reported queue : List α)
    (sent : τ → List α) : Prop where
  order : ∀ t, (sent t ++ queue.filter fun x => owner x = some t).Sublist
    (reported.filter fun x => owner x = some t)
  settled : ∀ x ∈ reported, x ∈ queue ∨ (∃ t, x ∈ sent t) ∨ dead x
  live : ∀ t, ∀ x ∈ sent t, dead x = false

/-- The queue holds what was reported, except for dead elements. -/
theorem Delivered.start (owner : α → Option τ) {dead drop : α → Bool} (hdrop : ∀ x, drop x → dead x)
    (reported : List α) :
    Delivered owner dead reported (reported.filter fun x => !drop x) fun _ => [] := by
  refine ⟨?_, ?_, fun _ _ hx => absurd hx not_mem_nil⟩
  · exact fun t => filter_sublist.filter _
  · intro x hx
    cases hx' : drop x with
    | true => exact .inr (.inr (hdrop x hx'))
    | false => exact .inl (mem_filter.mpr ⟨hx, by rw [hx']; rfl⟩)

section

variable (h : Delivered owner dead reported queue sent)
include h

theorem Delivered.took {queue' taken : List α} (t : τ)
    (htook : Took (fun x => owner x = some t) dead queue queue' taken) :
    Delivered owner dead reported queue' (update sent t (sent t ++ taken)) := by
  constructor
  · intro t'
    rcases eq_or_ne t' t with rfl | hne
    · rw [update_self, append_assoc]
      exact (htook.order.append_left _).trans (h.order t')
    · -- the elements of another consumer are among those the scan leaves alone
      have hsplit : ∀ l : List α, (l.filter fun x => owner x = some t') =
          (l.filter fun x => !decide (owner x = some t)).filter fun x => owner x = some t' := by
        intro l
        rw [filter_filter]
        refine filter_congr fun x _ => ?_
        rcases eq_or_ne (owner x) (some t') with howner | howner
        · rw [howner, decide_eq_true rfl, decide_eq_false fun h => hne (Option.some.inj h)]
          rfl
        · rw [decide_eq_false howner, Bool.false_and]
      rw [update_of_ne hne, hsplit queue', htook.others, ← hsplit queue]
      exact h.order t'
  · intro x hx
    rcases h.settled x hx with hqueue | ⟨t', hsent⟩ | hdead
    · rcases htook.settled x hqueue with hqueue | htaken | hdead
      · exact .inl hqueue
      · refine .inr (.inl ⟨t, ?_⟩)
        rw [update_self]
        exact mem_append_right _ htaken
      · exact .inr (.inr hdead)
    · refine .inr (.inl ⟨t', ?_⟩)
      rcases eq_or_ne t' t with rfl | hne
      · rw [update_self]
        exact mem_append_left _ hsent
      · rwa [update_of_ne hne]
    · exact .inr (.inr hdead)
  · intro t' x hx
    rcases eq_or_ne t' t with rfl | hne
    · rw [update_self] at hx
      rcases mem_append.mp hx with hx | hx
      · exact h.live t' x hx
      · exact htook.live x hx
    · rw [update_of_ne hne] at hx
      exact h.live t' x hx

theorem Delivered.owner_eq {t : τ} {x : α} (hx : x ∈ sent t) : owner x = some t := by
  have hmem := (h.order t).subset (mem_append_left _ hx)
  exact of_decide_eq_true (mem_filter.mp hmem).2

theorem Delivered.sent_sublist (t : τ) : (sent t).Sublist reported :=
  ((sublist_append_left _ _).trans (h.order t)).trans filter_sublist

end

variable [BEq α] [LawfulBEq α]

theorem Delivered.count_le_one (h : Delivered owner dead reported queue sent)
    (hnodup : reported.Nodup) (t : τ) (x : α) : (sent t).count x ≤ 1 :=
  nodup_iff_count_le_one.mp (hnodup.sublist (h.sent_sublist t)) x

/-- Once the queue is empty, its owner got every live element, and nobody else did. -/
theorem Delivered.count_eq_one (h : Delivered owner dead reported [] sent) (hnodup : reported.Nodup)
    {x : α} (hx : x ∈ reported) (hlive : dead x = false) :
    ∃ t, owner x = some t ∧ (sent t).count x = 1 ∧ ∀ t' ≠ t, (sent t').count x = 0 := by
  rcases h.settled x hx with hnil | ⟨t, hsent⟩ | hdead
  · exact absurd hnil not_mem_nil
  · have howner := h.owner_eq hsent
    refine ⟨t, howner, count_eq_one_of_mem (hnodup.sublist (h.sent_sublist t)) hsent, ?_⟩
    intro t' hne
    rw [count_eq_zero]
    intro hsent'
    have howner' := h.owner_eq hsent'
    rw [howner] at howner'
    exact hne (Option.some.inj howner').symm
  · rw [hlive] at hdead
    cases hdead

end Delivered

end PegaFlow
