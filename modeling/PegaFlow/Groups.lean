/-
PegaFlow/Groups.lean

Grouping a list by key, and cutting a list into chunks.

`groupBy` is the loop `groups.entry(key).or_default().push(x)` over a map that is walked in some
order later.  Reading a grouping back (`ungroup`) gives the entries again, up to their order, and
the chunks of a list give the list.  So whatever is done group by group and chunk by chunk is done
once for every entry.
-/
import Mathlib.Data.List.Perm.Basic

namespace PegaFlow

open List

variable {κ α : Type*} [DecidableEq κ]

/-- Append `x` to the group of `key`. -/
def pushGroup (key : κ) (x : α) : List (κ × List α) → List (κ × List α)
  | [] => [(key, [x])]
  | (key', xs) :: groups =>
    if key' = key then (key', xs ++ [x]) :: groups
    else (key', xs) :: pushGroup key x groups

def groupBy (entries : List (κ × α)) : List (κ × List α) :=
  entries.foldl (fun groups e => pushGroup e.1 e.2 groups) []

/-- The entries of all groups. -/
def ungroup (groups : List (κ × List α)) : List (κ × α) :=
  groups.flatMap fun g => g.2.map fun x => (g.1, x)

theorem ungroup_pushGroup (key : κ) (x : α) (groups : List (κ × List α)) :
    (ungroup (pushGroup key x groups)).Perm (ungroup groups ++ [(key, x)]) := by
  induction groups with
  | nil => exact List.Perm.refl _
  | cons group groups ih =>
    rw [pushGroup]
    split
    · next heq =>
      subst heq
      unfold ungroup
      rw [flatMap_cons, flatMap_cons, map_append, append_assoc,
        append_assoc]
      exact perm_append_comm.append_left _
    · unfold ungroup
      rw [flatMap_cons, flatMap_cons, append_assoc]
      exact ih.append_left _

/-- **A grouping holds every entry once, under its key.** -/
theorem ungroup_groupBy (entries : List (κ × α)) : (ungroup (groupBy entries)).Perm entries := by
  have hfold : ∀ groups : List (κ × List α),
      (ungroup (entries.foldl (fun groups e => pushGroup e.1 e.2 groups) groups)).Perm
        (ungroup groups ++ entries) := by
    induction entries with
    | nil => intro groups; rw [append_nil]; exact List.Perm.refl _
    | cons e entries ih =>
      intro groups
      rw [← singleton_append, ← append_assoc]
      exact (ih _).trans ((ungroup_pushGroup e.1 e.2 groups).append_right _)
  exact hfold []

omit [DecidableEq κ] in
theorem map_snd_ungroup (groups : List (κ × List α)) :
    (ungroup groups).map Prod.snd = groups.flatMap Prod.snd := by
  unfold ungroup
  rw [map_flatMap]
  refine flatMap_congr fun g _ => ?_
  rw [map_map]
  exact map_id _

/-! ### Chunks -/

/-- `xs.chunks(n)`; the fuel is the length of the list. -/
def chunksFrom (n : ℕ) : ℕ → List α → List (List α)
  | 0, _ => []
  | fuel + 1, xs => if xs.isEmpty then [] else xs.take n :: chunksFrom n fuel (xs.drop n)

def chunks (n : ℕ) (xs : List α) : List (List α) := chunksFrom n xs.length xs

theorem length_le_of_mem_chunks {n : ℕ} {xs chunk : List α} (h : chunk ∈ chunks n xs) :
    chunk.length ≤ n := by
  have hfrom : ∀ fuel (xs : List α), chunk ∈ chunksFrom n fuel xs → chunk.length ≤ n := by
    intro fuel
    induction fuel with
    | zero => exact fun _ h => absurd h not_mem_nil
    | succ fuel ih =>
      intro xs h
      rw [chunksFrom] at h
      split at h
      · exact absurd h not_mem_nil
      · rcases mem_cons.mp h with rfl | h
        · exact length_take_le n xs
        · exact ih _ h
  exact hfrom xs.length xs h

theorem flatten_chunks {n : ℕ} (hn : 0 < n) (xs : List α) : (chunks n xs).flatten = xs := by
  have hfrom : ∀ fuel (xs : List α), xs.length ≤ fuel → (chunksFrom n fuel xs).flatten = xs := by
    intro fuel
    induction fuel with
    | zero => exact fun xs hle => (length_eq_zero_iff.mp (Nat.le_zero.mp hle)).symm
    | succ fuel ih =>
      intro xs hle
      rw [chunksFrom]
      split
      · next hempty => exact (List.isEmpty_iff.mp hempty).symm
      · rw [flatten_cons, ih _ (by rw [length_drop]; omega), take_append_drop]
  exact hfrom xs.length xs (Nat.le_refl _)

end PegaFlow
