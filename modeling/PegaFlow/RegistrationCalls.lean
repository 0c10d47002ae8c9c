/-
PegaFlow/RegistrationCalls.lean

The calls that the registration loop makes of the commands it has drained.
-/
import Mathlib.Data.List.Induction
import PegaFlow.Groups
import PegaFlow.OwnerRegistration

namespace PegaFlow.Registration

open List Net

variable {NS H K : Type} [DecidableEq NS] [DecidableEq H] [DecidableEq K]

/-! ### The calls -/

/-- A call, with the generations that stay behind for its reply. -/
inductive Rpc (NS H : Type) where
  | insert (namespc : NS) (applyReclaimableHint : Bool) (chunk : List (H × Option ℕ))
  | remove (namespc : NS) (chunk : List H)

variable (net : List ((NS × H) × PendingOperation))
  {inserts : List ((NS × Bool) × List (H × Option ℕ))} {removes : List (NS × List H)}

/-- The operations that are insertions, by namespace and hint policy. -/
def insertsOf : List ((NS × Bool) × (H × Option ℕ)) :=
  net.filterMap fun
    | (key, .insert hint generation) => some ((key.1, hint), (key.2, generation))
    | (_, .remove) => none

/-- The operations that are removals, by namespace. -/
def removesOf : List (NS × H) :=
  net.filterMap fun
    | (_, .insert _ _) => none
    | (key, .remove) => some key

/-- Insertions first, then removals, each group in chunks. -/
def rpcs (inserts : List ((NS × Bool) × List (H × Option ℕ))) (removes : List (NS × List H)) :
    List (Rpc NS H) :=
  (inserts.flatMap fun g => (chunks maxHashesPerRpc g.2).map (.insert g.1.1 g.1.2)) ++
    removes.flatMap fun g => (chunks maxHashesPerRpc g.2).map (.remove g.1)

namespace Rpc

/-- What the call does, hash by hash. -/
def operations : Rpc NS H → List ((NS × H) × PendingOperation)
  | .insert namespc hint chunk => chunk.map fun r => ((namespc, r.1), .insert hint r.2)
  | .remove namespc chunk => chunk.map fun hash => ((namespc, hash), .remove)

def keys (rpc : Rpc NS H) : List (NS × H) := rpc.operations.map Prod.fst

/-- What a successful call makes of the hashes that the MetaServer lists for this node. -/
def apply (listed : NS × H → Bool) : Rpc NS H → NS × H → Bool
  | .insert namespc _ chunk =>
    fun key => if key ∈ chunk.map fun r => (namespc, r.1) then true else listed key
  | .remove namespc chunk =>
    fun key => if key ∈ chunk.map fun hash => (namespc, hash) then false else listed key

end Rpc

/-! ### The calls are the net -/

/-- The operations in some order. -/
def Net.toList (net : Net K) : List (K × PendingOperation) := net.entries.map fun e => (e.1, e.2)

theorem Net.mem_toList {net : Net K} {e : K × PendingOperation} :
    e ∈ net.toList ↔ net.lookup e.1 = some e.2 := by
  rw [toList, mem_map, ← Option.mem_def, AList.mem_lookup_iff]
  constructor
  · rintro ⟨_, he, rfl⟩
    exact he
  · exact fun he => ⟨_, he, rfl⟩

omit [DecidableEq NS] [DecidableEq H] in
theorem operations_split : ((insertsOf net).map (fun e : (NS × Bool) × (H × Option ℕ) =>
        ((e.1.1, e.2.1), PendingOperation.insert e.1.2 e.2.2)) ++
      (removesOf net).map fun key => (key, PendingOperation.remove)).Perm net := by
  induction net with
  | nil => exact List.Perm.refl _
  | cons e net ih =>
    obtain ⟨key, op⟩ := e
    cases op with
    | insert hint generation => exact ih.cons _
    | remove => exact perm_middle.trans (ih.cons _)

theorem flatMap_chunks {α β : Type} (f : α → β) (xs : List α) :
    ((chunks maxHashesPerRpc xs).flatMap fun chunk => chunk.map f) = xs.map f := by
  rw [flatMap_def, ← map_flatten, flatten_chunks (by decide)]

omit [DecidableEq H] in
/-- **The calls carry every operation of the net once**, in whatever order the maps are walked. -/
theorem operations_rpcs {net : List ((NS × H) × PendingOperation)}
    (hinserts : inserts.Perm (groupBy (insertsOf net)))
    (hremoves : removes.Perm (groupBy (removesOf net))) :
    ((rpcs inserts removes).flatMap Rpc.operations).Perm net := by
  have hin : (ungroup inserts).Perm (insertsOf net) :=
    (hinserts.flatMap_right _).trans (ungroup_groupBy _)
  have hre : (ungroup removes).Perm (removesOf net) :=
    (hremoves.flatMap_right _).trans (ungroup_groupBy _)
  refine List.Perm.trans (.of_eq ?_) (((hin.map _).append (hre.map _)).trans (operations_split net))
  unfold rpcs ungroup
  rw [flatMap_append, flatMap_assoc, flatMap_assoc, map_flatMap,
    map_flatMap]
  refine congrArg₂ _ (flatMap_congr fun g _ => ?_) (flatMap_congr fun g _ => ?_)
  all_goals
    rw [flatMap_map, map_map]
    exact flatMap_chunks _ g.2

theorem foldl_apply {calls : List (Rpc NS H)} {target : NS × H → Bool}
    (h : ∀ rpc ∈ calls, ∀ e ∈ rpc.operations, e.2.isInsert = target e.1) (listed : NS × H → Bool)
    (key : NS × H) :
    calls.foldl Rpc.apply listed key =
      if key ∈ calls.flatMap Rpc.keys then target key else listed key := by
  have happly : ∀ rpc ∈ calls, ∀ listed : NS × H → Bool,
      rpc.apply listed key = if key ∈ rpc.keys then target key else listed key := by
    intro rpc hrpc listed
    by_cases hkey : key ∈ rpc.keys
    · obtain ⟨e, he, rfl⟩ := mem_map.mp hkey
      rw [if_pos hkey, ← h rpc hrpc e he]
      cases rpc with
      | insert namespc hint chunk =>
        obtain ⟨r, hr, rfl⟩ := mem_map.mp he
        exact if_pos (mem_map.mpr ⟨r, hr, rfl⟩)
      | remove namespc chunk =>
        obtain ⟨hash, hhash, rfl⟩ := mem_map.mp he
        exact if_pos (mem_map.mpr ⟨hash, hhash, rfl⟩)
    · rw [if_neg hkey]
      rw [Rpc.keys] at hkey
      cases rpc with
      | insert namespc hint chunk => exact if_neg (by rwa [Rpc.operations, map_map] at hkey)
      | remove namespc chunk => exact if_neg (by rwa [Rpc.operations, map_map] at hkey)
  induction calls generalizing listed with
  | nil => rfl
  | cons rpc calls ih =>
    rw [foldl_cons, ih (fun r hr => h r (mem_cons_of_mem _ hr))
      (rpc.apply listed) fun r hr => happly r (mem_cons_of_mem _ hr),
      happly rpc mem_cons_self, flatMap_cons]
    simp only [mem_append]
    by_cases hkey : key ∈ calls.flatMap Rpc.keys
    · rw [if_pos hkey, if_pos (Or.inr hkey)]
    · rw [if_neg hkey]
      exact if_congr (by simp [hkey]) rfl rfl

/-! ### The net is the last command for each hash -/

namespace Command

def hashes : Command K → List K
  | .insert hashes _ _ => hashes
  | .remove hashes => hashes

/-- What the command asks for one of its hashes. -/
def operation (key : K) : Command K → PendingOperation
  | .insert _ hint generations =>
    .insert hint (if hint then generations.lookup key else none)
  | .remove _ => .remove

end Command

/-- The last command that names the hash. -/
def lastFor (commands : List (Command K)) (key : K) : Option (Command K) :=
  commands.reverse.find? fun command => key ∈ command.hashes

theorem Net.lookup_add (net : Net K) (command : Command K) (key : K) :
    (net.add command).lookup key =
      if key ∈ command.hashes then some (command.operation key) else net.lookup key := by
  cases command with
  | insert hashes hint generations => exact lookup_foldl_insert hashes _ key
  | remove hashes => exact lookup_foldl_insert hashes (fun _ => .remove) key

/-- **The net holds what the last command for a hash asks for.** -/
theorem Net.lookup_drain (commands : List (Command K)) (key : K) :
    (drain commands).lookup key =
      (lastFor commands key).map fun command => command.operation key := by
  induction commands using reverseRecOn with
  | nil => rfl
  | append_singleton commands command ih =>
    rw [drain, foldl_append]
    refine (lookup_add _ command key).trans ?_
    rw [lastFor, reverse_append, reverse_singleton, singleton_append,
      find?_cons]
    by_cases hmem : key ∈ command.hashes
    · rw [if_pos hmem, decide_eq_true hmem]
      rfl
    · rw [if_neg hmem, decide_eq_false hmem]
      exact ih

theorem Net.mem_keys_drain {commands : List (Command K)} {key : K} :
    key ∈ (drain commands).keys ↔ ∃ command ∈ commands, key ∈ command.hashes := by
  have hkeys : key ∈ (drain commands).keys ↔ (lastFor commands key).isSome := by
    rw [← Option.isSome_map, ← lookup_drain, AList.lookup_isSome]
    rfl
  rw [hkeys, lastFor, find?_isSome]
  simp only [mem_reverse, decide_eq_true_eq]

/-! ### The loop -/

omit [DecidableEq NS] [DecidableEq H] in
theorem length_keys_le {rpc : Rpc NS H} (h : rpc ∈ rpcs inserts removes) :
    rpc.keys.length ≤ maxHashesPerRpc := by
  rw [Rpc.keys, length_map]
  rcases mem_append.mp h with h | h
  all_goals
    obtain ⟨g, -, hrpc⟩ := mem_flatMap.mp h
    obtain ⟨chunk, hchunk, rfl⟩ := mem_map.mp hrpc
    rw [Rpc.operations, length_map]
    exact length_le_of_mem_chunks hchunk

/-- **Netting.**  The calls leave the same listing as the commands one by one.  A call carries no
more hashes than allowed, every hash that was named is in one call, once, and what is sent for it,
with the hint policy and the generation of an insertion, is what its last command asks for. -/
theorem registration_netting (commands : List (Command (NS × H)))
    {net : List ((NS × H) × PendingOperation)} {inserts : List ((NS × Bool) × List (H × Option ℕ))}
    {removes : List (NS × List H)} (hnet : net.Perm (drain commands).toList)
    (hinserts : inserts.Perm (groupBy (insertsOf net)))
    (hremoves : removes.Perm (groupBy (removesOf net))) (listed : NS × H → Bool) :
    (rpcs inserts removes).foldl Rpc.apply listed = commands.foldl Command.apply listed ∧
      (∀ rpc ∈ rpcs inserts removes, rpc.keys.length ≤ maxHashesPerRpc) ∧
      (∀ key, ((rpcs inserts removes).flatMap Rpc.keys).count key =
        if ∃ command ∈ commands, key ∈ command.hashes then 1 else 0) ∧
      ∀ rpc ∈ rpcs inserts removes, ∀ e ∈ rpc.operations,
        (lastFor commands e.1).map (fun command => command.operation e.1) = some e.2 := by
  have hops := (operations_rpcs hinserts hremoves).trans hnet
  have hlookup : ∀ rpc ∈ rpcs inserts removes, ∀ e ∈ rpc.operations,
      (drain commands).lookup e.1 = some e.2 := fun rpc hrpc e he =>
    mem_toList.mp (hops.subset (mem_flatMap.mpr ⟨rpc, hrpc, he⟩))
  have hkeys : ((rpcs inserts removes).flatMap Rpc.keys).Perm (drain commands).keys := by
    have hmap := hops.map Prod.fst
    rw [map_flatMap, toList, map_map] at hmap
    exact hmap
  refine ⟨?_, fun rpc hrpc => length_keys_le hrpc, fun key => ?_, fun rpc hrpc e he => ?_⟩
  · rw [← apply_drain]
    funext key
    have htarget : ∀ rpc ∈ rpcs inserts removes, ∀ e ∈ rpc.operations,
        e.2.isInsert = apply listed (drain commands) e.1 := by
      intro rpc hrpc e he
      rw [apply, hlookup rpc hrpc e he]
      rfl
    rw [foldl_apply htarget]
    split
    · rfl
    · next hkey =>
      have hnone := AList.lookup_eq_none.mpr (mt hkeys.mem_iff.mpr hkey)
      rw [apply, hnone]
      rfl
  · rw [hkeys.count_eq]
    split
    · next hnamed =>
      exact count_eq_one_of_mem (drain commands).keys_nodup (mem_keys_drain.mpr hnamed)
    · next hnamed => exact count_eq_zero_of_not_mem (mt mem_keys_drain.mp hnamed)
  · rw [← lookup_drain]
    exact hlookup rpc hrpc e he

/-- A save, a removal and a fetch of one hash, and a save of another one. -/
theorem registration_netting_refetched :
    let commands : List (Command (ℕ × ℕ)) :=
      [.insert [(0, 1), (0, 2)] true ∅, .remove [(0, 1)], .insert [(0, 1)] false ∅]
    let net := (drain commands).toList
    (rpcs (groupBy (insertsOf net)) (groupBy (removesOf net))).foldl Rpc.apply (fun _ => false) =
      commands.foldl Command.apply fun _ => false :=
  (registration_netting _ (.refl _) (.refl _) (.refl _) _).1

end PegaFlow.Registration
