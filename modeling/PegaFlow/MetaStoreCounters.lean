/-
PegaFlow/MetaStoreCounters.lean

The redundancy counters of the MetaServer's store.
-/
import PegaFlow.MetaStore
import PegaFlow.Run
import Mathlib.Tactic.Abel

namespace PegaFlow.MetaStore

open AtomicOp Store

variable {K N S : Type} [DecidableEq K] [DecidableEq N] [DecidableEq S]

/-! ### What the counters should read -/

variable (c : Counter) (count : ℕ)

/-- What a key with `count` owners adds to a counter. -/
def weight : ℕ :=
  if c = .copies then count else if bucket count = some c then 1 else 0

/-- The number of keys of a bucket, or of stored owners. -/
def stored (blocks : AList fun _ : K => Owners N S) : ℕ :=
  keyedSum (fun owners : Owners N S => weight c owners.entries.length) blocks

/-- What an atomic operation adds to a counter. -/
def AtomicOp.delta : AtomicOp → UInt64
  | .fetchAdd c' n => if c' = c then UInt64.ofNat n else 0
  | .fetchSub c' n => if c' = c then -UInt64.ofNat n else 0

def pending (ops : List AtomicOp) : UInt64 := (ops.map (delta c)).sum

theorem AtomicOp.apply_eq (op : AtomicOp) (counters : RedundancyCounters) (c : Counter) :
    op.apply counters c = counters c + op.delta c := by
  cases op with
  | fetchAdd c' n =>
    rw [apply, delta, Function.update_apply]
    rcases eq_or_ne c c' with rfl | hne
    · rw [if_pos rfl, if_pos rfl]
    · rw [if_neg hne, if_neg hne.symm, add_zero]
  | fetchSub c' n =>
    rw [apply, delta, Function.update_apply]
    rcases eq_or_ne c c' with rfl | hne
    · rw [if_pos rfl, if_pos rfl, sub_eq_add_neg]
    · rw [if_neg hne, if_neg hne.symm, add_zero]

theorem pending_append (ops ops' : List AtomicOp) :
    pending c (ops ++ ops') = pending c ops + pending c ops' := by
  rw [pending, List.map_append, List.sum_append]
  rfl

theorem bucket_ne_copies : bucket count ≠ some .copies := by
  unfold bucket
  split <;> simp

/-- What the bucket of a key contributes. -/
def inBucket : UInt64 := if bucket count = some c then 1 else 0

theorem pending_leave_bucket :
    pending c ((bucket count).toList.map fun c' => .fetchSub c' 1) = -inBucket c count := by
  unfold inBucket
  cases bucket count with
  | none => simp [pending]
  | some c' => by_cases h : c' = c <;> simp [pending, delta, h]

theorem pending_enter_bucket :
    pending c ((bucket count).toList.map fun c' => .fetchAdd c' 1) = inBucket c count := by
  unfold inBucket
  cases bucket count with
  | none => simp [pending]
  | some c' => by_cases h : c' = c <;> simp [pending, delta, h]

theorem ofNat_weight : UInt64.ofNat (weight c count) =
    if c = .copies then UInt64.ofNat count else inBucket c count := by
  unfold weight inBucket
  split
  · rfl
  split
  · rfl
  · rfl

theorem pending_copies (before after : ℕ) :
    pending c [if after > before then .fetchAdd .copies (after - before)
      else .fetchSub .copies (before - after)] =
        if c = .copies then UInt64.ofNat after - UInt64.ofNat before else 0 := by
  rcases eq_or_ne c .copies with rfl | hc
  · split
    · next h => simp [pending, delta, UInt64.ofNat_sub h.le]
    · next h =>
      have hle : after ≤ before := Nat.le_of_not_lt h
      simp [pending, delta, UInt64.ofNat_sub hle]
  · split <;> simp [pending, delta, hc.symm]

theorem pending_adjust (before after : ℕ) : pending c (adjust before after) =
      UInt64.ofNat (weight c after) - UInt64.ofNat (weight c before) := by
  unfold adjust
  split
  · next heq => rw [heq, sub_self]; rfl
  · rw [pending_append, pending_append, pending_leave_bucket, pending_enter_bucket,
      pending_copies, ofNat_weight, ofNat_weight]
    rcases eq_or_ne c .copies with rfl | hc
    · have hbucket : ∀ count, inBucket .copies count = 0 :=
        fun count => if_neg (bucket_ne_copies count)
      rw [if_pos rfl, if_pos rfl, if_pos rfl, hbucket, hbucket]
      abel
    · rw [if_neg hc, if_neg hc, if_neg hc]
      abel

/-! ### The sum of a counter and what is pending -/

/-- What all calls in progress have still to add to a counter. -/
def pendingTotal (s : Store K N S) : UInt64 :=
  keyedSum (fun t : Thread K N S => pending c t.atomics) s.threads

structure Counted (s : Store K N S) : Prop where
  balance : ∀ c, s.redundancy c + pendingTotal c s = UInt64.ofNat (stored c s.blocks)
  nonempty : ∀ key owners, s.blocks.lookup key = some owners → owners.entries ≠ []

section Threads

variable {s s' : Store K N S} {pid : ℕ}

omit [DecidableEq S] in
theorem pendingTotal_erase (h : Settled s pid) (c : Counter) :
    keyedSum (fun t : Thread K N S => pending c t.atomics) (s.threads.erase pid) =
      pendingTotal c s := by
  unfold pendingTotal
  cases hlookup : s.threads.lookup pid with
  | none => exact keyedSum_erase_of_lookup_none _ hlookup
  | some t =>
    rw [keyedSum_of_lookup _ hlookup, h t hlookup]
    exact (zero_add _).symm

omit [DecidableEq S] in
theorem pendingTotal_setThread (h : Settled s pid) (c : Counter) (t : Thread K N S) :
    pendingTotal c (s.setThread pid t) = pending c t.atomics + pendingTotal c s := by
  show keyedSum _ (s.threads.insert pid t) = _
  rw [keyedSum_insert, pendingTotal_erase h]

omit [DecidableEq S] in
theorem Counted.frame (h : Counted s) (hblocks : s'.blocks = s.blocks)
    (hredundancy : s'.redundancy = s.redundancy)
    (hthreads : ∀ c, pendingTotal c s' = pendingTotal c s) : Counted s' := by
  refine ⟨?_, ?_⟩
  · intro c
    rw [hblocks, hredundancy, hthreads]
    exact h.balance c
  · rw [hblocks]
    exact h.nonempty

omit [DecidableEq S] in
theorem Counted.setIdle (h : Counted s) (hpid : Settled s pid) (proc : Proc K N S) :
    Counted (s.setThread pid (idle proc)) := by
  refine h.frame rfl rfl fun c => ?_
  rw [pendingTotal_setThread hpid]
  exact zero_add _

omit [DecidableEq S] in
theorem Counted.endThread (h : Counted s) (hpid : Settled s pid) : Counted (s.endThread pid) :=
  h.frame rfl rfl fun c => pendingTotal_erase hpid c

omit [DecidableEq S] in
theorem stored_eq (s : Store K N S) (key : K) (c : Counter) :
    stored c s.blocks = weight c (s.ownerCount key) + stored c (s.blocks.erase key) := by
  unfold stored ownerCount
  cases hlookup : s.blocks.lookup key with
  | none =>
    have hzero : weight c 0 = 0 := by cases c <;> rfl
    rw [hzero, zero_add, keyedSum_erase_of_lookup_none _ hlookup]
  | some owners => exact keyedSum_of_lookup _ hlookup

omit [DecidableEq S] in
theorem stored_setOwners (s : Store K N S) (key : K) (owners : Owners N S) (c : Counter) :
    stored c (s.setOwners key owners).blocks =
      weight c owners.entries.length + stored c (s.blocks.erase key) := by
  unfold setOwners
  split
  · next hempty =>
    have hzero : weight c 0 = 0 := by cases c <;> rfl
    rw [List.isEmpty_iff.mp hempty, List.length_nil, hzero, zero_add]
  · exact keyedSum_insert _

omit [DecidableEq K] [DecidableEq N] [DecidableEq S] in
theorem pending_adjusting (proc : Proc K N S) (key : K) (before after : ℕ) :
    pending c (adjusting proc key before after).atomics =
      UInt64.ofNat (weight c after) - UInt64.ofNat (weight c before) := by
  rw [← pending_adjust]
  unfold adjusting
  split
  · next hempty => rw [List.isEmpty_iff.mp hempty]; rfl
  · rfl

omit [DecidableEq S] in
theorem Counted.writeOwners (h : Counted s) (hpid : Settled s pid) (key : K) (owners : Owners N S)
    (next : Proc K N S) : Counted (s.writeOwners pid key owners next) := by
  constructor
  · intro c
    have hpid' : Settled (s.setOwners key owners) pid := hpid
    have hbalance : s.redundancy c + pendingTotal c (s.setOwners key owners) =
        UInt64.ofNat (stored c s.blocks) := h.balance c
    show s.redundancy c + pendingTotal c (setThread _ pid _) =
      UInt64.ofNat (stored c (s.setOwners key owners).blocks)
    rw [pendingTotal_setThread hpid', pending_adjusting, stored_setOwners, UInt64.ofNat_add]
    rw [stored_eq s key, UInt64.ofNat_add] at hbalance
    rw [add_left_comm, hbalance]
    abel
  · intro key' owners' hlookup
    have hlookup : (s.setOwners key owners).blocks.lookup key' = some owners' := hlookup
    unfold setOwners at hlookup
    split at hlookup
    · exact h.nonempty key' owners' (of_lookup_erase hlookup).2
    · next hempty =>
      rcases of_lookup_insert hlookup with ⟨-, rfl⟩ | ⟨-, hlookup⟩
      · exact fun heq => hempty (List.isEmpty_iff.mpr heq)
      · exact h.nonempty key' owners' hlookup

omit [DecidableEq S] in
theorem Counted.atomic (h : Counted s) {t : Thread K N S} {op : AtomicOp} {rest : List AtomicOp}
    (ht : s.threads.lookup pid = some t) (hop : t.atomics = op :: rest) (held : Option K) :
    Counted ({ s with redundancy := op.apply s.redundancy }.setThread pid
      ⟨t.proc, held, rest⟩) := by
  refine ⟨?_, h.nonempty⟩
  intro c
  have hbalance := h.balance c
  unfold pendingTotal at hbalance
  rw [keyedSum_of_lookup _ ht, hop] at hbalance
  show op.apply s.redundancy c + keyedSum _ (s.threads.insert pid _) =
    UInt64.ofNat (stored c s.blocks)
  rw [← hbalance, apply_eq]
  show _ + _ + (pending c rest + _) = _ + ((op.delta c + pending c rest) + _)
  abel

end Threads

/-! ### Steps -/

section Steps

variable {config : StoreConfig} {s s₁ : Store K N S} {pid : ℕ}

omit [DecidableEq S] in
theorem Counted.same (h : Counted s) (hs : s.Frame s₁) : Counted s₁ :=
  h.frame hs.blocks hs.redundancy fun c => by rw [pendingTotal, hs.threads]; rfl

theorem Counted.checkOwner (h : Counted s) (hpid : Settled s pid) (keep : Keep N S)
    (visited : List K) (key : K) (dropped : List (Dropped N S)) (todo : List N) :
    Counted (s.checkOwner pid keep visited key dropped todo) := by
  cases todo with
  | cons node todo =>
    refine h.frame rfl rfl fun c => ?_
    exact (pendingTotal_setThread hpid c _).trans (zero_add _)
  | nil =>
    have hnoted : Counted (s.noteDrops keep dropped) ∧ Settled (s.noteDrops keep dropped) pid := by
      unfold noteDrops
      split
      · exact ⟨h.frame rfl rfl fun _ => rfl, hpid⟩
      · exact ⟨h, hpid⟩
    exact hnoted.1.writeOwners hnoted.2 _ _ _

/-- **Step lemma.** -/
theorem Counted.step {s' : Store K N S} {a : Action K N S} (h : Counted s)
    (hstep : MetaStore.step config s a = some s') : Counted s' := by
  cases effect_of_step hstep with
  | frame hs => exact h.same hs
  | next hs hpid => exact (h.same hs).setIdle (fun t ht => hpid t (hs.threads ▸ ht)) _
  | finish hs hpid => exact (h.same hs).endThread fun t ht => hpid t (hs.threads ▸ ht)
  | write hpid => exact h.writeOwners hpid _ _ _
  | visit hpid =>
    exact h.frame rfl rfl fun c => (pendingTotal_setThread hpid c _).trans (zero_add _)
  | check hpid => exact h.checkOwner hpid _ _ _ _ _
  | answer _ hpid =>
    exact h.frame rfl rfl fun c => (pendingTotal_setThread hpid c _).trans (zero_add _)
  | atomic ht hop => exact h.atomic ht hop _

end Steps

omit [DecidableEq S] in
theorem counted_init : Counted (init : Store K N S) := by
  refine ⟨?_, ?_⟩
  · intro c
    cases c <;> rfl
  · intro key owners hlookup
    cases hlookup

/-- **Redundancy counters.**  In every interleaving of calls, whenever none is in progress each
counter reads the number of stored keys of its bucket, or of stored owners, and no stored key is
without owners. -/
theorem counters_agree_when_quiet (config : StoreConfig) (actions : List (Action K N S)) :
    Always (step config) (fun s => s.threads = ∅ →
      (∀ c, s.redundancy c = UInt64.ofNat (stored c s.blocks)) ∧
      ∀ key owners, s.blocks.lookup key = some owners → owners.entries ≠ [])
      (init : Store K N S) actions := by
  refine (always_of_step (fun _ _ _ h hstep => h.step hstep) counted_init).mono ?_
  intro s h hquiet
  refine ⟨fun c => ?_, h.nonempty⟩
  have hbalance := h.balance c
  rw [pendingTotal, hquiet, keyedSum_empty, add_zero] at hbalance
  exact hbalance

end PegaFlow.MetaStore
