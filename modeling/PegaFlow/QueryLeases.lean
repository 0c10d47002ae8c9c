/-
PegaFlow/QueryLeases.lean

Query leases of the engine.
-/
import PegaFlow.Block
import Mathlib.Data.List.TakeWhile

namespace PegaFlow.QueryLeases

open List

structure QueryLease where
  instanceId : String
  blocks : List SealedBlock
  remainingConsumers : ℕ
  expiresAt : ℕ

/-- What a call does under the lock. -/
inductive Action (T : Type*) where
  | sweepExpired (now : ℕ)
  | create (token : T) (instanceId : String) (blocks : List SealedBlock) (consumers now : ℕ)
  | consume (instanceId : String) (token : T)
  | release (token : T)
  | releaseInstance (instanceId : String)

variable {T : Type*} [DecidableEq T] {token : T} {leases : T → Option QueryLease}
  {lease : QueryLease} {action : Action T} {actions : List (Action T)}

/-- Ten minutes, in nanoseconds. -/
def defaultLeaseTtl : ℕ := 600 * 10 ^ 9

def newLease (instanceId : String) (blocks : List SealedBlock) (consumers now : ℕ) : QueryLease :=
  ⟨instanceId, blocks, max consumers 1, now + defaultLeaseTtl⟩

/-- What a consumption answers, and what is left under its token. -/
def consume (instanceId : String) :
    Option QueryLease → Except String (List SealedBlock) × Option QueryLease
  | none => (.error "query lease is unknown or expired", none)
  | some lease =>
    if lease.instanceId ≠ instanceId then
      (.error s!"query lease belongs to instance {lease.instanceId}, got {instanceId}", some lease)
    else if 1 < lease.remainingConsumers then
      (.ok lease.blocks, some { lease with remainingConsumers := lease.remainingConsumers - 1 })
    else (.ok lease.blocks, none)

/-- The leases after an action. -/
def apply (leases : T → Option QueryLease) (action : Action T) (token : T) : Option QueryLease :=
  match action with
  | .sweepExpired now => (leases token).filter (now < ·.expiresAt)
  | .create t instanceId blocks consumers now =>
    if t = token then newLease instanceId blocks consumers now else leases token
  | .consume instanceId t =>
    if t = token then (consume instanceId (leases token)).2 else leases token
  | .release t => if t = token then none else leases token
  | .releaseInstance instanceId => (leases token).filter (·.instanceId ≠ instanceId)

/-- The blocks that an action hands out under a token, and the instance it hands them to. -/
def handedOut (token : T) (leases : T → Option QueryLease) :
    Action T → List (String × List SealedBlock)
  | .consume instanceId t =>
    if t = token then
      match (consume instanceId (leases token)).1 with
      | .ok blocks => [(instanceId, blocks)]
      | .error _ => []
    else []
  | _ => []

/-- The successful consumptions of a token in a run. -/
def consumed (token : T) :
    (T → Option QueryLease) → List (Action T) → List (String × List SealedBlock)
  | _, [] => []
  | leases, action :: actions =>
    handedOut token leases action ++ consumed token (apply leases action) actions

/-! ### The life of a lease -/

def Action.creates (token : T) : Action T → Bool
  | .create t .. => t = token
  | _ => false

/-- The action neither releases the lease nor finds it expired. -/
def Action.keeps (token : T) (lease : QueryLease) : Action T → Bool
  | .sweepExpired now => now < lease.expiresAt
  | .release t => t ≠ token
  | .releaseInstance instanceId => lease.instanceId ≠ instanceId
  | _ => true

def Action.consumes (token : T) (lease : QueryLease) : Action T → Bool
  | .consume instanceId t => lease.instanceId = instanceId ∧ t = token
  | _ => false

theorem apply_of_none (h : leases token = none) (hnew : action.creates token = false) :
    handedOut token leases action = [] ∧ apply leases action token = none := by
  cases action <;> simp_all [handedOut, apply, consume, Action.creates]

/-- An action ends a lease, a worker consumes it, or it stays as it is. -/
theorem apply_of_some (h : leases token = some lease) (hnew : action.creates token = false) :
    if action.keeps token lease then
      if action.consumes token lease then
        handedOut token leases action = [(lease.instanceId, lease.blocks)] ∧
          apply leases action token = if 1 < lease.remainingConsumers then
            some { lease with remainingConsumers := lease.remainingConsumers - 1 } else none
      else handedOut token leases action = [] ∧ apply leases action token = some lease
    else handedOut token leases action = [] ∧ apply leases action token = none := by
  cases action with
  | consume instanceId t =>
    by_cases ht : t = token
    · by_cases hi : lease.instanceId = instanceId
      · by_cases hmore : 1 < lease.remainingConsumers <;>
          simp [handedOut, apply, consume, Action.keeps, Action.consumes, h, ht, hi, hmore]
      · simp [handedOut, apply, consume, Action.keeps, Action.consumes, h, ht, hi]
    · simp [handedOut, apply, Action.keeps, Action.consumes, h, ht]
  | create t instanceId blocks consumers now =>
    have hne : t ≠ token := of_decide_eq_false hnew
    simp [handedOut, apply, Action.keeps, Action.consumes, h, hne]
  | _ =>
    simp only [handedOut, apply, Action.keeps, Action.consumes, h, Option.filter_some]
    grind

theorem consumed_of_none (h : leases token = none)
    (hnew : ∀ action ∈ actions, action.creates token = false) :
    consumed token leases actions = [] := by
  induction actions generalizing leases with
  | nil => rfl
  | cons action actions ih =>
    obtain ⟨hnothing, hnone⟩ := apply_of_none h (hnew _ mem_cons_self)
    rw [consumed, hnothing, ih hnone fun a ha => hnew a (mem_cons_of_mem _ ha)]
    rfl

theorem consumed_of_some (h : leases token = some lease) (hpos : 0 < lease.remainingConsumers)
    (hnew : ∀ action ∈ actions, action.creates token = false) :
    consumed token leases actions =
      replicate (min ((actions.takeWhile (·.keeps token lease)).countP (·.consumes token lease))
        lease.remainingConsumers) (lease.instanceId, lease.blocks) := by
  induction actions generalizing leases lease with
  | nil => simp [consumed]
  | cons action actions ih =>
    have hstep := apply_of_some h (hnew _ mem_cons_self)
    have hrest := fun a ha => hnew a (mem_cons_of_mem action ha)
    rw [consumed]
    split_ifs at hstep with hkeeps hconsumes hmore
    · rw [takeWhile_cons_of_pos hkeeps, countP_cons_of_pos hconsumes, hstep.1,
        ih hstep.2 (Nat.sub_pos_of_lt hmore) hrest, ← Nat.sub_add_cancel hpos,
        Nat.add_min_add_right, replicate_succ]
      rfl
    · have hone : lease.remainingConsumers = 1 := by omega
      rw [takeWhile_cons_of_pos hkeeps, countP_cons_of_pos hconsumes, hstep.1,
        consumed_of_none hstep.2 hrest, hone, min_eq_right (Nat.le_add_left ..)]
      rfl
    · rw [takeWhile_cons_of_pos hkeeps, countP_cons_of_neg hconsumes, hstep.1,
        ih hstep.2 hpos hrest]
      rfl
    · rw [takeWhile_cons_of_neg hkeeps, hstep.1, consumed_of_none hstep.2 hrest]
      simp

/-- **Consumptions of a lease.**  Whatever other calls come in between, the successful ones of a
fresh token are by the instance it was created for and hand out the blocks it was created with.
There are as many as the instance asks for before the lease is released or swept after its time,
up to the number of consumers, which is at least one. -/
theorem consumed_create (instanceId : String) (blocks : List SealedBlock) (consumers now : ℕ)
    (hnew : ∀ action ∈ actions, action.creates token = false) :
    let lease := newLease instanceId blocks consumers now
    consumed token leases (.create token instanceId blocks consumers now :: actions) =
      replicate (min ((actions.takeWhile (·.keeps token lease)).countP (·.consumes token lease))
        (max consumers 1)) (instanceId, blocks) := by
  intro lease
  have hlease : apply leases (.create token instanceId blocks consumers now) token = lease :=
    if_pos rfl
  rw [consumed, consumed_of_some hlease (Nat.le_max_right ..) hnew]
  rfl

/-- Two workers, a call too many, and one by another instance. -/
theorem consumed_create_two :
    consumed 0 (fun _ => none) [.create 0 "a" [.fromSlots []] 2 0, .consume "a" 0,
      .consume "b" 0, .sweepExpired 5, .consume "a" 0, .consume "a" 0] =
    [("a", [.fromSlots []]), ("a", [.fromSlots []])] :=
  consumed_create "a" [.fromSlots []] 2 0 (by decide)

end PegaFlow.QueryLeases
