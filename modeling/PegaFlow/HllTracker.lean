/-
PegaFlow/HllTracker.lean

The sliding-window cardinality tracker (`pegaflow-common/src/hll.rs`).

A request is recorded in the slot at the back of a queue.  When that slot is over, a new one is
opened, at a whole number of slot durations after it.  `metric` drops expired slots from the front
and unites the sketches of the others: a cached merge of all slots but the last, which is built
again after a slot has come or gone, and the last slot, which still grows.  `record` drops nothing.
-/
import Mathlib.Data.Nat.ModEq
import PegaFlow.HyperLogLog
import PegaFlow.Run

namespace PegaFlow

open List

variable {m : ℕ} {H : Type*}

/-- Times are in nanoseconds. -/
structure WindowSlot (m : ℕ) where
  hll : HyperLogLog m := fun _ => 0
  start : ℕ
  requestCount : ℕ := 0

structure HllTracker (m : ℕ) where
  slots : List (WindowSlot m) := []
  merged : HyperLogLog m := fun _ => 0
  mergedDirty : Bool := false
  slotDuration : ℕ
  windowDuration : ℕ

/-- `HllMetric`, with the sketch that the cardinality is estimated from. -/
structure HllMetric (m : ℕ) where
  sketch : Option (HyperLogLog m)
  totalRequests : ℕ
  windowSlotCount : ℕ

/-- The sketches of slots, merged one after the other. -/
def mergeSlots (slots : List (WindowSlot m)) : HyperLogLog m :=
  slots.foldl (fun merged slot => merged ⊔ slot.hll) fun _ => 0

namespace HllTracker

section Definitions

variable (s : HllTracker m) (now : ℕ)

def pushSlot (start : ℕ) : HllTracker m :=
  { s with slots := s.slots ++ [{ start }], mergedDirty := true }

/-- The back slot is there and not over.  `none` is a division by zero. -/
def rotate : Option (HllTracker m) :=
  match s.slots.getLast? with
  | none => some (s.pushSlot now)
  | some last =>
      if now - last.start < s.slotDuration then some s
      else if s.slotDuration = 0 then none
      else
        let periods := (now - last.start) / s.slotDuration
        some (s.pushSlot (last.start + s.slotDuration * (periods % 2 ^ 32)))

/-- The requests go to the back slot. -/
def addToBack (place : H → Fin m × ℕ) (hashes : List H) (totalRequests : ℕ) : HllTracker m :=
  match s.slots.getLast? with
  | none => s
  | some back =>
      { s with
        slots := s.slots.dropLast ++ [{ back with
          hll := hashes.foldl (HyperLogLog.insert place) back.hll
          requestCount := back.requestCount + totalRequests }] }

/-- `record_hashes_with_total` -/
def record (place : H → Fin m × ℕ) (hashes : List H) (totalRequests : ℕ) :
    Option (HllTracker m) :=
  if totalRequests = 0 then some s
  else (s.rotate now).map fun s => s.addToBack place hashes totalRequests

def expired (slot : WindowSlot m) : Bool := s.windowDuration ≤ now - slot.start

def expireOldSlots : HllTracker m :=
  let kept := s.slots.dropWhile (s.expired now)
  { s with slots := kept, mergedDirty := s.mergedDirty || kept.length < s.slots.length }

def ensureMerged : HllTracker m :=
  if s.mergedDirty then
    { s with merged := mergeSlots s.slots.dropLast, mergedDirty := false }
  else s

def metric : HllMetric m × HllTracker m :=
  let s := (s.expireOldSlots now).ensureMerged
  ({ sketch := s.slots.getLast?.map fun back => s.merged ⊔ back.hll
     totalRequests := (s.slots.map WindowSlot.requestCount).sum
     windowSlotCount := s.slots.length }, s)

end Definitions

/-- The calls, at the times the clock shows. -/
inductive Call (H : Type*) where
  | record (now : ℕ) (hashes : List H) (totalRequests : ℕ)
  | metric (now : ℕ)

def step (place : H → Fin m × ℕ) (s : HllTracker m) : Call H → Option (HllTracker m)
  | .record now hashes totalRequests => s.record now place hashes totalRequests
  | .metric now => some (s.metric now).2

/-! ### The property and the condition -/

/-- Fewer than `2 ^ 32` slot durations have passed since the start of the last slot. -/
def InTime (s : HllTracker m) : Call H → Prop
  | .record now _ _ => ∀ last ∈ s.slots.getLast?, (now - last.start) / s.slotDuration < 2 ^ 32
  | .metric _ => True

instance (s : HllTracker m) : DecidablePred (InTime (H := H) s)
  | .record _ _ _ => inferInstanceAs (Decidable (∀ last ∈ s.slots.getLast?, _))
  | .metric _ => .isTrue trivial

/-! ### The invariant -/

structure Inv (s : HllTracker m) : Prop where
  grid : (s.slots.map WindowSlot.start).Pairwise fun a b => a < b ∧ a ≡ b [MOD s.slotDuration]
  merged : s.mergedDirty = false → s.merged = mergeSlots s.slots.dropLast

variable {s s' : HllTracker m} {now : ℕ} {place : H → Fin m × ℕ}

theorem Inv.pushSlot (h : s.Inv) {start : ℕ}
    (hstart : ∀ a ∈ s.slots, a.start < start ∧ a.start ≡ start [MOD s.slotDuration]) :
    (s.pushSlot start).Inv := by
  refine ⟨?_, fun hclean => nomatch hclean⟩
  simpa [HllTracker.pushSlot, pairwise_append] using ⟨h.grid, hstart⟩

theorem Inv.rotate (h : s.Inv)
    (htime : ∀ last ∈ s.slots.getLast?, (now - last.start) / s.slotDuration < 2 ^ 32)
    (hs' : s.rotate now = some s') : s'.Inv := by
  unfold HllTracker.rotate at hs'
  split at hs'
  · next hnone =>
    cases hs'
    rw [getLast?_eq_none_iff] at hnone
    exact h.pushSlot (by simp [hnone])
  · next last hlast =>
    split at hs'
    · cases hs'
      exact h
    · next hover =>
      split at hs'
      · cases hs'
      · next hpos =>
        cases hs'
        have hperiods := Nat.div_pos (Nat.le_of_not_lt hover) (Nat.pos_of_ne_zero hpos)
        have hlater := Nat.mul_pos (Nat.pos_of_ne_zero hpos) hperiods
        have hgrid := h.grid
        obtain ⟨front, hfront⟩ := getLast?_eq_some_iff.mp hlast
        rw [Nat.mod_eq_of_lt (htime last hlast)]
        refine h.pushSlot fun a ha => ?_
        -- the last slot is after all others, and the new one after it
        rw [hfront] at ha hgrid
        rw [map_append, pairwise_append] at hgrid
        rcases mem_append.mp ha with ha | ha
        · obtain ⟨hlt, hmod⟩ := hgrid.2.2 _ (mem_map_of_mem ha) _ (mem_singleton_self _)
          exact ⟨by omega, by simpa [Nat.ModEq] using hmod⟩
        · rw [mem_singleton.mp ha]
          exact ⟨by omega, by simp [Nat.ModEq]⟩

theorem Inv.addToBack (h : s.Inv) (hashes : List H) (totalRequests : ℕ) :
    (s.addToBack place hashes totalRequests).Inv := by
  unfold HllTracker.addToBack
  split
  · exact h
  · next back hback =>
    obtain ⟨front, hfront⟩ := getLast?_eq_some_iff.mp hback
    have hgrid := h.grid
    have hmerged := h.merged
    exact ⟨by simpa [hfront] using hgrid, by simpa [hfront] using hmerged⟩

theorem Inv.expireOldSlots (h : s.Inv) (now : ℕ) : (s.expireOldSlots now).Inv := by
  refine ⟨h.grid.sublist ((dropWhile_sublist _).map _), fun hclean => ?_⟩
  obtain ⟨hclean, hlength⟩ := Bool.or_eq_false_iff.mp hclean
  have hsuffix := dropWhile_suffix (l := s.slots) (s.expired now)
  have hkept := hsuffix.eq_of_length_le (Nat.le_of_not_lt (of_decide_eq_false hlength))
  rw [HllTracker.expireOldSlots, hkept]
  exact h.merged hclean

theorem Inv.metric (h : s.Inv) (now : ℕ) : (s.metric now).2.Inv := by
  have hexpire := h.expireOldSlots now
  unfold HllTracker.metric ensureMerged
  split
  · exact ⟨hexpire.grid, fun _ => rfl⟩
  · exact hexpire

/-- **Step lemma.** -/
theorem Inv.step (h : s.Inv) {call : Call H} (htime : s.InTime call)
    (hs' : s.step place call = some s') : s'.Inv := by
  cases call with
  | record now hashes totalRequests =>
    simp only [HllTracker.step, HllTracker.record] at hs'
    split at hs'
    · cases hs'
      exact h
    · obtain ⟨t, ht, rfl⟩ := Option.map_eq_some_iff.mp hs'
      exact (h.rotate htime ht).addToBack hashes totalRequests
  | metric now =>
    cases hs'
    exact h.metric now

/-! ### Reports -/

end HllTracker

end PegaFlow
