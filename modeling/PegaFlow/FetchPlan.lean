/-
PegaFlow/FetchPlan.lean

The plan of a remote fetch (`plan_fetch_segments` in the MetaServer's `service.rs`; validation and
execution in `rdma_fetch.rs`).

The server has the owners of each block of a prefix and covers it by segments, each served by one
node other than the requester: at each offset the node whose run of blocks is longest, the smallest
name among equals.  The client checks the segments, asks one node after the other, and stops at the
first short answer.
-/
import Mathlib.Data.List.Induction
import Mathlib.Data.List.TakeWhile
import Mathlib.Data.Prod.Lex
import Mathlib.Data.String.Basic
import PegaFlow.RunCover

namespace PegaFlow.RemoteFetch

open List

/-! ### The planner -/

structure PrefixEntry where
  nodes : List String
  deriving DecidableEq

structure FetchSegment where
  node : String
  blockCount : ℕ
  deriving DecidableEq

/-- How many of the next entries list the candidate. -/
def runLength (candidate : String) (entries : List PrefixEntry) : ℕ :=
  (entries.takeWhile fun entry => candidate ∈ entry.nodes).length

structure FetchPlanSegment where
  node : String
  start : ℕ
  stop : ℕ
  deriving DecidableEq

section Execute

variable {H B : Type}

end Execute

/-! ### Runs -/

variable {candidate : String} {n : ℕ} {entries : List PrefixEntry}

variable {entries' : List PrefixEntry} {node : String} {segments : List FetchSegment}

/-- The order of candidates: a longer run is better, and among equals the smaller name. -/
def rank (entries : List PrefixEntry) (candidate : String) : ℕ ×ₗ Stringᵒᵈ :=
  toLex (runLength candidate entries, OrderDual.toDual candidate)

/-- The best of the nodes that may serve, with its run. -/
def IsBest (excludeNode : String) (entries : List PrefixEntry) (nodes : List String) :
    Option (String × ℕ) → Prop
  | none => ∀ candidate ∈ nodes, candidate = excludeNode
  | some (node, n) => node ∈ nodes ∧ node ≠ excludeNode ∧ n = runLength node entries ∧
      ∀ candidate ∈ nodes, candidate ≠ excludeNode → rank entries candidate ≤ rank entries node

section Best

variable {excludeNode : String} {entries : List PrefixEntry} {nodes : List String}

theorem IsBest.append (h : IsBest excludeNode entries nodes (some (node, n)))
    (hworse : candidate ≠ excludeNode → rank entries candidate ≤ rank entries node) :
    IsBest excludeNode entries (nodes ++ [candidate]) (some (node, n)) := by
  obtain ⟨hmem, hne, hn, hbest⟩ := h
  refine ⟨mem_append_left _ hmem, hne, hn, ?_⟩
  intro c hc hcne
  rcases mem_append.mp hc with hc | hc
  · exact hbest c hc hcne
  · obtain rfl := mem_singleton.mp hc
    exact hworse hcne

theorem IsBest.unique {nodes' : List String} {best best' : Option (String × ℕ)}
    (h : IsBest excludeNode entries nodes best) (h' : IsBest excludeNode entries' nodes' best')
    (hnodes : ∀ c, c ∈ nodes ↔ c ∈ nodes')
    (hrun : ∀ c, runLength c entries = runLength c entries') : best = best' := by
  cases best with
  | none =>
    cases best' with
    | none => rfl
    | some b' => exact absurd (h b'.1 ((hnodes _).mpr h'.1)) h'.2.1
  | some b =>
    cases best' with
    | none => exact absurd (h' b.1 ((hnodes _).mp h.1)) h.2.1
    | some b' =>
      obtain ⟨node, n⟩ := b
      obtain ⟨node', n'⟩ := b'
      obtain ⟨hmem, hne, rfl, hbest⟩ := h
      obtain ⟨hmem', hne', rfl, hbest'⟩ := h'
      -- each is at least as good as the other
      have hle := hbest node' ((hnodes _).mpr hmem') hne'
      have hle' := hbest' node ((hnodes _).mp hmem) hne
      rw [rank, rank, ← hrun, ← hrun] at hle'
      obtain rfl : node' = node := (Prod.mk.inj (toLex.injective (hle.antisymm hle'))).2
      rw [hrun]

end Best

/-! ### The plan -/

/-- A segment as a label with its count. -/
def FetchSegment.run (segment : FetchSegment) : String × ℕ := (segment.node, segment.blockCount)

section Plan

variable {excludeNode : String} {entries : List PrefixEntry}

end Plan

/-! ### Validation and execution -/

/-- The segments at their offsets. -/
def place : ℕ → List FetchSegment → List FetchPlanSegment
  | _, [] => []
  | offset, segment :: segments =>
    ⟨segment.node, offset, offset + segment.blockCount⟩ ::
      place (offset + segment.blockCount) segments

section Client

variable {excludeNode : String} {entries : List PrefixEntry} {segments : List FetchSegment}

variable {H B : Type} {fetchSegment : ℕ → String → List H → List (H × B)} {hashes : List H}

end Client

/-! ### The plan is minimal and can be executed -/

end PegaFlow.RemoteFetch
