/-
PegaFlow/Block.lean

The stored data: block keys, slots and sealed blocks.
-/
import PegaFlow.Tally

namespace PegaFlow

/-- Content address of a block: the namespace isolates models from each other. -/
structure BlockKey where
  ns : String
  hash : List UInt8
deriving DecidableEq, Repr

structure NumaNode where
  id : UInt32
deriving DecidableEq, Repr

/-- One slot of a block: the bytes of its segments. -/
structure RawBlock where
  segments : List (List UInt8)
deriving DecidableEq, Repr

def RawBlock.memoryFootprint (b : RawBlock) : ℕ :=
  (b.segments.map List.length).sum

/-- The bytes of a slot in the order `write_iovecs` lists its segments. -/
def RawBlock.bytes (b : RawBlock) : List UInt8 :=
  b.segments.flatten

theorem RawBlock.length_bytes (b : RawBlock) : b.bytes.length = b.memoryFootprint := by
  simp [RawBlock.bytes, RawBlock.memoryFootprint, List.length_flatten]

/-- A complete block.  `footprint` is cached at construction.  The write path does not look into
the slots, which have a footprint. -/
structure WritePath.SealedBlock {B : Type} (fp : B → ℕ) where
  slots : List B
  footprint : ℕ
  slotNumas : List NumaNode
  footprint_eq : footprint = tally fp slots
  numas_length : slotNumas.length = slots.length
deriving DecidableEq, Repr

/-- A complete block of bytes. -/
abbrev SealedBlock := WritePath.SealedBlock RawBlock.memoryFootprint

namespace SealedBlock

def memoryFootprint (b : SealedBlock) : ℕ := b.footprint

/-- Create from per-slot `(block, NUMA)` pairs. -/
def fromSlots (slots : List (RawBlock × NumaNode)) : SealedBlock where
  slots := slots.map Prod.fst
  footprint := tally RawBlock.memoryFootprint (slots.map Prod.fst)
  slotNumas := slots.map Prod.snd
  footprint_eq := rfl
  numas_length := by simp

/-- What one vectored write of the whole block puts on the file: the segments of all
slots, back to back. -/
def bytes (b : SealedBlock) : List UInt8 :=
  b.slots.flatMap RawBlock.bytes

theorem length_bytes (b : SealedBlock) : b.bytes.length = b.memoryFootprint := by
  have hslot : (List.length ∘ RawBlock.bytes) = RawBlock.memoryFootprint :=
    funext RawBlock.length_bytes
  rw [bytes, List.length_flatMap, memoryFootprint, b.footprint_eq]
  exact congrArg (fun f => (b.slots.map f).sum) hslot

end SealedBlock

/-- Per-slot metadata an index entry keeps to rebuild the block. -/
structure SlotMeta where
  segmentSizes : List ℕ
  totalSize : ℕ
  numaNode : NumaNode
deriving DecidableEq, Repr

def SlotMeta.new (segmentSizes : List ℕ) (numaNode : NumaNode) : SlotMeta where
  segmentSizes
  totalSize := segmentSizes.sum
  numaNode

/-- The metadata `prepare_batch` records for a block, slot by slot. -/
def SealedBlock.slotMetas (b : SealedBlock) : List SlotMeta :=
  List.zipWith (fun s numa => SlotMeta.new (s.segments.map List.length) numa) b.slots b.slotNumas

end PegaFlow
