/-
PegaFlow/HyperLogLog.lean

The registers of the cardinality sketch (`pegaflow-common/src/hll.rs`).

A hash is a stream of bits.  The first ones select a register, and the register keeps the greatest
rank of its hashes: one more than the number of zero bits that follow.  So the registers are a
maximum over the set of hashes (`le_registers_iff`), and merging is the maximum of registers.
-/
import Mathlib.Algebra.Order.Ring.Nat
import PegaFlow.SizeClasses

namespace PegaFlow

open List SizeClasses

variable {m : ℕ} {H : Type*}

/-- `HyperLogLog`: its registers, which are united by maximum. -/
abbrev HyperLogLog (m : ℕ) := Fin m → ℕ

namespace HyperLogLog

/-- `insert`.  `place` are the register of a hash (`bucket_index`) and the value for it
(`count_leading_zeros`, and one). -/
def insert (place : H → Fin m × ℕ) (hll : HyperLogLog m) (hash : H) : HyperLogLog m :=
  Function.update hll (place hash).1 (max (hll (place hash).1) (place hash).2)

def merge (hll other : HyperLogLog m) : HyperLogLog m := fun i =>
  if hll i < other i then other i else hll i

/-- `bucket_bits`, as `new` asserts it. -/
abbrev BucketBits := { bits : ℕ // 4 ≤ bits ∧ bits ≤ 18 }

variable (bits : BucketBits) (hash : List UInt8)

def byteOrZero (i : ℕ) : UInt8 := hash[i]?.getD 0

/-- Bytes as a big-endian number. -/
def value : List UInt8 → ℕ
  | [] => 0
  | byte :: bytes => byte.toNat * 2 ^ (8 * bytes.length) + value bytes

theorem value_lt (bytes : List UInt8) : value bytes < 2 ^ (8 * bytes.length) := by
  induction bytes with
  | nil => exact one_pos
  | cons byte bytes ih =>
    rw [value, length_cons, Nat.mul_succ, pow_add]
    have := Nat.mul_le_mul_right (2 ^ (8 * bytes.length)) (Nat.succ_le_of_lt byte.toNat_lt)
    rw [Nat.succ_mul] at this
    omega

def bucketIndex : ℕ :=
  value [byteOrZero hash 0, byteOrZero hash 1, byteOrZero hash 2] / 2 ^ (24 - bits.1)

/-- The loop of `count_leading_zeros`. -/
def countZeroBytes (count : ℕ) : List UInt8 → ℕ
  | [] => count
  | byte :: bytes =>
    if byte ≠ 0 then (count + (8 - bitLength byte.toNat)) % 2 ^ 8
    else countZeroBytes ((count + 8) % 2 ^ 8) bytes

/-- The first four bytes; shorter hashes are zero-padded. -/
def head : List UInt8 := (range 4).map (byteOrZero hash)

def countLeadingZeros : ℕ :=
  let masked := value (head hash) &&& (2 ^ (32 - bits.1) - 1)
  if masked ≠ 0 then 32 - bitLength masked - bits.1
  else countZeroBytes (32 - bits.1) (hash.drop 4)

def rank : ℕ := (countLeadingZeros bits hash + 1) % 2 ^ 8

theorem bucketIndex_lt : bucketIndex bits hash < 2 ^ bits.1 := by
  refine Nat.div_lt_of_lt_mul ?_
  rw [← pow_add, Nat.sub_add_cancel (bits.2.2.trans (by decide))]
  exact value_lt _

/-- The registers after the hashes have been inserted. -/
def registers (hashes : List (List UInt8)) : HyperLogLog (2 ^ bits.1) :=
  hashes.foldl (insert fun hash => (⟨bucketIndex bits hash, bucketIndex_lt bits hash⟩,
    rank bits hash)) fun _ => 0

/-! ### Ranks -/

/-- The zero bits that follow the first `bits` ones: the rest of the stream is a number of
`width` bits. -/
def zeroBits : ℕ :=
  let stream := head hash ++ hash.drop 4
  let width := 8 * stream.length - bits.1
  width - bitLength (value stream % 2 ^ width)

theorem value_append (bytes bytes' : List UInt8) :
    value (bytes ++ bytes') = value bytes * 2 ^ (8 * bytes'.length) + value bytes' := by
  induction bytes with
  | nil => rw [nil_append, value, zero_mul, zero_add]
  | cons byte bytes ih =>
    rw [cons_append, value, value, ih, length_append, Nat.mul_add, pow_add, ← mul_assoc, add_mul,
      add_assoc]

theorem width_sub_bitLength (high width : ℕ) (bytes : List UInt8) :
    width + 8 * bytes.length - bitLength (high * 2 ^ (8 * bytes.length) + value bytes) =
      if high ≠ 0 then width - bitLength high
      else width + (8 * bytes.length - bitLength (value bytes)) := by
  have hlt := value_lt bytes
  split
  · next hne =>
    rw [bitLength_mul_add hne hlt]
    omega
  · next hzero =>
    rw [not_not.mp hzero, zero_mul, zero_add]
    have := bitLength_le hlt
    omega

theorem countZeroBytes_eq (count : ℕ) (bytes : List UInt8) :
    countZeroBytes (count % 2 ^ 8) bytes =
      (count + (8 * bytes.length - bitLength (value bytes))) % 2 ^ 8 := by
  induction bytes generalizing count with
  | nil => rfl
  | cons byte bytes ih =>
    have hwidth := width_sub_bitLength byte.toNat 8 bytes
    have hzero : byte ≠ 0 ↔ byte.toNat ≠ 0 := not_congr UInt8.toNat_inj.symm
    rw [countZeroBytes, value, length_cons, Nat.mul_succ, add_comm (8 * bytes.length), hwidth]
    simp only [hzero]
    split
    · rw [Nat.mod_add_mod]
    · rw [Nat.mod_add_mod, ih, add_assoc]

theorem countLeadingZeros_eq : countLeadingZeros bits hash = zeroBits bits hash % 2 ^ 8 := by
  obtain ⟨bits, hmin, hmax⟩ := bits
  have hlen : 8 * (head hash ++ hash.drop 4).length - bits =
      32 - bits + 8 * (hash.drop 4).length := by
    rw [length_append, head, length_map, length_range]
    omega
  have hmod : value (head hash ++ hash.drop 4) % 2 ^ (32 - bits + 8 * (hash.drop 4).length) =
      value (head hash) % 2 ^ (32 - bits) * 2 ^ (8 * (hash.drop 4).length) +
        value (hash.drop 4) := by
    have hlt := value_lt (hash.drop 4)
    rw [value_append, add_comm (32 - bits), pow_add, Nat.mod_mul, mul_comm, Nat.mul_add_mod,
      Nat.mod_eq_of_lt hlt, Nat.mul_add_div (Nat.two_pow_pos _), Nat.div_eq_of_lt hlt, add_zero,
      add_comm, mul_comm]
  unfold zeroBits countLeadingZeros
  dsimp only
  rw [hlen, hmod, width_sub_bitLength, Nat.and_two_pow_sub_one_eq_mod]
  split
  · omega
  · rw [← countZeroBytes_eq, Nat.mod_eq_of_lt (by omega)]

/-! ### Registers -/

theorem le_foldl_insert_iff {place : H → Fin m × ℕ} {hll : HyperLogLog m} {hashes : List H}
    {i : Fin m} {n : ℕ} : n ≤ hashes.foldl (insert place) hll i ↔
      n ≤ hll i ∨ ∃ hash ∈ hashes, (place hash).1 = i ∧ n ≤ (place hash).2 := by
  induction hashes generalizing hll with
  | nil => simp
  | cons hash hashes ih =>
    simp only [foldl_cons, ih, mem_cons, or_and_right, exists_or, exists_eq_left, ← or_assoc]
    refine or_congr_left ?_
    rcases eq_or_ne i (place hash).1 with rfl | hne
    · rw [insert, Function.update_self, le_max_iff]
      simp
    · rw [insert, Function.update_of_ne hne]
      simp [hne.symm]

theorem le_registers_iff {hashes : List (List UInt8)} {i : Fin (2 ^ bits.1)} {n : ℕ} :
    n ≤ registers bits hashes i ↔
      n ≤ 0 ∨ ∃ hash ∈ hashes, bucketIndex bits hash = i ∧ n ≤ rank bits hash := by
  simp [registers, le_foldl_insert_iff, Fin.ext_iff]

theorem merge_eq_sup (hll other : HyperLogLog m) : merge hll other = hll ⊔ other := by
  funext i
  exact (max_def_lt (hll i) (other i)).symm

/-- **Registers.**  They depend on the set of inserted hashes only; merging gives those of the
union, and is commutative, associative and idempotent; and the rank of a hash is one more than the
number of zero bits after the first ones, if and only if that is a byte. -/
theorem registers_of_hashes (bits : BucketBits) :
    (∀ hashes hashes' : List (List UInt8), (∀ hash, hash ∈ hashes ↔ hash ∈ hashes') →
      registers bits hashes = registers bits hashes') ∧
    (∀ hashes hashes', merge (registers bits hashes) (registers bits hashes') =
      registers bits (hashes ++ hashes')) ∧
    (∀ x y z : HyperLogLog (2 ^ bits.1), merge x y = merge y x ∧
      merge (merge x y) z = merge x (merge y z) ∧ merge x x = x) ∧
    ∀ hash, rank bits hash = zeroBits bits hash + 1 ↔ zeroBits bits hash + 1 < 2 ^ 8 := by
  refine ⟨fun hashes hashes' h => ?_, fun hashes hashes' => ?_, fun x y z => ?_, fun hash => ?_⟩
  · funext i
    refine eq_of_forall_le_iff fun n => ?_
    simp only [le_registers_iff, h]
  · funext i
    refine eq_of_forall_le_iff fun n => ?_
    rw [merge_eq_sup, Pi.sup_apply, le_sup_iff]
    simp only [le_registers_iff, mem_append, or_and_right, exists_or]
    exact or_or_distrib_left.symm
  · simp only [merge_eq_sup]
    exact ⟨sup_comm x y, sup_assoc x y z, sup_idem x⟩
  · rw [rank, countLeadingZeros_eq, Nat.mod_add_mod]
    exact ⟨fun h => h ▸ Nat.mod_lt _ (by decide), Nat.mod_eq_of_lt⟩

theorem registers_of_two_hashes :
    registers ⟨4, by decide⟩ [[1], [2], [1]] = registers ⟨4, by decide⟩ [[2], [1]] :=
  (registers_of_hashes _).1 _ _ (by simp)

theorem rank_of_zero_hash :
    zeroBits ⟨4, by decide⟩ (replicate 33 0) = 260 ∧ rank ⟨4, by decide⟩ (replicate 33 0) = 5 := by
  decide +kernel

end HyperLogLog

end PegaFlow
