import Mathlib.Data.List.FinRange
import Simplicity.Hash.Message
import Simplicity.Proofs.Hash.Digest
import Simplicity.Proofs.Stream.Packing

/-!
# Blocks of a padded message

A padded message as a string of bits: the message, a one, zeros and the length. A digest is made
from bytes, and the number of zeros is not computed there but left to a loop. The loop adds the
fewest bytes that leave room for the length and nothing else, so the bytes hold the bits of the
padded message, and the words that are read from them are those that its bits write.
-/

namespace Simplicity.Sha256

open BitString (lowBits)

/-- How many zeros bring a message of `length` bits and its closing one to 64 bits short of a
whole number of blocks. -/
def fill (length : Nat) : Nat :=
  (959 - length % 512) % 512

def pad (message : BitString) : BitString :=
  ((message.push true).appendZeros (fill message.length)).appendBits message.length 64

/-- The block at an index of a padded message. -/
def blockAt (padded : BitString) (index : Nat) : Block :=
  Vector.ofFn fun word => UInt32.ofNat (padded.natAt (512 * index + 32 * word.val) 32)

def blocks (padded : BitString) : List Block :=
  (List.range (padded.length / 512)).map (blockAt padded)

section Bytes

/-- Setting the one in the bytes is appending it to the bits. -/
theorem close_eq (message : BitString) :
    close message.bytes message.length = (message.push true).bytes := by
  rcases message with ⟨bytes, length, packed⟩
  have size_eq := packed.size_eq
  by_cases full : length % 8 = 0
  · simp only [close, BitString.push, if_pos full, dif_pos full]
    rfl
  · have last : bytes.size - 1 = length / 8 := by omega
    have inside : length / 8 < bytes.size := by omega
    simp only [close, BitString.push, if_neg full, dif_neg full, if_true, last, dif_pos inside,
      BitString.bitMask_eq (Nat.mod_lt length (by decide : 0 < 8))]

theorem ofBytes_push_zero (bytes : ByteArray) :
    BitString.ofBytes (bytes.push 0) = (BitString.ofBytes bytes).appendZeros 8 := by
  apply BitString.eq_of_toList_eq
  rw [BitString.toList_appendZeros, BitString.toList_ofBytes, BitString.toList_ofBytes,
    ByteArray.data_push, Array.toList_push, List.flatMap_append]
  rfl

theorem appendZeros_appendZeros (bits : BitString) (first second : Nat) :
    (bits.appendZeros first).appendZeros second = bits.appendZeros (first + second) := by
  apply BitString.eq_of_toList_eq
  simp

/-- The loop adds the fewest zero bytes that leave eight bytes in the last block. -/
theorem exists_fillUp (bytes : ByteArray) : ∃ count,
    IsLeast {count | 64 ∣ bytes.size + count + 8} count ∧
      BitString.ofBytes (fillUp bytes) = (BitString.ofBytes bytes).appendZeros (8 * count) := by
  fun_induction fillUp bytes with
  | case1 bytes enough =>
      have reaches : 64 ∣ bytes.size + 0 + 8 := by omega
      exact ⟨0, ⟨reaches, fun _ _ => Nat.zero_le _⟩, rfl⟩
  | case2 bytes missing ih =>
      rcases ih with ⟨count, ⟨reaches, fewest⟩, filled⟩
      rw [ByteArray.size_push] at reaches fewest
      change 64 ∣ bytes.size + 1 + count + 8 at reaches
      refine ⟨count + 1, ⟨?_, ?_⟩, ?_⟩
      · change 64 ∣ bytes.size + (count + 1) + 8
        omega
      · intro other whole
        change 64 ∣ bytes.size + other + 8 at whole
        have := fewest (show 64 ∣ bytes.size + 1 + (other - 1) + 8 by omega)
        omega
      · rw [filled, ofBytes_push_zero, appendZeros_appendZeros]
        exact congrArg _ (by omega)

theorem isLeast_fill (length : Nat) :
    IsLeast {count | 512 ∣ length + 1 + count + 64} (fill length) := by
  constructor
  · change 512 ∣ length + 1 + fill length + 64
    rw [fill]
    omega
  · intro count whole
    change 512 ∣ length + 1 + count + 64 at whole
    rw [fill]
    omega

/-- What follows the closing one is what its byte has left over and the zero bytes of the loop. -/
theorem ofBytes_fillUp_close (message : BitString) :
    BitString.ofBytes (fillUp (close message.bytes message.length)) =
      (message.push true).appendZeros (fill message.length) := by
  have size_eq := (message.push true).packed.size_eq
  rw [BitString.length_push] at size_eq
  obtain ⟨count, ⟨reaches, fewest⟩, filled⟩ := exists_fillUp (message.push true).bytes
  change 64 ∣ (message.push true).bytes.size + count + 8 at reaches
  have zeros : 8 * (message.push true).bytes.size - (message.length + 1) + 8 * count =
      fill message.length := by
    refine IsLeast.unique ⟨?_, ?_⟩ (isLeast_fill message.length)
    · change 512 ∣ message.length + 1 + _ + 64
      omega
    · intro other whole
      change 512 ∣ message.length + 1 + other + 64 at whole
      have := fewest (show 64 ∣ (message.push true).bytes.size +
        (message.length + 1 + other - 8 * (message.push true).bytes.size) / 8 + 8 by omega)
      omega
  rw [close_eq, filled, ← zeros, ← appendZeros_appendZeros]
  apply congrArg (BitString.appendZeros · _)
  apply BitString.eq_of_toList_eq
  rw [BitString.toList_ofBytes_bytes, BitString.toList_appendZeros, BitString.length_push]

theorem flatMap_range_map {α : Type} (f : Nat → α) (width count : Nat) :
    ((List.range count).flatMap fun index =>
        (List.range width).map fun offset => f (width * index + offset)) =
      (List.range (width * count)).map f := by
  induction count with
  | zero => rfl
  | succ count ih =>
      rw [List.range_succ, List.flatMap_append, ih, Nat.mul_succ, List.range_add, List.map_append,
        List.map_map]
      simp

theorem toList_ofBytes_lengthBytes (length : UInt64) :
    (BitString.ofBytes (lengthBytes length)).toList = lowBits length.toNat 64 := by
  have byte_bits : ∀ index < 8,
      lowBits (length >>> UInt64.ofNat (56 - 8 * index)).toUInt8.toNat 8 =
        (List.range 8).map fun offset => length.toNat.testBit (63 - (8 * index + offset)) := by
    intro index small
    rw [BitString.lowBits_eq_map_range]
    refine List.map_congr_left fun offset member => ?_
    have within := List.mem_range.mp member
    have amount : (UInt64.ofNat (56 - 8 * index)).toNat % 64 = 56 - 8 * index := by
      rw [UInt64.toNat_ofNat_of_lt' (by rw [UInt64.size]; omega)]
      omega
    rw [UInt64.toNat_toUInt8, UInt64.toNat_shiftRight, amount, Nat.testBit_mod_two_pow,
      decide_eq_true (by omega), Bool.true_and, Nat.testBit_shiftRight]
    exact congrArg length.toNat.testBit (by omega)
  have listed : (lengthBytes length).data.toList = (List.range 8).map fun index =>
      (length >>> UInt64.ofNat (56 - 8 * index)).toUInt8 := by
    rw [lengthBytes, Array.toList_ofFn, List.ofFn_eq_map, ← List.map_coe_finRange_eq_range,
      List.map_map]
    rfl
  rw [BitString.toList_ofBytes, listed, List.flatMap_map, BitString.lowBits_eq_map_range,
    ← flatMap_range_map (fun place => length.toNat.testBit (64 - 1 - place)) 8 8]
  exact List.flatMap_congr fun index member => byte_bits index (List.mem_range.mp member)

/-- The bytes of a padded message hold its bits. -/
theorem ofBytes_padBytes (message : BitString) :
    BitString.ofBytes (padBytes message) = pad message := by
  apply BitString.eq_of_toList_eq
  rw [padBytes, pad, BitString.toList_ofBytes, ByteArray.data_append, Array.toList_append,
    List.flatMap_append, ← BitString.toList_ofBytes, ← BitString.toList_ofBytes,
    ofBytes_fillUp_close, toList_ofBytes_lengthBytes, BitString.toList_appendBits,
    UInt64.toNat_ofNat', BitString.lowBits_mod_two_pow]

end Bytes

section Words

theorem natAt_add (bits : BitString) (start first second : Nat) :
    bits.natAt start (first + second) =
      bits.natAt start first * 2 ^ second + bits.natAt (start + first) second := by
  induction second with
  | zero => simp [BitString.natAt]
  | succ second ih =>
      rw [← Nat.add_assoc, BitString.natAt, BitString.natAt, ih, Nat.add_assoc start,
        Nat.pow_succ', Nat.mul_left_comm (bits.natAt start first)]
      omega

theorem natAt_ofBytes (bytes : ByteArray) {index : Nat} (inside : index < bytes.size) :
    (BitString.ofBytes bytes).natAt (8 * index) 8 = bytes[index].toNat := by
  apply BitString.eq_of_lowBits_eq (BitString.natAt_lt _ _ _) (UInt8.toNat_lt _)
  rw [BitString.lowBits_natAt, BitString.lowBits_eq_map_range]
  refine List.map_congr_left fun offset member => ?_
  have within := List.mem_range.mp member
  have place : (8 * index + offset) / 8 = index := by omega
  have bit : 7 - (8 * index + offset) % 8 = 8 - 1 - offset := by omega
  change bitAt bytes (8 * index + offset) = _
  simp only [bitAt, place, dif_pos inside, bit]

theorem wordOfBytes_eq (bytes : ByteArray) {start : Nat} (inside : start + 3 < bytes.size) :
    Digest.wordOfBytes bytes[start] bytes[start + 1] bytes[start + 2] bytes[start + 3] =
      UInt32.ofNat ((BitString.ofBytes bytes).natAt (8 * start) 32) := by
  have split : (BitString.ofBytes bytes).natAt (8 * start) 32 =
      bytes[start].toNat * 2 ^ 24 + (bytes[start + 1].toNat * 2 ^ 16 +
        (bytes[start + 2].toNat * 2 ^ 8 + bytes[start + 3].toNat)) := by
    have places : 8 * start + 8 = 8 * (start + 1) ∧ 8 * (start + 1) + 8 = 8 * (start + 2) ∧
        8 * (start + 2) + 8 = 8 * (start + 3) := by omega
    rw [natAt_add _ _ 8 24, natAt_add _ _ 8 16, natAt_add _ _ 8 8, places.1, places.2.1,
      places.2.2, natAt_ofBytes, natAt_ofBytes, natAt_ofBytes, natAt_ofBytes]
  apply UInt32.toNat_inj.mp
  rw [Digest.toNat_wordOfBytes, UInt32.toNat_ofNat_of_lt' (BitString.natAt_lt _ _ _), split]

theorem chunkAt_eq (bytes : ByteArray) {index : Nat} (inside : index < bytes.size / 64) :
    chunkAt bytes index inside = blockAt (BitString.ofBytes bytes) index := by
  simp only [chunkAt, blockAt]
  refine congrArg Vector.ofFn (funext fun word => ?_)
  have := word.isLt
  rw [wordOfBytes_eq bytes (by omega)]
  exact congrArg (fun place => UInt32.ofNat (BitString.natAt _ place 32)) (by omega)

end Words

theorem blocks_ofBytes (bytes : ByteArray) : blocks (.ofBytes bytes) =
    (List.range (bytes.size / 64)).map (blockAt (.ofBytes bytes)) := by
  have count : 8 * bytes.size / 512 = bytes.size / 64 := by omega
  rw [← count]
  rfl

/-- The digest of a message is made from the blocks of its padded bits. -/
theorem hash_eq (message : BitString) :
    hash message = (blocks (pad message)).foldl compress initial := by
  rw [← ofBytes_padBytes, blocks_ofBytes, List.foldl_map, hash, Nat.fold_eq_finRange_foldl,
    ← List.map_coe_finRange_eq_range, List.foldl_map]
  simp only [chunkAt_eq]

end Simplicity.Sha256
