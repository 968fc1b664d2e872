import Simplicity.BitString.Basic

/-!
# Bit strings as lists of bits

What each operation on bit strings does to the list of their bits. The list determines the string:
the places that the last byte has left over are zero, so there is nothing else to a string than
its bits. Afterwards nothing has to be said of bytes any more.
-/

namespace Simplicity.BitString

/-- The low `count` bits of a number, most significant first. -/
def lowBits (value : Nat) : (count : Nat) → List Bool
  | 0 => []
  | count + 1 => value.testBit count :: lowBits value count

@[simp] theorem length_lowBits (value count : Nat) : (lowBits value count).length = count := by
  induction count with
  | zero => rfl
  | succ count ih => simp [lowBits, ih]

@[simp] theorem length_toList (bits : BitString) : bits.toList.length = bits.length := by
  simp [toList]

@[simp] theorem toList_empty : empty.toList = [] :=
  rfl

theorem bitMask_eq {offset : Nat} (small : offset < 8) :
    bitMask offset = 0x80 >>> UInt8.ofNat offset := by
  revert offset
  decide

/-- A byte is made of the eight bits that start at its first place. -/
theorem testBit_byte (bytes : ByteArray) (index place : Nat) (inside : index < bytes.size)
    (small : place < 8) :
    (bytes.data.toList[index]).toNat.testBit place = bitAt bytes (8 * index + (7 - place)) := by
  have byte_index : (8 * index + (7 - place)) / 8 = index := by omega
  have offset : 7 - (8 * index + (7 - place)) % 8 = place := by omega
  rw [bitAt, dif_pos (by omega), offset]
  simp only [byte_index, ByteArray.getElem_eq_getElem_data, Array.getElem_toList]

theorem bitAt_eq_getElem?_toList (bits : BitString) (index : Nat) :
    bitAt bits.bytes index = (bits.toList[index]?).getD false := by
  by_cases inside : index < bits.length
  · simp [toList, List.getElem?_range inside]
  · rw [bits.packed.padding index (by omega),
      List.getElem?_eq_none (by rw [length_toList]; omega), Option.getD_none]

/-- The bits of a string determine it. -/
theorem eq_of_toList_eq {left right : BitString} (same : left.toList = right.toList) :
    left = right := by
  have length_eq : left.length = right.length := by
    rw [← length_toList, same, length_toList]
  have size_eq : left.bytes.size = right.bytes.size := by
    rw [left.packed.size_eq, right.packed.size_eq, length_eq]
  refine ext_bytes length_eq (Array.toList_inj.mp (List.ext_getElem size_eq ?_))
  intro index insideLeft insideRight
  refine UInt8.toNat_inj.mp (Nat.eq_of_testBit_eq fun place => ?_)
  by_cases small : place < 8
  · rw [testBit_byte _ _ _ insideLeft small, testBit_byte _ _ _ insideRight small,
      bitAt_eq_getElem?_toList, bitAt_eq_getElem?_toList, same]
  · have high (byte : UInt8) : byte.toNat.testBit place = false := by
      refine Nat.testBit_lt_two_pow (Nat.lt_of_lt_of_le byte.toNat_lt ?_)
      exact Nat.pow_le_pow_right (by decide) (by omega)
    rw [high, high]

theorem toList_inj {left right : BitString} : left.toList = right.toList ↔ left = right :=
  ⟨eq_of_toList_eq, congrArg toList⟩

theorem getElem?_toList (bits : BitString) (index : Nat) :
    bits.toList[index]? = bits.get? index := by
  by_cases inside : index < bits.length
  · rw [get?, dif_pos inside, toList, List.getElem?_map, List.getElem?_range inside]
    simp [get, bitAt, bits.div_lt_size inside]
  · rw [get?, dif_neg inside, List.getElem?_eq_none (by simpa using inside)]

@[simp] theorem length_push (bits : BitString) (bit : Bool) :
    (bits.push bit).length = bits.length + 1 := by
  rcases bits with ⟨bytes, length, packed⟩
  simp only [push]
  split
  · rfl
  · split <;> rfl

/-- A bit that is appended comes after all others and leaves them alone. -/
theorem bitAt_bytes_push (bits : BitString) (bit : Bool) (index : Nat) :
    bitAt (bits.push bit).bytes index =
      if index = bits.length then bit else bitAt bits.bytes index := by
  rcases bits with ⟨bytes, length, packed⟩
  have size_eq := packed.size_eq
  have padding := packed.padding
  unfold push
  simp only
  split
  case isTrue full =>
    rw [bitAt_push]
    by_cases same : index / 8 = bytes.size
    · rw [if_pos same]
      by_cases last : index = length
      · subst last
        cases bit <;> simp [testBit_bitMask, full]
      · rw [if_neg last, padding index (by omega)]
        cases bit
        · simp
        · simp only [if_true, testBit_bitMask]
          exact decide_eq_false (by omega)
    · rw [if_neg same, if_neg (by omega)]
  case isFalse room =>
    have inside := packed.lt_size room
    cases bit
    · simp only [Bool.false_eq_true, if_false]
      split
      case isTrue last => exact padding index (by omega)
      case isFalse => rfl
    · simp only [if_true]
      rw [bitAt_set]
      by_cases here : index / 8 = length / 8
      · have reached : index / 8 < bytes.size := here ▸ inside
        rw [if_pos here, UInt8.toNat_or, Nat.testBit_or, testBit_bitMask, bitAt, dif_pos reached]
        simp only [here]
        by_cases last : index = length
        · subst last
          rw [if_pos rfl, decide_eq_true rfl, Bool.or_true]
        · rw [if_neg last, decide_eq_false (by omega), Bool.or_false]
      · rw [if_neg here, if_neg (by rintro rfl; exact here rfl)]

@[simp] theorem toList_push (bits : BitString) (bit : Bool) :
    (bits.push bit).toList = bits.toList ++ [bit] := by
  simp only [toList, length_push, List.range_succ, List.map_append, List.map_cons, List.map_nil,
    bitAt_bytes_push, if_true]
  congr 1
  refine List.map_congr_left fun index member => ?_
  rw [bitAt_bytes_push, if_neg (Nat.ne_of_lt (List.mem_range.mp member))]

@[simp] theorem toList_ofBits (bits : List Bool) : (ofBits bits).toList = bits := by
  suffices ∀ start : BitString, (bits.foldl push start).toList = start.toList ++ bits by
    simpa [ofBits] using this empty
  induction bits with
  | nil => simp
  | cons bit rest ih => simp [ih]

theorem toList_append (bits other : BitString) :
    (bits ++ other).toList = bits.toList ++ other.toList := by
  change (Nat.fold other.length _ bits).toList = _
  suffices ∀ count (within : count ≤ other.length),
      (Nat.fold count (fun index inside out => out.push
        (other.get index (Nat.lt_of_lt_of_le inside within))) bits).toList =
          bits.toList ++ (List.range count).map (bitAt other.bytes) from
    this other.length (Nat.le_refl _)
  intro count
  induction count with
  | zero => simp
  | succ count ih =>
      intro within
      have inside : count < other.length := within
      rw [Nat.fold_succ, toList_push, ih (by omega)]
      simp [List.range_succ, get, bitAt, other.div_lt_size inside]

@[simp] theorem toList_appendBits (bits : BitString) (value count : Nat) :
    (bits.appendBits value count).toList = bits.toList ++ lowBits value count := by
  induction count generalizing bits with
  | zero => simp [appendBits, lowBits]
  | succ count ih => simp [appendBits, lowBits, ih]

@[simp] theorem toList_appendZeros (bits : BitString) (count : Nat) :
    (bits.appendZeros count).toList = bits.toList ++ List.replicate count false := by
  induction count generalizing bits with
  | zero => simp [appendZeros]
  | succ count ih => simp [appendZeros, ih, List.replicate_succ]

@[simp] theorem toList_appendBytes (bits : BitString) (bytes : List UInt8) :
    (bits.appendBytes bytes).toList =
      bits.toList ++ bytes.flatMap fun byte => lowBits byte.toNat 8 := by
  induction bytes generalizing bits with
  | nil => simp [appendBytes]
  | cons byte rest ih => simpa [appendBytes] using ih (bits.appendBits byte.toNat 8)

end Simplicity.BitString
