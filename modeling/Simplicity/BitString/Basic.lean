/-!
# Packed bit strings

Programs and witnesses travel as bits rather than bytes. A `BitString` keeps its bits packed
into bytes, the first bit in the most significant place of the first byte, and the places that
the last byte has left over are zero. Because of that the packed bytes are at once the padded
form of the string, and two strings with the same bits have the same representation.

The type carries both facts about its bytes, so every operation below keeps them.
-/

namespace Simplicity

/-- The bit at position `index` of a byte sequence, reading each byte from its most significant
bit; positions past the last byte read as zero. -/
def bitAt (bytes : ByteArray) (index : Nat) : Bool :=
  if h : index / 8 < bytes.size then
    (bytes[index / 8]).toNat.testBit (7 - index % 8)
  else
    false

/-- The byte whose only set bit is the one at offset `offset` from the most significant place. -/
def bitMask (offset : Nat) : UInt8 :=
  UInt8.ofNat (1 <<< (7 - offset))

theorem testBit_bitMask (offset place : Nat) :
    (bitMask offset).toNat.testBit place = decide (7 - offset = place) := by
  have small : 2 ^ (7 - offset) < UInt8.size := by
    calc 2 ^ (7 - offset) ≤ 2 ^ 7 := Nat.pow_le_pow_right (by decide) (by omega)
      _ < UInt8.size := by decide
  rw [bitMask, Nat.one_shiftLeft, UInt8.toNat_ofNat_of_lt' small, Nat.testBit_two_pow]

theorem bitAt_eq_false_of_size_le {bytes : ByteArray} {index : Nat}
    (past : 8 * bytes.size ≤ index) : bitAt bytes index = false := by
  rw [bitAt, dif_neg (by omega)]

theorem bitAt_push (bytes : ByteArray) (byte : UInt8) (index : Nat) :
    bitAt (bytes.push byte) index =
      if index / 8 = bytes.size then byte.toNat.testBit (7 - index % 8)
      else bitAt bytes index := by
  unfold bitAt
  by_cases last : index / 8 = bytes.size
  · rw [dif_pos (by rw [ByteArray.size_push]; omega), if_pos last]
    simp [ByteArray.getElem_eq_getElem_data, ByteArray.data_push, Array.getElem_push, last]
  · rw [if_neg last]
    by_cases inside : index / 8 < bytes.size
    · rw [dif_pos (by rw [ByteArray.size_push]; omega), dif_pos inside]
      simp only [ByteArray.getElem_eq_getElem_data, ByteArray.data_push]
      rw [Array.getElem_push_lt]
    · rw [dif_neg (by rw [ByteArray.size_push]; omega), dif_neg inside]

theorem size_set (bytes : ByteArray) (place : Nat) (byte : UInt8) (inside : place < bytes.size) :
    (bytes.set place byte inside).size = bytes.size :=
  Array.size_set inside

theorem bitAt_set (bytes : ByteArray) (place : Nat) (byte : UInt8) (inside : place < bytes.size)
    (index : Nat) :
    bitAt (bytes.set place byte inside) index =
      if index / 8 = place then byte.toNat.testBit (7 - index % 8)
      else bitAt bytes index := by
  have size_eq := size_set bytes place byte inside
  unfold bitAt
  by_cases here : index / 8 = place
  · subst here
    rw [dif_pos (by omega), if_pos rfl, ByteArray.getElem_eq_getElem_data]
    exact congrArg (fun found : UInt8 => found.toNat.testBit (7 - index % 8))
      (Array.getElem_set_self inside)
  · rw [if_neg here]
    by_cases other : index / 8 < bytes.size
    · rw [dif_pos (by omega), dif_pos other, ByteArray.getElem_eq_getElem_data,
        ByteArray.getElem_eq_getElem_data]
      exact congrArg (fun found : UInt8 => found.toNat.testBit (7 - index % 8))
        (Array.getElem_set_ne inside other (Ne.symm here))
    · rw [dif_neg (by omega), dif_neg other]

/-- The bytes hold `length` bits: there are only as many bytes as that takes, and the places
after the last bit are zero. -/
structure Packed (bytes : ByteArray) (length : Nat) : Prop where
  size_eq : bytes.size = (length + 7) / 8
  padding : ∀ index, length ≤ index → bitAt bytes index = false

namespace Packed

variable {bytes : ByteArray} {length : Nat}

/-- A zero bit that still fits in the last byte is already there. -/
theorem push_zero (packed : Packed bytes length) (room : length % 8 ≠ 0) :
    Packed bytes (length + 1) where
  size_eq := by
    rw [packed.size_eq]
    omega
  padding := fun index past => packed.padding index (by omega)

/-- A full last byte is followed by a byte with the new bit in its first place. -/
theorem push_byte (packed : Packed bytes length) (full : length % 8 = 0) (bit : Bool) :
    Packed (bytes.push (if bit then bitMask 0 else 0)) (length + 1) where
  size_eq := by
    rw [ByteArray.size_push, packed.size_eq]
    omega
  padding := by
    intro index past
    have size_eq := packed.size_eq
    rw [bitAt_push]
    split
    · cases bit
      · simp
      · simp only [if_true, testBit_bitMask]
        exact decide_eq_false (by omega)
    · exact packed.padding index (by omega)

/-- A last byte that is not full has a byte of its own. -/
theorem lt_size (packed : Packed bytes length) (room : length % 8 ≠ 0) :
    length / 8 < bytes.size := by
  rw [packed.size_eq]
  omega

/-- Setting the first free place of the last byte adds a one. -/
theorem push_one (packed : Packed bytes length) (inside : length / 8 < bytes.size)
    (room : length % 8 ≠ 0) :
    Packed (bytes.set (length / 8) (bytes[length / 8] ||| bitMask (length % 8)) inside)
      (length + 1) where
  size_eq := by
    rw [size_set, packed.size_eq]
    omega
  padding := by
    intro index past
    have before := packed.padding index (by omega)
    rw [bitAt_set]
    split
    case isTrue here =>
      have reached : index / 8 < bytes.size := here ▸ inside
      rw [bitAt, dif_pos reached] at before
      simp only [here] at before
      rw [UInt8.toNat_or, Nat.testBit_or, testBit_bitMask, before]
      simp only [Bool.false_or]
      exact decide_eq_false (by omega)
    case isFalse => exact before

/-- Whole bytes hold eight bits each. -/
theorem ofBytes (bytes : ByteArray) : Packed bytes (8 * bytes.size) where
  size_eq := by omega
  padding := fun _ past => bitAt_eq_false_of_size_le past

end Packed

/-- A finite sequence of bits, packed most significant bit first. -/
structure BitString where
  /-- The bits, padded with zeros to a whole number of bytes. -/
  bytes : ByteArray
  length : Nat
  /-- The bytes hold that many bits and nothing else. -/
  packed : Packed bytes length

namespace BitString

def empty : BitString :=
  ⟨.empty, 0, rfl, fun _ _ => rfl⟩

instance : Inhabited BitString :=
  ⟨empty⟩

def ofBytes (bytes : ByteArray) : BitString :=
  ⟨bytes, 8 * bytes.size, .ofBytes bytes⟩

theorem ext_bytes : {left right : BitString} → left.length = right.length →
    left.bytes.data = right.bytes.data → left = right
  | ⟨⟨_⟩, _, _⟩, ⟨⟨_⟩, _, _⟩, rfl, rfl => rfl

instance : DecidableEq BitString := fun left right =>
  if same : left.length = right.length ∧ left.bytes.data = right.bytes.data then
    isTrue (ext_bytes same.1 same.2)
  else
    isFalse fun equal => same (equal ▸ ⟨rfl, rfl⟩)

def isEmpty (bits : BitString) : Bool :=
  bits.length == 0

theorem div_lt_size (bits : BitString) {index : Nat} (inside : index < bits.length) :
    index / 8 < bits.bytes.size := by
  have := bits.packed.size_eq
  omega

/-- The bit at a position inside the string. -/
def get (bits : BitString) (index : Nat) (inside : index < bits.length) : Bool :=
  have := bits.div_lt_size inside
  (bits.bytes[index / 8]).toNat.testBit (7 - index % 8)

/-- The bit at a position, if the string reaches that far. -/
def get? (bits : BitString) (index : Nat) : Option Bool :=
  if inside : index < bits.length then some (bits.get index inside) else none

def toList (bits : BitString) : List Bool :=
  (List.range bits.length).map (bitAt bits.bytes)

/-- Appends one bit: a new byte when the last one is full, otherwise its first free place. -/
def push : BitString → Bool → BitString
  | ⟨bytes, length, packed⟩, bit =>
    if full : length % 8 = 0 then
      ⟨bytes.push (if bit then bitMask 0 else 0), length + 1, packed.push_byte full bit⟩
    else if bit then
      have inside := packed.lt_size full
      ⟨bytes.set (length / 8) (bytes[length / 8] ||| bitMask (length % 8)) inside, length + 1,
        packed.push_one inside full⟩
    else
      ⟨bytes, length + 1, packed.push_zero full⟩

def ofBits (bits : List Bool) : BitString :=
  bits.foldl push empty

/-- Appends all bits of another string. -/
def append (bits other : BitString) : BitString :=
  Nat.fold other.length (fun index inside out => out.push (other.get index inside)) bits

instance : Append BitString :=
  ⟨append⟩

/-- Appends the low `count` bits of a number, most significant first. -/
def appendBits (bits : BitString) (value : Nat) : Nat → BitString
  | 0 => bits
  | count + 1 => (bits.push (value.testBit count)).appendBits value count

/-- Appends whole bytes, wherever in a byte the string ends. -/
def appendBytes (bits : BitString) (bytes : List UInt8) : BitString :=
  bytes.foldl (fun out byte => out.appendBits byte.toNat 8) bits

/-- Appends a number of zero bits. -/
def appendZeros (bits : BitString) : Nat → BitString
  | 0 => bits
  | count + 1 => (bits.push false).appendZeros count

/-- The `count` bits from position `start` on as a number, most significant bit first; places
past the end read as zero. -/
def natAt (bits : BitString) (start : Nat) : Nat → Nat
  | 0 => 0
  | count + 1 => 2 * bits.natAt start count + (bitAt bits.bytes (start + count)).toNat

theorem succ_div_lt_size (bits : BitString) {position : Nat}
    (inside : position + 8 ≤ bits.length) (unaligned : position % 8 ≠ 0) :
    position / 8 + 1 < bits.bytes.size := by
  have := bits.packed.size_eq
  omega

/-- The byte that starts at a bit position: the tail of one stored byte and, unless the position
is aligned, the head of the next. -/
def byteAt (bits : BitString) (position : Nat) (inside : position + 8 ≤ bits.length) : UInt8 :=
  have := bits.div_lt_size (Nat.lt_of_lt_of_le (Nat.lt_add_of_pos_right (by decide)) inside)
  let offset := position % 8
  let high := bits.bytes[position / 8]
  if aligned : position % 8 = 0 then
    high
  else
    have := bits.succ_div_lt_size inside aligned
    let low := bits.bytes[position / 8 + 1]
    (high <<< UInt8.ofNat offset) ||| (low >>> UInt8.ofNat (8 - offset))

def text (bits : BitString) : String :=
  String.ofList (bits.toList.map fun bit => if bit then '1' else '0')

end BitString

end Simplicity
