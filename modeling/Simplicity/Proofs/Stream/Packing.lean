import Mathlib.Order.Bounds.Basic
import Simplicity.Proofs.Stream.Recognition

/-!
# What a packed bit string stands for

A bit string is built by appending bits, one at a time or many at once. However it was built, its bytes
and its length are those that come of setting one bit after another in place, and they hold the bits that
were appended, in their order and nothing else. So there is one packed form of a sequence of bits: bit
strings may be compared by their bytes and lengths, and the bytes are the shortest padded form.
-/

namespace Simplicity

/-- Bytes and a number of bits, whatever the bytes hold. -/
structure Buffer where
  bytes : Array UInt8
  length : Nat
  deriving DecidableEq

namespace Buffer

def empty : Buffer :=
  ⟨#[], 0⟩

/-- Appends one bit in place. When the last byte is full a zero byte follows it, and a one is set in the
last byte, behind the places that are taken. -/
def push (buffer : Buffer) (bit : Bool) : Buffer :=
  let offset := buffer.length % 8
  let bytes := if offset = 0 then buffer.bytes.push 0 else buffer.bytes
  let last := bytes.size - 1
  { bytes := if bit then bytes.modify last (· ||| (0x80 >>> UInt8.ofNat offset)) else bytes
    length := buffer.length + 1 }

end Buffer

namespace BitString

/-- The data of a bit string. -/
def buffer (string : BitString) : Buffer :=
  ⟨string.bytes.data, string.length⟩

/-- A bit string is built by operations that append the given bits in all. -/
inductive Built : BitString → List Bool → Prop where
  | empty : Built .empty []
  | ofBits (bits : List Bool) : Built (.ofBits bits) bits
  | push {string : BitString} {bits : List Bool} (built : Built string bits) (bit : Bool) :
      Built (string.push bit) (bits ++ [bit])
  | appendBits {string : BitString} {bits : List Bool} (built : Built string bits)
      (value count : Nat) : Built (string.appendBits value count) (bits ++ lowBits value count)
  | appendBytes {string : BitString} {bits : List Bool} (built : Built string bits)
      (bytes : List UInt8) :
      Built (string.appendBytes bytes) (bits ++ bytes.flatMap fun byte => lowBits byte.toNat 8)
  | append {string other : BitString} {bits added : List Bool} (built : Built string bits)
      (builtOther : Built other added) : Built (string ++ other) (bits ++ added)

variable {string other : BitString} {bits bits' : List Bool}

theorem Built.toList_eq (built : Built string bits) : string.toList = bits := by
  induction built with
  | empty => rfl
  | ofBits bits => exact toList_ofBits bits
  | push _ bit ih => rw [toList_push, ih]
  | appendBits _ value count ih => rw [toList_appendBits, ih]
  | appendBytes _ bytes ih => rw [toList_appendBytes, ih]
  | append _ _ ih ihOther => rw [toList_append, ih, ihOther]

theorem modify_push (bytes : Array UInt8) (byte : UInt8) (change : UInt8 → UInt8) :
    (bytes.push byte).modify bytes.size change = bytes.push (change byte) := by
  apply Array.ext_getElem?
  intro place
  rw [Array.getElem?_modify, Array.getElem?_push, Array.getElem?_push]
  by_cases last : place = bytes.size
  · rw [if_pos last, if_pos last.symm, if_pos last]
    rfl
  · rw [if_neg last, if_neg (Ne.symm last), if_neg last]

theorem modify_eq_set (bytes : Array UInt8) (change : UInt8 → UInt8) {place : Nat}
    (inside : place < bytes.size) :
    bytes.modify place change = bytes.set place (change bytes[place]) inside := by
  apply Array.ext_getElem?
  intro index
  rw [Array.getElem?_modify, Array.getElem?_set]
  by_cases here : place = index
  · subst here
    rw [if_pos rfl, if_pos rfl, Array.getElem?_eq_getElem inside]
    rfl
  · rw [if_neg here, if_neg here]

/-- Appending a bit writes it in place. -/
theorem buffer_push (string : BitString) (bit : Bool) :
    (string.push bit).buffer = string.buffer.push bit := by
  rcases string with ⟨bytes, length, packed⟩
  have size_eq : bytes.data.size = (length + 7) / 8 := packed.size_eq
  have mask := bitMask_eq (Nat.mod_lt length (by decide : 8 > 0))
  by_cases full : length % 8 = 0
  · cases bit with
    | false => simp [push, Buffer.push, buffer, full]
    | true =>
        rw [full] at mask
        simp only [push, Buffer.push, buffer, full, if_true, dif_pos, ByteArray.data_push,
          Array.size_push, Nat.add_sub_cancel, modify_push, ← mask, UInt8.zero_or]
  · cases bit with
    | false => simp [push, Buffer.push, buffer, full]
    | true =>
        have last : bytes.data.size - 1 = length / 8 := by omega
        have inside : length / 8 < bytes.data.size := packed.lt_size full
        simp only [push, Buffer.push, buffer, full, if_true, if_false, dif_neg, not_false_eq_true,
          last, modify_eq_set _ _ inside, ← mask]
        rfl

/-- Whatever operations a string is built by, they come down to setting its bits in place. -/
theorem Built.buffer_eq (built : Built string bits) :
    string.buffer = bits.foldl Buffer.push .empty := by
  have string_eq : string = .ofBits bits :=
    toList_inj.mp (by rw [built.toList_eq, BitString.toList_ofBits])
  have run : ∀ (start : BitString) (added : List Bool),
      (added.foldl BitString.push start).buffer = added.foldl Buffer.push start.buffer := by
    intro start added
    induction added generalizing start with
    | nil => rfl
    | cons bit rest ih => rw [List.foldl_cons, List.foldl_cons, ih, buffer_push]
  rw [string_eq, BitString.ofBits, run]
  rfl

theorem buffer_inj : string.buffer = other.buffer ↔ string = other := by
  constructor
  · intro same
    exact ext_bytes (congrArg Buffer.length same) (congrArg Buffer.bytes same)
  · rintro rfl
    rfl

/-- The bits of whole bytes are the bits of one byte after another. -/
theorem toList_ofBytes (bytes : ByteArray) :
    (ofBytes bytes).toList = bytes.data.toList.flatMap fun byte => lowBits byte.toNat 8 := by
  have listed : (List.ofFn fun index : Fin bytes.size =>
      (ofBytes bytes).byteAt (0 + 8 * index.val) (by change _ ≤ 8 * bytes.size; omega)) =
        bytes.data.toList := by
    apply List.ext_getElem
    · rw [List.length_ofFn]
      rfl
    · intro place _ _
      have aligned : (0 + 8 * place) % 8 = 0 := by omega
      have stored : (0 + 8 * place) / 8 = place := by omega
      rw [List.getElem_ofFn]
      simp only [byteAt, dif_pos aligned, stored]
      rfl
  have joined := @flatMap_byteAt (ofBytes bytes) bytes.size 0
    (by change _ ≤ 8 * bytes.size; omega)
  rw [listed] at joined
  rw [joined]
  simp only [Nat.zero_add]
  rfl

/-- The fewest zeros that fill the last byte. -/
theorem isLeast_zeros (string : BitString) :
    IsLeast {count | 8 ∣ string.length + count} (8 * string.bytes.size - string.length) := by
  have size_eq := string.packed.size_eq
  constructor
  · refine ⟨string.bytes.size, ?_⟩
    omega
  · rintro count ⟨whole, fills⟩
    omega

/-- A string that is built by appending bits has as many bytes as they need and zeros in the places that
are left over, and reads as the bits that were appended and nothing after them. Its bytes are those of
setting each bit in place. Two strings have the same bytes and length, and are equal, exactly when the
same bits were appended to them, and the bytes are the bits and the fewest zeros that fill the last
byte. -/
theorem Built.packs (built : Built string bits) :
    (string.length = bits.length ∧ string.bytes.size = (bits.length + 7) / 8 ∧
      ∀ place, bits.length ≤ place → bitAt string.bytes place = false) ∧
    (string.toList = bits ∧ (∀ index, string.get? index = bits[index]?) ∧
      ∀ index, string.get? index = none ↔ bits.length ≤ index) ∧
    string.buffer = bits.foldl Buffer.push .empty ∧
    (∀ {other : BitString} {bits' : List Bool}, Built other bits' →
      (string.buffer = other.buffer ↔ bits = bits') ∧ (string = other ↔ bits = bits')) ∧
    ∃ zeros, IsLeast {count | 8 ∣ bits.length + count} zeros ∧
      (string.bytes.data.toList.flatMap fun byte => lowBits byte.toNat 8) =
        bits ++ List.replicate zeros false := by
  have listed := built.toList_eq
  have length_eq : string.length = bits.length := by rw [← listed, length_toList]
  have reads : ∀ index, string.get? index = bits[index]? := by
    intro index
    rw [← getElem?_toList, listed]
  refine ⟨⟨length_eq, length_eq ▸ string.packed.size_eq, ?_⟩, ⟨listed, reads, ?_⟩,
    built.buffer_eq, ?_, _, length_eq ▸ string.isLeast_zeros, ?_⟩
  · intro place past
    exact string.packed.padding place (length_eq ▸ past)
  · intro index
    rw [reads, List.getElem?_eq_none_iff]
  · intro other bits' builtOther
    have same : string = other ↔ bits = bits' := by
      rw [← toList_inj, listed, builtOther.toList_eq]
    exact ⟨buffer_inj.trans same, same⟩
  · rw [← BitString.toList_ofBytes, toList_ofBytes_bytes, listed, length_eq]

/-- Bytes and a string that are appended across the ends of stored bytes. -/
theorem Built.packs_acrossBytes :
    ∃ string : BitString, Built string ([true, false, true] ++ lowBits 5 4 ++
        [0xab, 0xcd].flatMap (fun byte : UInt8 => lowBits byte.toNat 8) ++ [true] ++
          [true, true, false, false, true]) ∧
      string.buffer = ⟨#[0xab, 0x57, 0x9b, 0xc8], 29⟩ ∧
      string.get? 28 = some true ∧ string.get? 29 = none := by
  have built := ((((Built.ofBits [true, false, true]).appendBits 5 4).appendBytes
    [0xab, 0xcd]).push true).append (.ofBits [true, true, false, false, true])
  rcases Built.packs built with ⟨-, ⟨-, reads, -⟩, written, -⟩
  refine ⟨_, built, written.trans ?_, (reads 28).trans ?_, (reads 29).trans ?_⟩
  · decide +kernel
  · decide
  · decide

end BitString

end Simplicity
