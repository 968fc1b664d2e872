import Simplicity.Proofs.Checked.Stream
import Simplicity.Proofs.Stream.Recognition

/-!
# Whole bytes at any position

Bytes that start inside a stored byte can be read in two ways. The plain way takes eight bits for each
of them. The other way looks once whether there are enough bits, and then joins the end of one stored
byte with the beginning of the next.

The two agree because a joined byte is the number that its eight bits write, and the second way needs no
stored byte that is not there: when an array ends in the last byte, so does its last joined byte, and
when it ends with the last byte, the position is aligned and nothing is joined.
-/

namespace Simplicity

/-- A byte that is joined from two stored ones is the number that its eight bits write. -/
theorem BitString.toNat_byteAt (bits : BitString) (position : Nat)
    (inside : position + 8 ≤ bits.length) :
    (bits.byteAt position inside).toNat = bits.natAt position 8 := by
  apply eq_of_lowBits_eq (UInt8.toNat_lt _) (natAt_lt bits position 8)
  rw [lowBits_byteAt, lowBits_natAt]

namespace Decoder

/-- Reads numbers of eight bits, one after another. -/
def octets (field : Field) : (count : Nat) → Decoder StreamError (List Nat)
  | 0 => return []
  | count + 1 => do
      let first ← bits 8 field
      let rest ← octets field count
      return first :: rest

theorem bits_of_le {cursor : Cursor} {count : Nat}
    (enough : cursor.position + count ≤ cursor.source.length) (field : Field) :
    bits count field cursor =
      .ok (cursor.source.natAt cursor.position count) (cursor.advance count) := by
  apply if_neg
  rw [Cursor.remaining]
  omega

theorem octets_of_le {cursor : Cursor} {count : Nat}
    (enough : cursor.position + 8 * count ≤ cursor.source.length) (field : Field) :
    octets field count cursor =
      .ok (List.ofFn fun index : Fin count =>
        cursor.source.natAt (cursor.position + 8 * index.val) 8) (cursor.advance (8 * count)) := by
  induction count generalizing cursor with
  | zero => rfl
  | succ count ih =>
      have later : (cursor.advance 8).position + 8 * count ≤ (cursor.advance 8).source.length := by
        change cursor.position + 8 + 8 * count ≤ cursor.source.length
        omega
      have step : ∀ index : Fin count, cursor.position + 8 * index.succ.val =
          (cursor.advance 8).position + 8 * index.val := by
        intro index
        change _ = cursor.position + 8 + _
        rw [Fin.val_succ]
        omega
      rw [octets, bind_of_ok (bits_of_le (by omega) field), bind_of_ok (ih later), List.ofFn_succ]
      simp only [step]
      rw [Nat.mul_succ, Nat.add_comm (8 * count) 8, ← Cursor.advance_advance]
      rfl

theorem bytes_of_le {cursor : Cursor} {count : Nat}
    (enough : cursor.position + 8 * count ≤ cursor.source.length) (field : Field) :
    bytes count field cursor =
      .ok (Vector.ofFn fun index : Fin count =>
        cursor.source.byteAt (cursor.position + 8 * index.val) (by omega))
        (cursor.advance (8 * count)) :=
  dif_pos enough

theorem bytes_of_lt {cursor : Cursor} {count : Nat}
    (short : cursor.source.length < cursor.position + 8 * count) (field : Field) :
    bytes count field cursor = .error (.unexpectedEnd field) cursor :=
  dif_neg (by omega)

/-- Bytes that are read at once can be read one after another. -/
theorem octets_of_bytes {cursor next : Cursor} {count : Nat} {field : Field}
    {found : Vector UInt8 count} (reads : bytes count field cursor = .ok found next) :
    octets field count cursor = .ok (found.toList.map UInt8.toNat) next := by
  rcases Nat.lt_or_ge cursor.source.length (cursor.position + 8 * count) with short | enough
  · rw [bytes_of_lt short] at reads
    cases reads
  · rw [bytes_of_le enough] at reads
    cases reads
    rw [octets_of_le enough]
    simp only [Vector.toList_ofFn, List.map_ofFn, Function.comp_def, BitString.toNat_byteAt]

/-- Where enough bits are left, bytes that are read at once are the ones that eight bits at a time
give, and both ways stop at the same place. Otherwise reading them at once fails and stays where it
is. Checking every index into the slice makes no difference: all of them are inside. -/
theorem bytes_eq_octets (slice : ByteArray) {position : Nat} (within : position ≤ 8 * slice.size)
    (count : Nat) (field : Field) :
    let cursor : Cursor := ⟨.ofBytes slice, position⟩
    (8 * count ≤ cursor.remaining → ∃ found : Vector UInt8 count,
      bytes count field cursor = .ok found (cursor.advance (8 * count)) ∧
        octets field count cursor =
          .ok (found.toList.map UInt8.toNat) (cursor.advance (8 * count)) ∧
        Reading.bytes count field cursor = .ok (.ok found, cursor.advance (8 * count))) ∧
    (cursor.remaining < 8 * count →
      bytes count field cursor = .error (.unexpectedEnd field) cursor ∧
        Reading.bytes count field cursor = .ok (.error (.unexpectedEnd field), cursor)) := by
  intro cursor
  have inside : cursor.position ≤ cursor.source.length := within
  rw [Cursor.remaining, Reading.bytes_eq]
  simp only [Reading.of, ExceptT.mk]
  constructor
  · intro left
    have enough : cursor.position + 8 * count ≤ cursor.source.length := by omega
    have reads := bytes_of_le enough field
    rw [reads]
    exact ⟨_, rfl, octets_of_bytes reads, rfl⟩
  · intro left
    rw [bytes_of_lt (by omega)]
    exact ⟨rfl, rfl⟩

/-- Two bytes that end inside the last of three stored ones. -/
theorem bytes_eq_octets_lastByte :
    let cursor : Cursor := ⟨.ofBytes ⟨#[0x7b, 0xd5, 0xb7]⟩, 3⟩
    (3 ≤ 8 * 3 ∧ 8 * 2 ≤ cursor.remaining ∧ cursor.remaining < 8 * 3) ∧
      (∃ found : Vector UInt8 2,
        bytes 2 .nodeCode cursor = .ok found (cursor.advance 16) ∧
          octets .nodeCode 2 cursor = .ok (found.toList.map UInt8.toNat) (cursor.advance 16) ∧
          Reading.bytes 2 .nodeCode cursor = .ok (.ok found, cursor.advance 16)) ∧
      bytes 3 .nodeCode cursor = .error (.unexpectedEnd .nodeCode) cursor ∧
        Reading.bytes 3 .nodeCode cursor = .ok (.error (.unexpectedEnd .nodeCode), cursor) :=
  ⟨by decide, (bytes_eq_octets ⟨#[0x7b, 0xd5, 0xb7]⟩ (by decide) 2 .nodeCode).1 (by decide),
    (bytes_eq_octets ⟨#[0x7b, 0xd5, 0xb7]⟩ (by decide) 3 .nodeCode).2 (by decide)⟩

end Decoder

end Simplicity
